import PipeQuery.Proofs.Words

/-!
# The productions of the grammar

What the words of each sort of phrase are made of, from names up to queries, and with which kinds
they may begin. The languages here are those that the rules spell; the trees are made up.
-/

open scoped Computability

namespace PipeQuery

theorem ArithmeticOp.leftPower_le (op : ArithmeticOp) : op.leftPower ≤ Sign.power := by
  cases op <;> decide

theorem Connective.leftPower_le (op : Connective) : op.leftPower ≤ Connective.notPower := by
  cases op <;> decide

namespace Words

open Grammar

variable {f : Bool} {k : Kind} {ks ks' : List Kind} {L : Language Kind}

/-! ## Names -/

/-- Any kind of names has an identifier. -/
theorem exists_identifier (f : Bool) (hk : k.isName = true) :
    ∃ i : Identifier, i.kind = k ∧ [k] ∈ Item.words f [.same (.identifier i)] := by
  let i : Identifier := .ofToken (.ofKind k) default
  have hi : [k] ∈ Item.words f (Phrase.identifier i).items :=
    Item.terminal_mem_words (x := .ofKind k) ⟨rfl, rfl⟩ Item.nil_mem_words
  exact ⟨i, rfl, Item.same_mem_words ⟨hk, rfl⟩ hi⟩

theorem exists_identifier_of_mem {kinds : KindSet} (hn : Names kinds) (h : ks ∈ kinds.letters) :
    ∃ i : Identifier, i.kind ∈ kinds ∧ ks ∈ Item.words f [.same (.identifier i)] := by
  obtain ⟨k, hk, rfl⟩ := h
  obtain ⟨i, hi, hw⟩ := exists_identifier f (hn k hk)
  exact ⟨i, hi ▸ hk, hw⟩

theorem exists_plain (h : ks ∈ plainNames.letters) :
    ∃ i : Identifier, i.IsPlain ∧ ks ∈ Item.words f [.same (.identifier i)] := by
  obtain ⟨i, hi, hw⟩ := exists_identifier_of_mem names_plainNames h
  exact ⟨i, KindSet.mem_ofList.1 hi, hw⟩

theorem names_le : separated .dot plainNames.letters ≤ phrases f .qualifiedName := by
  intro ks h
  obtain ⟨parts, hne, hplain, hw⟩ := exists_list (fun _ => exists_plain) h
  exact mem_phrases (a := ⟨parts, default⟩) ⟨hne, hplain⟩ hw

theorem starts_names : Starts plainNames (phrases f .qualifiedName) :=
  Starts.mono (fun _ hk => ⟨[], mem_separated (KindSet.singleton_mem_letters hk)⟩) names_le

/-- A new name and an equals sign, or nothing. -/
def assigned (kinds : KindSet) : Language Kind := 1 + kinds.letters * letter .assign

theorem nil_mem_assigned {kinds : KindSet} : [] ∈ assigned kinds := .inl rfl

theorem exists_assigned {kinds : KindSet} (hn : Names kinds) (h : ks ∈ assigned kinds) :
    ∃ name : Option Identifier, (∀ i ∈ name, i.kind ∈ kinds) ∧
      ks ∈ Item.words f (Item.assigned name) := by
  obtain rfl | ⟨ks, hks, _, hletter, rfl⟩ := h
  · exact ⟨none, by simp, Item.nil_mem_words⟩
  · obtain rfl := eq_of_mem_letter hletter
    obtain ⟨i, hi, hw⟩ := exists_identifier_of_mem hn hks
    exact ⟨some i, by simpa using hi,
      Item.append_mem_words hw (Item.kind_mem_words Item.nil_mem_words)⟩

/-! ## Constants -/

/-- Phrases that are another phrase alone. -/
theorem phrases_le {α β : Type} {phrase : α → Phrase} {phrase' : β → Phrase} (g : α → β)
    (hadm : ∀ a, (phrase' (g a)).Admissible f)
    (hitems : ∀ a, (phrase' (g a)).items = [.same (phrase a)]) :
    phrases f phrase ≤ phrases f phrase' := by
  rintro ks ⟨a, ha⟩
  exact mem_phrases (hadm a) (by rwa [hitems a])

/-- A number of each kind. -/
theorem exists_number (kind : NumericKind) :
    ∃ n : NumericValue, n.kind = kind ∧ [kind.kind] ∈ Item.words f [.same (.number n)] := by
  let n : NumericValue := ⟨"==", kind, default⟩
  have hn : [kind.kind] ∈ Item.words f (Phrase.number n).items :=
    Item.terminal_mem_words (x := .ofKind kind.kind) ⟨rfl, rfl⟩ Item.nil_mem_words
  exact ⟨n, rfl, Item.same_mem_words trivial hn⟩

theorem numbers_le : numbers.letters ≤ phrases f .number := by
  rintro _ ⟨k, hk, rfl⟩
  obtain ⟨kind, rfl⟩ : ∃ kind : NumericKind, kind.kind = k := by
    have hk : k = .integer ∨ k = .decimal := by simpa [numbers] using hk
    obtain rfl | rfl := hk
    · exact ⟨.integer, rfl⟩
    · exact ⟨.decimal, rfl⟩
  obtain ⟨n, -, hn⟩ := exists_number kind
  exact ⟨n, hn⟩

theorem strings_le : letter .string ≤ phrases f .string := by
  intro ks h
  obtain rfl := eq_of_mem_letter h
  exact mem_phrases (a := ⟨"==", default⟩) trivial
    (Item.terminal_mem_words (x := .ofKind .string) ⟨rfl, rfl⟩ Item.nil_mem_words)

theorem truthValues_le : letter .boolean ≤ phrases f .truthValue := by
  intro ks h
  obtain rfl := eq_of_mem_letter h
  exact mem_phrases (a := ⟨sameWord "==" "true", default⟩) trivial
    (Item.terminal_mem_words (x := .ofKind .boolean) ⟨rfl, rfl⟩ Item.nil_mem_words)

theorem null_le : letter .kwNull ≤ phrases f .constant := by
  intro ks h
  obtain rfl := eq_of_mem_letter h
  exact mem_phrases (a := .null default) trivial (Item.kind_mem_words Item.nil_mem_words)

theorem numbers_le_constants : phrases f .number ≤ phrases f .constant :=
  phrases_le .numeric (fun _ => trivial) fun _ => rfl

theorem strings_le_constants : phrases f .string ≤ phrases f .constant :=
  phrases_le .string (fun _ => trivial) fun _ => rfl

theorem truthValues_le_constants : phrases f .truthValue ≤ phrases f .constant :=
  phrases_le .boolean (fun _ => trivial) fun _ => rfl

/-- The elements of a list of constants. -/
def elements (f : Bool) : Language Kind :=
  separated .comma (phrases f .number) + separated .comma (phrases f .truthValue)
    + separated .comma (phrases f .string)

/-- Constants of one sort in brackets. -/
theorem mem_constants {α : Type} {phrase : α → Phrase} (list : List α → Constant)
    (hadm : ∀ as : List α, as ≠ [] → (list as).Admissible)
    (hitems : ∀ as, (list as).items
      = .kind .leftBracket :: (Item.list phrase as ++ [.kind .rightBracket]))
    (h : ks ∈ separated .comma (phrases f phrase)) :
    .leftBracket :: (ks ++ [.rightBracket]) ∈ phrases f .constant := by
  obtain ⟨as, hne, hw⟩ := exists_phrases h
  refine mem_phrases (a := list as) (hadm as hne) ?_
  change _ ∈ Item.words f (list as).items
  rw [hitems as]
  exact Item.kind_mem_words (Item.append_mem_words hw (Item.kind_mem_words Item.nil_mem_words))

theorem brackets_le :
    letter .leftBracket * (elements f * letter .rightBracket) ≤ phrases f .constant := by
  rintro _ ⟨_, hl, _, ⟨ks, hks, _, hr, rfl⟩, rfl⟩
  obtain rfl := eq_of_mem_letter hl
  obtain rfl := eq_of_mem_letter hr
  obtain (hks | hks) | hks := hks
  · exact mem_constants (.numericArray · default) (fun _ h => h) (fun _ => rfl) hks
  · exact mem_constants (.booleanArray · default) (fun _ h => h) (fun _ => rfl) hks
  · exact mem_constants (.stringArray · default) (fun _ h => h) (fun _ => rfl) hks

theorem starts_elements : Starts elementStart (elements f) := by
  intro k hk
  have hk : k ∈ numbers ∨ k = .boolean ∨ k = .string := by simpa [elementStart] using hk
  obtain hk | rfl | rfl := hk
  · exact ⟨[], .inl (.inl (mem_separated (numbers_le (KindSet.singleton_mem_letters hk))))⟩
  · exact ⟨[], .inl (.inr (mem_separated (truthValues_le (mem_letter _))))⟩
  · exact ⟨[], .inr (mem_separated (strings_le (mem_letter _)))⟩

theorem starts_constants : Starts constantStart (phrases f .constant) := by
  intro k hk
  have hk : k = .kwNull ∨ (k = .integer ∨ k = .decimal) ∨ k = .boolean ∨ k = .string ∨
      k = .leftBracket := by
    simpa [constantStart, or_assoc] using hk
  obtain rfl | hk | rfl | rfl | rfl := hk
  · exact ⟨[], null_le (mem_letter _)⟩
  · exact ⟨[], numbers_le_constants (numbers_le (KindSet.singleton_mem_letters
      (by simpa [numbers] using hk)))⟩
  · exact ⟨[], truthValues_le_constants (truthValues_le (mem_letter _))⟩
  · exact ⟨[], strings_le_constants (strings_le (mem_letter _))⟩
  · obtain ⟨w, hw⟩ := starts_elements (f := f) .string (by decide)
    exact ⟨_, brackets_le (Language.append_mem_mul (mem_letter _)
      (Language.append_mem_mul hw (mem_letter _)))⟩

/-! ## Arguments -/

theorem names_le_fieldArguments : phrases f .qualifiedName ≤ phrases f .fieldArgument :=
  phrases_le .field (fun _ => trivial) fun _ => rfl

theorem numbers_le_fieldArguments : phrases f .number ≤ phrases f .fieldArgument :=
  phrases_le .numeric (fun _ => trivial) fun _ => rfl

theorem strings_le_fieldArguments : phrases f .string ≤ phrases f .fieldArgument :=
  phrases_le .string (fun _ => trivial) fun _ => rfl

theorem starts_fieldArguments : Starts fieldArgumentStart (phrases f .fieldArgument) := by
  refine .union (.union ?_ ?_) ?_
  · exact starts_names.mono names_le_fieldArguments
  · exact (starts_letters _).mono (le_trans numbers_le numbers_le_fieldArguments)
  · exact (starts_letters _).mono (le_trans strings_le strings_le_fieldArguments)

theorem timeSpans_le : numbers.letters * letter .dateUnit ≤ phrases f .timeSpan := by
  rintro _ ⟨ks, hks, _, hunit, rfl⟩
  obtain rfl := eq_of_mem_letter hunit
  obtain ⟨n, hn⟩ := numbers_le (f := f) hks
  exact mem_phrases (a := ⟨n, "==", default⟩) trivial (Item.append_mem_words hn
    (Item.terminal_mem_words (x := .ofKind .dateUnit) ⟨rfl, rfl⟩ Item.nil_mem_words))

theorem timeSpans_le_scalarArguments : phrases f .timeSpan ≤ phrases f .scalarArgument :=
  phrases_le .timeSpan (fun _ => trivial) fun _ => rfl

theorem values_le_scalarArguments : phrases f .value ≤ phrases f .scalarArgument :=
  phrases_le .value (fun _ => trivial) fun _ => rfl

/-- A function and its arguments, each as `P` says. -/
theorem exists_call {α : Type} {item : α → Item} {P : α → Prop} {name : Identifier}
    (hname : [k] ∈ Item.words f [.same (.identifier name)])
    (hL : ∀ ks ∈ L, ∃ a, P a ∧ ks ∈ Item.words f [item a]) (h : ks ∈ arguments L) :
    ∃ as : List α, k :: ks ∈ Item.words f (Item.call name (as.map item)) := by
  have hcall (as : List α) {ks : List Kind}
      (hw : ks ∈ Item.words f (Item.separated .comma (as.map item))) :
      k :: .leftParen :: (ks ++ [.rightParen]) ∈ Item.words f (Item.call name (as.map item)) :=
    Item.cons_mem_words hname (Item.kind_mem_words
      (Item.append_mem_words hw (Item.kind_mem_words Item.nil_mem_words)))
  obtain ⟨ks, hks, rfl⟩ := eq_of_mem_parenthesised h
  obtain rfl | hks := hks
  · exact ⟨[], hcall [] Item.nil_mem_words⟩
  · obtain ⟨as, -, -, hw⟩ := exists_list hL hks
    exact ⟨as, hcall as hw⟩

/-- Arguments that are phrases of one sort. -/
theorem exists_call_phrases {α : Type} {phrase : α → Phrase} {name : Identifier}
    (hname : [k] ∈ Item.words f [.same (.identifier name)])
    (h : ks ∈ arguments (phrases f phrase)) :
    ∃ as : List α, k :: ks ∈ Item.words f (Item.call name (as.map fun a => .same (phrase a))) := by
  have hL : ∀ ks ∈ phrases f phrase, ∃ a, True ∧ ks ∈ Item.words f [.same (phrase a)] := by
    rintro ks ⟨a, ha⟩
    exact ⟨a, trivial, ha⟩
  exact exists_call hname hL h

/-! ## Arithmetic -/

theorem operators_le (f : Bool) {power power' : Nat} (h : power ≤ power') :
    operators f power' ≤ operators f power := by
  rintro ks ⟨e, he, hw⟩
  exact ⟨e, Nat.le_trans h he, hw⟩

theorem mem_operators {e : OperatorExpr} {power : Nat} (hpower : power ≤ e.power)
    (hadm : e.Admissible) (h : ks ∈ Item.words f e.items) : ks ∈ operators f power :=
  ⟨e, hpower, Item.same_mem_words (p := .operator e) hadm h⟩

theorem constants_le_primaries : phrases f .constant ≤ phrases f .primary :=
  phrases_le .constant (fun _ => trivial) fun _ => rfl

theorem names_le_primaries : phrases f .qualifiedName ≤ phrases f .primary :=
  phrases_le .field (fun _ => trivial) fun _ => rfl

theorem primaries_le : phrases f .primary ≤ operators f Sign.power := by
  rintro ks ⟨p, hp⟩
  exact mem_operators (e := .primary p) (Nat.le_refl _) trivial hp

theorem signed_le (sign : Sign) :
    letter sign.kind * operators f Sign.power ≤ operators f Sign.power := by
  rintro _ ⟨_, hl, ks, ⟨e, he, hw⟩, rfl⟩
  obtain rfl := eq_of_mem_letter hl
  rw [← Item.words_deeper] at hw
  exact mem_operators (e := .signed sign (.ofKind sign.kind) e default) (Nat.le_refl _) he
    (Item.kept_mem_words (List.mem_singleton_self _) hw)

theorem aggregates_le :
    letter .aggregateFunction * arguments (phrases f .fieldArgument) ≤ operators f Sign.power := by
  rintro _ ⟨_, hl, ks, hks, rfl⟩
  obtain rfl := eq_of_mem_letter hl
  obtain ⟨name, hk, hname⟩ := exists_identifier f (k := .aggregateFunction) rfl
  obtain ⟨as, hw⟩ := exists_call_phrases hname hks
  exact mem_operators (e := .aggregate name as default) (Nat.le_refl _) hk hw

theorem scalars_le :
    letter .scalarFunction * arguments (phrases f .scalarArgument) ≤ operators f Sign.power := by
  rintro _ ⟨_, hl, ks, hks, rfl⟩
  obtain rfl := eq_of_mem_letter hl
  obtain ⟨name, hk, hname⟩ := exists_identifier f (k := .scalarFunction) rfl
  obtain ⟨as, hw⟩ := exists_call_phrases hname hks
  exact mem_operators (e := .scalar name as default) (Nat.le_refl _) hk hw

/-- The tree becomes the left operand of an operator that binds no more tightly. -/
theorem mem_operators_binary {op : ArithmeticOp} {e right : OperatorExpr} {power : Nat}
    (h : ks ∈ Item.words f [.same (.operator e)]) (he : op.leftPower ≤ e.power)
    (h' : ks' ∈ Item.words f [.same (.operator right)]) (hright : op.rightPower ≤ right.power)
    (hop : power ≤ op.leftPower) : ks ++ op.kind :: ks' ∈ operators f power := by
  rw [← Item.words_deeper] at h'
  exact mem_operators (e := .binary op (.ofKind op.kind) e right) hop ⟨he, hright⟩
    (Item.append_mem_words h (Item.kept_mem_words (List.mem_singleton_self _) h'))

/-- An operator and its right operand join a tree. Where the operator binds more tightly than the
tree, they join the right operand of the tree. -/
theorem join_mem_operators {op : ArithmeticOp} {right : OperatorExpr}
    (hright : op.rightPower ≤ right.power) (hks' : ks' ∈ Item.words f [.same (.operator right)]) :
    ∀ (e : OperatorExpr) {power : Nat} {ks : List Kind}, power ≤ e.power → power ≤ op.leftPower →
      ks ∈ Item.words f [.same (.operator e)] → ks ++ op.kind :: ks' ∈ operators f power
  | .binary op' operator left e, power, ks, hpower, hop, hks => by
    by_cases hle : op.leftPower ≤ op'.leftPower
    · exact mem_operators_binary hks hle hks' hright hop
    · obtain ⟨n, ps, rfl, hy⟩ := hks
      obtain ⟨⟨hl, hr⟩, hitems, -⟩ := Yields.same_iff.1 hy
      obtain ⟨qs, _, rfl, hly, hrest⟩ := Yields.cons_iff.1 hitems
      obtain ⟨x, rs, rfl, hx, hry⟩ := Yields.terminal_iff.1 hrest
      have hxk : x.1.kind = op'.kind := List.mem_singleton.1 hx.1
      have hew : kindsOf rs ∈ Item.words f [.same (.operator e)] := by
        rw [← Item.words_deeper]
        exact ⟨n, rs, rfl, hry⟩
      have hop' : op'.rightPower ≤ op.leftPower := Nat.lt_of_not_le hle
      obtain ⟨e', he', hw⟩ := join_mem_operators hright hks' e hr hop' hew
      have hlw : kindsOf qs ∈ Item.words f [.same (.operator left)] := ⟨n, qs, rfl, hly⟩
      rw [kindsOf_append, kindsOf_cons, hxk, List.append_assoc]
      exact mem_operators_binary hlw hl hw he' hpower
  | .primary _, _, _, _, hop, hks | .aggregate _ _ _, _, _, _, hop, hks
  | .scalar _ _ _, _, _, _, hop, hks | .signed _ _ _ _, _, _, _, hop, hks =>
    mem_operators_binary hks op.leftPower_le hks' hright hop

theorem operators_mul_le {op : ArithmeticOp} {power : Nat} (h : power ≤ op.leftPower) :
    operators f power * (letter op.kind * operators f op.rightPower) ≤ operators f power := by
  rintro _ ⟨ks, ⟨e, he, hw⟩, _, ⟨_, hl, ks', ⟨right, hright, hw'⟩, rfl⟩, rfl⟩
  obtain rfl := eq_of_mem_letter hl
  exact join_mem_operators hright hw' e he h hw

/-! ## Values -/

theorem operators_le_values : operators f 0 ≤ phrases f .value := by
  rintro ks ⟨e, -, hw⟩
  rw [← Item.words_deeper] at hw
  exact mem_phrases (a := .operator e) trivial hw

theorem comparisons_le :
    operators f 0 * (letter .comparison * operators f 0) ≤ phrases f .value := by
  rintro _ ⟨ks, ⟨left, -, hl⟩, _, ⟨_, hop, ks', ⟨right, -, hr⟩, rfl⟩, rfl⟩
  obtain rfl := eq_of_mem_letter hop
  rw [← Item.words_deeper] at hl hr
  have hm : (Terminal.comparison .eq (.ofKind .comparison)).Matches id (.ofKind .comparison) :=
    ⟨rfl, by decide, rfl⟩
  exact mem_phrases (a := .comparison left .eq (.ofKind .comparison) right) trivial
    (Item.cons_mem_words hl (Item.terminal_mem_words hm hr))

/-! ## Conditions -/

theorem conditions_le (f : Bool) {power power' : Nat} (h : power ≤ power') :
    conditions f power' ≤ conditions f power := by
  rintro ks ⟨e, he, hw⟩
  exact ⟨e, Nat.le_trans h he, hw⟩

theorem mem_conditions {e : BooleanExpr} {power : Nat} (hpower : power ≤ e.power)
    (hadm : e.Admissible f) (h : ks ∈ Item.words f e.items) : ks ∈ conditions f power :=
  ⟨e, hpower, Item.same_mem_words (p := .boolean e) hadm h⟩

theorem values_le : phrases f .value ≤ conditions f Connective.notPower := by
  rintro ks ⟨v, hv⟩
  exact mem_conditions (e := .value v) (Nat.le_refl _) trivial hv

theorem negations_le :
    letter .kwNot * conditions f Connective.notPower ≤ conditions f Connective.notPower := by
  rintro _ ⟨_, hl, ks, ⟨e, he, hw⟩, rfl⟩
  obtain rfl := eq_of_mem_letter hl
  rw [← Item.words_deeper] at hw
  exact mem_conditions (e := .not (.ofKind .kwNot) e default) (Nat.le_refl _) he
    (Item.kept_mem_words (List.mem_singleton_self _) hw)

/-- What stands in the parentheses of a predicate. -/
def predicateArguments (f : Bool) : Language Kind :=
  phrases f .qualifiedName * (behind .comma (phrases f .fieldArgument))∗

theorem predicates_le :
    letter .predicateFunction * parenthesised (predicateArguments true)
      ≤ conditions true Connective.notPower := by
  rintro _ ⟨_, hl, ks, hks, rfl⟩
  obtain rfl := eq_of_mem_letter hl
  obtain ⟨_, ⟨ks, ⟨field, hfield⟩, ks', hargs, rfl⟩, rfl⟩ := eq_of_mem_parenthesised hks
  obtain ⟨name, hk, hname⟩ := exists_identifier true (k := .predicateFunction) rfl
  -- the field and the arguments behind it are a list whose first element is the field
  let calls : Language Kind := {ks | ∃ args : List FieldArgument, ks ∈ Item.words true
    (Item.separated .comma
      (.same (.qualifiedName field) :: args.map fun a => .same (.fieldArgument a)))}
  have hmore : calls * behind .comma (phrases true .fieldArgument) ≤ calls := by
    rintro _ ⟨ks, ⟨args, hw⟩, ks', h', rfl⟩
    obtain rfl | ⟨ks', ⟨a, ha⟩, rfl⟩ := mem_behind h'
    · exact ⟨args, by simpa using hw⟩
    · refine ⟨args ++ [a], ?_⟩
      have hsep : Item.separated .comma (.same (.qualifiedName field)
            :: (args ++ [a]).map fun a => .same (.fieldArgument a))
          = Item.separated .comma (.same (.qualifiedName field)
            :: args.map fun a => .same (.fieldArgument a))
              ++ [.kind .comma, .same (.fieldArgument a)] := by
        simp [Item.separated]
      rw [hsep]
      exact Item.append_mem_words hw (Item.kind_mem_words ha)
  obtain ⟨args, hw⟩ : ks ++ ks' ∈ calls :=
    mul_kstar_le_self hmore (Language.append_mem_mul ⟨[], hfield⟩ hargs)
  have hcall : .predicateFunction :: .leftParen :: ((ks ++ ks') ++ [.rightParen])
      ∈ phrases true .predicateCall :=
    mem_phrases (a := ⟨name, field, args, default⟩) hk (Item.cons_mem_words hname
      (Item.kind_mem_words (Item.append_mem_words hw (Item.kind_mem_words Item.nil_mem_words))))
  obtain ⟨call, hcall⟩ := hcall
  exact mem_conditions (e := .predicate call) (Nat.le_refl _) rfl hcall

/-- The word that turns a test round, or nothing. -/
def negation : Language Kind := 1 + letter .kwNot

theorem exists_negation (h : ks ∈ negation) :
    ∃ token : Option Token, ks ∈ Item.words f (Item.negation token) := by
  obtain rfl | h := h
  · exact ⟨none, Item.nil_mem_words⟩
  · obtain rfl := eq_of_mem_letter h
    exact ⟨some (.ofKind .kwNot), Item.kept_mem_words (List.mem_singleton_self _) Item.nil_mem_words⟩

/-- A test by membership in a list. -/
def membershipTests : Language Kind :=
  letter .kwIn * parenthesised (separated .comma (phrases true .value))

theorem membershipTests_le :
    phrases true .value * (negation * membershipTests) ≤ conditions true Connective.notPower := by
  rintro _ ⟨ks, ⟨v, hv⟩, _, ⟨ks', hneg, _, ⟨_, hl, ks'', hlist, rfl⟩, rfl⟩, rfl⟩
  obtain rfl := eq_of_mem_letter hl
  obtain ⟨token, hneg⟩ := exists_negation (f := true) hneg
  obtain ⟨ks'', hks, rfl⟩ := eq_of_mem_parenthesised hlist
  obtain ⟨items, hne, hitems⟩ := exists_phrases hks
  exact mem_conditions (e := .isIn v token items default) (Nat.le_refl _) ⟨rfl, hne⟩
    (Item.cons_mem_words hv (Item.append_mem_words hneg (Item.kind_mem_words (Item.kind_mem_words
      (Item.append_mem_words hitems (Item.kind_mem_words Item.nil_mem_words))))))

/-- A test by a pattern. -/
def patternTests (pattern : PatternKind) : Language Kind := letter pattern.kind * phrases true .string

theorem patternTests_le (pattern : PatternKind) :
    phrases true .value * (negation * patternTests pattern) ≤ conditions true Connective.notPower := by
  rintro _ ⟨ks, ⟨v, hv⟩, _, ⟨ks', hneg, _, ⟨_, hl, ks'', ⟨l, hl'⟩, rfl⟩, rfl⟩, rfl⟩
  obtain rfl := eq_of_mem_letter hl
  obtain ⟨token, hneg⟩ := exists_negation (f := true) hneg
  exact mem_conditions (e := .isMatch v token pattern l default) (Nat.le_refl _) rfl
    (Item.cons_mem_words hv (Item.append_mem_words hneg (Item.kind_mem_words hl')))

/-- The tree becomes the left operand of a connective that binds no more tightly. -/
theorem mem_conditions_connective {op : Connective} {e right : BooleanExpr} {power : Nat}
    (h : ks ∈ Item.words f [.same (.boolean e)]) (he : op.leftPower ≤ e.power)
    (h' : ks' ∈ Item.words f [.same (.boolean right)]) (hright : op.rightPower ≤ right.power)
    (hop : power ≤ op.leftPower) : ks ++ op.kind :: ks' ∈ conditions f power := by
  rw [← Item.words_deeper] at h'
  exact mem_conditions (e := .connective op e (.ofKind op.kind) right) hop ⟨he, hright⟩
    (Item.append_mem_words h (Item.kept_mem_words (List.mem_singleton_self _) h'))

/-- A connective and its right operand join a tree. Where the connective binds more tightly than the
tree, they join the right operand of the tree. -/
theorem join_mem_conditions {op : Connective} {right : BooleanExpr}
    (hright : op.rightPower ≤ right.power) (hks' : ks' ∈ Item.words f [.same (.boolean right)]) :
    ∀ (e : BooleanExpr) {power : Nat} {ks : List Kind}, power ≤ e.power → power ≤ op.leftPower →
      ks ∈ Item.words f [.same (.boolean e)] → ks ++ op.kind :: ks' ∈ conditions f power
  | .connective op' left operator e, power, ks, hpower, hop, hks => by
    by_cases hle : op.leftPower ≤ op'.leftPower
    · exact mem_conditions_connective hks hle hks' hright hop
    · obtain ⟨n, ps, rfl, hy⟩ := hks
      obtain ⟨⟨hl, hr⟩, hitems, -⟩ := Yields.same_iff.1 hy
      obtain ⟨qs, _, rfl, hly, hrest⟩ := Yields.cons_iff.1 hitems
      obtain ⟨x, rs, rfl, hx, hry⟩ := Yields.terminal_iff.1 hrest
      have hxk : x.1.kind = op'.kind := List.mem_singleton.1 hx.1
      have hew : kindsOf rs ∈ Item.words f [.same (.boolean e)] := by
        rw [← Item.words_deeper]
        exact ⟨n, rs, rfl, hry⟩
      have hop' : op'.rightPower ≤ op.leftPower := Nat.lt_of_not_le hle
      obtain ⟨e', he', hw⟩ := join_mem_conditions hright hks' e hr hop' hew
      have hlw : kindsOf qs ∈ Item.words f [.same (.boolean left)] := ⟨n, qs, rfl, hly⟩
      rw [kindsOf_append, kindsOf_cons, hxk, List.append_assoc]
      exact mem_conditions_connective hlw hl hw he' hpower
  | .not _ _ _, _, _, _, hop, hks | .value _, _, _, _, hop, hks
  | .isIn _ _ _ _, _, _, _, hop, hks | .isMatch _ _ _ _ _, _, _, _, hop, hks
  | .predicate _, _, _, _, hop, hks =>
    mem_conditions_connective hks op.leftPower_le hks' hright hop

theorem conditions_mul_le {op : Connective} {power : Nat} (h : power ≤ op.leftPower) :
    conditions f power * (letter op.kind * conditions f op.rightPower) ≤ conditions f power := by
  rintro _ ⟨ks, ⟨e, he, hw⟩, _, ⟨_, hl, ks', ⟨right, hright, hw'⟩, rfl⟩, rfl⟩
  obtain rfl := eq_of_mem_letter hl
  exact join_mem_conditions hright hw' e he h hw

/-! ## Leaves of arithmetic -/

theorem groups_le : parenthesised (conditions f 0) ≤ phrases f .primary := by
  intro ks h
  obtain ⟨ks, ⟨e, -, hw⟩, rfl⟩ := eq_of_mem_parenthesised h
  rw [← Item.words_deeper] at hw
  exact mem_phrases (a := .group e default) trivial
    (Item.kind_mem_words (Item.append_mem_words hw (Item.kind_mem_words Item.nil_mem_words)))

theorem calls_le : plainNames.letters * arguments (conditions f 0) ≤ phrases f .primary := by
  rintro _ ⟨_, ⟨k, hk, rfl⟩, ks, hks, rfl⟩
  obtain ⟨name, hname, hw⟩ := exists_plain (f := f) (KindSet.singleton_mem_letters hk)
  have hL : ∀ ks ∈ conditions f 0, ∃ e, True ∧ ks ∈ Item.words f [.deeper (.boolean e)] := by
    rintro ks ⟨e, -, he⟩
    rw [← Item.words_deeper] at he
    exact ⟨e, trivial, he⟩
  obtain ⟨args, hcall⟩ := exists_call hw hL hks
  exact mem_phrases (a := .call name args default) hname hcall

/-! ## How expressions begin -/

/-- There is a condition that stands anywhere. -/
theorem mem_conditions_null (f : Bool) {power : Nat} (h : power ≤ Connective.notPower) :
    [.kwNull] ∈ conditions f power :=
  conditions_le f h (values_le (operators_le_values (operators_le f (Nat.zero_le _)
    (primaries_le (constants_le_primaries (null_le (mem_letter _)))))))

theorem mem_operators_null (f : Bool) {power : Nat} (h : power ≤ Sign.power) :
    [.kwNull] ∈ operators f power :=
  operators_le f h (primaries_le (constants_le_primaries (null_le (mem_letter _))))

theorem starts_primaries : Starts primaryStart (phrases f .primary) := by
  refine .union (.union ?_ ?_) ?_
  · exact starts_constants.mono constants_le_primaries
  · exact starts_names.mono names_le_primaries
  · intro k hk
    obtain rfl := KindSet.mem_singleton.1 hk
    exact ⟨_, groups_le (mem_parenthesised (mem_conditions_null f (Nat.zero_le _)))⟩

theorem starts_operators : Starts operatorStart (operators f Sign.power) := by
  refine .union (starts_primaries.mono primaries_le) ?_
  intro k hk
  have hk : k = .plus ∨ k = .minus ∨ k = .aggregateFunction ∨ k = .scalarFunction := by
    simpa using hk
  have hsigned (sign : Sign) : ∃ w, sign.kind :: w ∈ operators f Sign.power :=
    ⟨_, signed_le sign (Language.append_mem_mul (mem_letter _)
      (mem_operators_null f (Nat.le_refl _)))⟩
  obtain rfl | rfl | rfl | rfl := hk
  · exact hsigned .plus
  · exact hsigned .minus
  · exact ⟨_, aggregates_le (Language.append_mem_mul (mem_letter _) mem_arguments_nil)⟩
  · exact ⟨_, scalars_le (Language.append_mem_mul (mem_letter _) mem_arguments_nil)⟩

theorem starts_conditions : Starts booleanStart (conditions f Connective.notPower) := by
  refine .union ((starts_operators (f := f)).mono ?_) ?_
  · exact le_trans (operators_le f (Nat.zero_le _)) (le_trans operators_le_values values_le)
  · intro k hk
    obtain rfl := KindSet.mem_singleton.1 hk
    exact ⟨_, negations_le (Language.append_mem_mul (mem_letter _)
      (mem_conditions_null f (Nat.le_refl _)))⟩

theorem starts_filters : Starts filterStart (conditions true Connective.notPower) := by
  refine .union starts_conditions ?_
  intro k hk
  obtain rfl := KindSet.mem_singleton.1 hk
  obtain ⟨w, hw⟩ := starts_names (f := true) .identifier (by decide)
  exact ⟨_, predicates_le (Language.append_mem_mul (mem_letter _) (mem_parenthesised
    (Language.append_mem_mul hw (Language.nil_mem_kstar _))))⟩

theorem starts_booleans (scope : Scope) :
    Starts scope.booleanStart (conditions scope.predicates Connective.notPower) := by
  unfold Scope.booleanStart
  cases scope.predicates with
  | false => exact starts_conditions
  | true => exact starts_filters

/-! ## Clauses -/

theorem fields_le : assigned plainNames * conditions f 0 ≤ phrases f .field := by
  rintro _ ⟨ks, hks, ks', ⟨e, -, hw⟩, rfl⟩
  obtain ⟨name, hname, hw'⟩ := exists_assigned (f := f) names_plainNames hks
  rw [← Item.words_deeper] at hw
  exact mem_phrases (a := ⟨name, e, default⟩) (fun i hi => KindSet.mem_ofList.1 (hname i hi))
    (Item.append_mem_words hw' hw)

theorem renameClauses_le :
    plainNames.letters * (letter .assign * phrases f .qualifiedName) ≤ phrases f .renameClause := by
  rintro _ ⟨ks, hks, _, ⟨_, hl, ks', ⟨old, hold⟩, rfl⟩, rfl⟩
  obtain rfl := eq_of_mem_letter hl
  obtain ⟨name, hplain, hw⟩ := exists_plain (f := f) hks
  exact mem_phrases (a := ⟨name, old, default⟩) hplain
    (Item.cons_mem_words hw (Item.kind_mem_words hold))

theorem commandOptions_le :
    plainNames.letters * (letter .assign * phrases f .constant) ≤ phrases f .commandOption := by
  rintro _ ⟨ks, hks, _, ⟨_, hl, ks', ⟨value, hvalue⟩, rfl⟩, rfl⟩
  obtain rfl := eq_of_mem_letter hl
  obtain ⟨name, hplain, hw⟩ := exists_plain (f := f) hks
  exact mem_phrases (a := ⟨name, value, default⟩) hplain
    (Item.cons_mem_words hw (Item.kind_mem_words hvalue))

/-- The words behind the expression of a sort key. -/
def sortOrders : Language Kind := (1 + letter .ordering) * behind .kwNulls (letter .nullsDirection)

theorem sortKeys_le : conditions f 0 * sortOrders ≤ phrases f .sortKey := by
  rintro _ ⟨ks, ⟨e, -, hw⟩, _, ⟨ks', horder, ks'', hnulls, rfl⟩, rfl⟩
  rw [← Item.words_deeper] at hw
  obtain ⟨order, horder⟩ : ∃ order : Option SortOrder,
      ks' ∈ Item.words f (order.elim [] fun order => [.terminal (.order order)]) := by
    obtain rfl | horder := horder
    · exact ⟨none, Item.nil_mem_words⟩
    · obtain rfl := eq_of_mem_letter horder
      exact ⟨some (.ofText "=="),
        Item.terminal_mem_words (x := .ofKind .ordering) ⟨rfl, rfl⟩ Item.nil_mem_words⟩
  obtain ⟨nulls, hnulls⟩ : ∃ nulls : Option NullsOrder, ks'' ∈ Item.words f
      (nulls.elim [] fun nulls => [.kind .kwNulls, .terminal (.nulls nulls)]) := by
    obtain rfl | ⟨_, hl, rfl⟩ := mem_behind hnulls
    · exact ⟨none, Item.nil_mem_words⟩
    · obtain rfl := eq_of_mem_letter hl
      let first : Token := ⟨.nullsDirection, "first", 0, 0, 0, 0⟩
      have hm : (Terminal.nulls .first).Matches id first := ⟨rfl, by decide +kernel⟩
      exact ⟨some .first, Item.kind_mem_words (Item.terminal_mem_words hm Item.nil_mem_words)⟩
  exact mem_phrases (a := ⟨e, order, nulls, default⟩) trivial
    (Item.cons_mem_words hw (Item.append_mem_words horder hnulls))

theorem enrichClauses_le :
    assigned enrichNames * enrichNames.letters ≤ phrases f .enrichClause := by
  rintro _ ⟨ks, hks, ks', hks', rfl⟩
  obtain ⟨name, hname, hw⟩ := exists_assigned (f := f) names_enrichNames hks
  obtain ⟨i, hi, hw'⟩ := exists_identifier_of_mem (f := f) names_enrichNames hks'
  exact mem_phrases (a := ⟨name, i, default⟩)
    ⟨fun i hi => KindSet.mem_ofList.1 (hname i hi), KindSet.mem_ofList.1 hi⟩
    (Item.append_mem_words hw hw')

/-! ## Processing commands -/

/-- What may stand behind the keyword of a processing command. -/
def clauses (f : Bool) (kind : Kind) : Language Kind :=
  {ks | kind :: ks ∈ phrases f .processingCommand}

theorem letter_mul_clauses_le : letter k * clauses f k ≤ phrases f .processingCommand := by
  rintro _ ⟨_, hl, ks, hks, rfl⟩
  obtain rfl := eq_of_mem_letter hl
  exact hks

theorem mem_clauses (clause : ProcessingClause) {kinds : List Kind} {items : List Item}
    (hadm : clause.Admissible) (hk : k ∈ kinds)
    (hitems : ∀ keyword, clause.items keyword = .terminal (.kept kinds keyword) :: items)
    (h : ks ∈ Item.words f items) : ks ∈ clauses f k := by
  refine mem_phrases (a := .command (.ofKind k) clause default) hadm ?_
  change _ ∈ Item.words f (clause.items (.ofKind k))
  rw [hitems]
  exact Item.kept_mem_words hk h

theorem evals_le : separated .comma (phrases f .field) ≤ clauses f .kwEval := by
  intro ks h
  obtain ⟨fs, hne, hw⟩ := exists_phrases h
  exact mem_clauses (.eval fs) hne (List.mem_singleton_self _) (fun _ => rfl) hw

theorem limits_le : letter .integer ≤ clauses f .kwLimit := by
  intro ks h
  obtain rfl := eq_of_mem_letter h
  obtain ⟨n, hn, hw⟩ := exists_number (f := f) .integer
  exact mem_clauses (.limit n) hn (List.mem_singleton_self _) (fun _ => rfl) hw

/-- Lists of names behind the keyword of a command. -/
theorem names_le_clauses {clause : List QualifiedName → ProcessingClause} {kinds : List Kind}
    (hk : k ∈ kinds) (hadm : ∀ names, names ≠ [] → (clause names).Admissible)
    (hitems : ∀ names keyword, (clause names).items keyword
      = .terminal (.kept kinds keyword) :: Item.list .qualifiedName names) :
    separated .comma (phrases f .qualifiedName) ≤ clauses f k := by
  intro ks h
  obtain ⟨names, hne, hw⟩ := exists_phrases h
  exact mem_clauses _ (hadm names hne) hk (hitems names) hw

theorem renames_le : separated .comma (phrases f .renameClause) ≤ clauses f .kwRename := by
  intro ks h
  obtain ⟨as, hne, hw⟩ := exists_phrases h
  exact mem_clauses (.rename as) hne (List.mem_singleton_self _) (fun _ => rfl) hw

theorem dissects_le : separated .comma (phrases f .qualifiedName) *
    (phrases f .string * (1 + separated .comma (phrases f .commandOption)))
      ≤ clauses f .kwDissect := by
  rintro _ ⟨ks, hnames, _, ⟨ks', ⟨pattern, hpattern⟩, ks'', hoptions, rfl⟩, rfl⟩
  obtain ⟨names, hne, hw⟩ := exists_phrases hnames
  obtain ⟨options, hone, hw'⟩ : ∃ options : Option (List CommandOption), options ≠ some [] ∧
      ks'' ∈ Item.words f (options.elim [] (Item.list .commandOption)) := by
    obtain rfl | hoptions := hoptions
    · exact ⟨none, by simp, Item.nil_mem_words⟩
    · obtain ⟨options, hone, hw'⟩ := exists_phrases hoptions
      exact ⟨some options, by simpa using hone, hw'⟩
  exact mem_clauses (.dissect names pattern options) ⟨hne, hone⟩
    (List.mem_singleton_self _) (fun _ => rfl)
    (Item.append_mem_words hw (Item.cons_mem_words hpattern hw'))

theorem groks_le : separated .comma (phrases f .qualifiedName) * phrases f .string
    ≤ clauses f .kwGrok := by
  rintro _ ⟨ks, hnames, ks', ⟨pattern, hpattern⟩, rfl⟩
  obtain ⟨names, hne, hw⟩ := exists_phrases hnames
  exact mem_clauses (.grok names pattern) hne (List.mem_singleton_self _) (fun _ => rfl)
    (Item.append_mem_words hw hpattern)

theorem sorts_le : separated .comma (phrases f .sortKey) ≤ clauses f .kwSort := by
  intro ks h
  obtain ⟨as, hne, hw⟩ := exists_phrases h
  exact mem_clauses (.sort as) hne (List.mem_singleton_self _) (fun _ => rfl) hw

theorem stats_le : (1 + separated .comma (phrases f .field)) *
    behind .kwBy (separated .comma (phrases f .qualifiedName)) ≤ clauses f .kwStats := by
  rintro _ ⟨ks, hfields, ks', hgrouping, rfl⟩
  obtain ⟨fields, hne, hw⟩ : ∃ fields : Option (List Field), fields ≠ some [] ∧
      ks ∈ Item.words f (fields.elim [] (Item.list .field)) := by
    obtain rfl | hfields := hfields
    · exact ⟨none, by simp, Item.nil_mem_words⟩
    · obtain ⟨fields, hne, hw⟩ := exists_phrases hfields
      exact ⟨some fields, by simpa using hne, hw⟩
  obtain ⟨grouping, hne', hw'⟩ : ∃ grouping : Option (List QualifiedName), grouping ≠ some [] ∧
      ks' ∈ Item.words f
        (grouping.elim [] fun names => .kind .kwBy :: Item.list .qualifiedName names) := by
    obtain rfl | ⟨ks', hks, rfl⟩ := mem_behind hgrouping
    · exact ⟨none, by simp, Item.nil_mem_words⟩
    · obtain ⟨names, hne, hw⟩ := exists_phrases hks
      exact ⟨some names, by simpa using hne, Item.kind_mem_words hw⟩
  exact mem_clauses (.stats fields grouping) ⟨hne, hne'⟩ (List.mem_singleton_self _)
    (fun _ => rfl) (Item.append_mem_words hw hw')

theorem filters_le : conditions true 0 ≤ clauses f .kwWhere := by
  rintro ks ⟨e, -, hw⟩
  rw [← Item.words_filter (f := f)] at hw
  exact mem_clauses (.filter e) trivial (List.mem_singleton_self _) (fun _ => rfl) hw

theorem enriches_le : enrichNames.letters * (behind .kwOn enrichNames.letters *
    behind .kwWith (separated .comma (phrases f .enrichClause))) ≤ clauses f .kwEnrich := by
  rintro _ ⟨ks, hpolicy, _, ⟨ks', hfield, ks'', hclauses, rfl⟩, rfl⟩
  have hname {ks : List Kind} (h : ks ∈ enrichNames.letters) :
      ∃ i : Identifier, i.IsEnrich ∧ ks ∈ Item.words f [.same (.identifier i)] := by
    obtain ⟨i, hi, hw⟩ := exists_identifier_of_mem (f := f) names_enrichNames h
    exact ⟨i, KindSet.mem_ofList.1 hi, hw⟩
  obtain ⟨policy, hp, hw⟩ := hname hpolicy
  obtain ⟨field, hf, hw'⟩ : ∃ field : Option Identifier, (∀ i ∈ field, i.IsEnrich) ∧
      ks' ∈ Item.words f (field.elim [] fun i => [.kind .kwOn, .same (.identifier i)]) := by
    obtain rfl | ⟨ks', hks, rfl⟩ := mem_behind hfield
    · exact ⟨none, by simp, Item.nil_mem_words⟩
    · obtain ⟨i, hi, hw⟩ := hname hks
      exact ⟨some i, by simpa using hi, Item.kind_mem_words hw⟩
  obtain ⟨clauses, hne, hw''⟩ : ∃ clauses : Option (List EnrichClause), clauses ≠ some [] ∧
      ks'' ∈ Item.words f
        (clauses.elim [] fun clauses => .kind .kwWith :: Item.list .enrichClause clauses) := by
    obtain rfl | ⟨ks'', hks, rfl⟩ := mem_behind hclauses
    · exact ⟨none, by simp, Item.nil_mem_words⟩
    · obtain ⟨clauses, hne, hw⟩ := exists_phrases hks
      exact ⟨some clauses, by simpa using hne, Item.kind_mem_words hw⟩
  exact mem_clauses (.enrich policy field clauses) ⟨hp, hf, hne⟩
    (List.mem_singleton_self _) (fun _ => rfl)
    (Item.cons_mem_words hw (Item.append_mem_words hw' hw''))

theorem starts_processingCommands : Starts processingKeywords (phrases f .processingCommand) := by
  have hname : [.identifier] ∈ phrases f .qualifiedName :=
    names_le (mem_separated (KindSet.singleton_mem_letters (by decide)))
  have hnames (clause : List QualifiedName → ProcessingClause) (kinds : List Kind) {k : Kind}
      (hk : k ∈ kinds) (hadm : ∀ names, names ≠ [] → (clause names).Admissible)
      (hitems : ∀ names keyword, (clause names).items keyword
        = .terminal (.kept kinds keyword) :: Item.list .qualifiedName names) :
      [.identifier] ∈ clauses f k := names_le_clauses hk hadm hitems (mem_separated hname)
  have hstring : [.string] ∈ phrases f .string := strings_le (mem_letter _)
  have hnull := mem_conditions_null f (Nat.zero_le 0 |>.trans (Nat.zero_le _))
  have henrich : [.enrichIdentifier] ∈ enrichNames.letters :=
    KindSet.singleton_mem_letters (by decide)
  intro k hk
  simp only [processingKeywords, KindSet.mem_ofList, List.mem_cons, List.not_mem_nil, or_false] at hk
  obtain rfl | rfl | rfl | rfl | rfl | rfl | rfl | rfl | rfl | rfl | rfl | rfl | rfl := hk
  · exact ⟨_, evals_le (mem_separated (fields_le (Language.append_mem_mul nil_mem_assigned hnull)))⟩
  · exact ⟨_, limits_le (mem_letter _)⟩
  · exact ⟨_, hnames .keep [.kwKeep, .kwProject] (by decide) (fun _ h => h)
      fun _ _ => rfl⟩
  · exact ⟨_, hnames .keep [.kwKeep, .kwProject] (by decide) (fun _ h => h)
      fun _ _ => rfl⟩
  · exact ⟨_, renames_le (mem_separated (renameClauses_le (Language.append_mem_mul
      (KindSet.singleton_mem_letters (k := .identifier) (by decide))
      (Language.append_mem_mul (mem_letter _) hname))))⟩
  · exact ⟨_, hnames .drop [.kwDrop] (List.mem_singleton_self _) (fun _ h => h) fun _ _ => rfl⟩
  · exact ⟨_, dissects_le (Language.append_mem_mul (mem_separated hname)
      (Language.append_mem_mul hstring (.inl rfl)))⟩
  · exact ⟨_, groks_le (Language.append_mem_mul (mem_separated hname) hstring)⟩
  · exact ⟨_, sorts_le (mem_separated (sortKeys_le (Language.append_mem_mul hnull
      (Language.append_mem_mul (.inl rfl) nil_mem_behind))))⟩
  · exact ⟨_, stats_le (Language.append_mem_mul (.inl rfl) nil_mem_behind)⟩
  · exact ⟨_, filters_le (mem_conditions_null true (Nat.zero_le _))⟩
  · exact ⟨_, hnames .mvExpand [.kwMvExpand] (List.mem_singleton_self _) (fun _ h => h)
      fun _ _ => rfl⟩
  · exact ⟨_, enriches_le (Language.append_mem_mul henrich
      (Language.append_mem_mul nil_mem_behind nil_mem_behind))⟩

/-! ## Queries -/

theorem mem_sourceCommands (clause : SourceClause) {items : List Item} (hadm : clause.Admissible)
    (hitems : ∀ keyword, clause.items keyword = .kept k keyword :: items)
    (h : ks ∈ Item.words f items) : k :: ks ∈ phrases f .sourceCommand := by
  refine mem_phrases (a := .command (.ofKind k) clause default) hadm ?_
  change _ ∈ Item.words f (clause.items (.ofKind k))
  rw [hitems]
  exact Item.kept_mem_words (List.mem_singleton_self _) h

/-- A query in brackets. -/
def subqueries (f : Bool) : Language Kind :=
  letter .leftBracket * (phrases f .query * letter .rightBracket)

theorem explains_le : letter .kwExplain * subqueries f ≤ phrases f .sourceCommand := by
  rintro _ ⟨_, hl, _, ⟨_, hb, _, ⟨ks, ⟨q, hq⟩, _, hb', rfl⟩, rfl⟩, rfl⟩
  obtain rfl := eq_of_mem_letter hl
  obtain rfl := eq_of_mem_letter hb
  obtain rfl := eq_of_mem_letter hb'
  rw [← Item.words_deeper] at hq
  exact mem_sourceCommands (.explain q) trivial (fun _ => rfl)
    (Item.kind_mem_words (Item.append_mem_words hq (Item.kind_mem_words Item.nil_mem_words)))

theorem indices_le :
    letter .kwFrom * separated .comma sourceNames.letters ≤ phrases f .sourceCommand := by
  rintro _ ⟨_, hl, ks, hks, rfl⟩
  obtain rfl := eq_of_mem_letter hl
  have hL : ∀ ks ∈ sourceNames.letters,
      ∃ i : Identifier, i.IsSource ∧ ks ∈ Item.words f [.same (.identifier i)] := by
    intro ks hks
    obtain ⟨i, hi, hw⟩ := exists_identifier_of_mem (f := f) names_sourceNames hks
    exact ⟨i, KindSet.mem_ofList.1 hi, hw⟩
  obtain ⟨names, hne, hsource, hw⟩ := exists_list hL hks
  exact mem_sourceCommands (.indices names) ⟨hne, hsource⟩ (fun _ => rfl) hw

theorem rows_le : letter .kwRow * separated .comma (phrases f .field) ≤ phrases f .sourceCommand := by
  rintro _ ⟨_, hl, ks, hks, rfl⟩
  obtain rfl := eq_of_mem_letter hl
  obtain ⟨fields, hne, hw⟩ := exists_phrases hks
  exact mem_sourceCommands (.row fields) hne (fun _ => rfl) hw

theorem listings_le (target : ShowTarget) :
    letter .kwShow * letter target.kind ≤ phrases f .sourceCommand := by
  rintro _ ⟨_, hl, _, ht, rfl⟩
  obtain rfl := eq_of_mem_letter hl
  obtain rfl := eq_of_mem_letter ht
  exact mem_sourceCommands (.listing target) trivial (fun _ => rfl)
    (Item.kind_mem_words Item.nil_mem_words)

theorem sourceCommands_le : phrases f .sourceCommand ≤ phrases f .query :=
  phrases_le .source (fun _ => trivial) fun _ => rfl

/-- The stages of a pipeline behind the first one. -/
def stages (f : Bool) : Language Kind := (letter .pipe * phrases f .processingCommand)∗

theorem pipelines_le : phrases f .sourceCommand * stages f ≤ phrases f .query := by
  refine mul_kstar_le sourceCommands_le ?_
  rintro _ ⟨ks, ⟨q, hq⟩, _, ⟨_, hl, ks', ⟨command, hcommand⟩, rfl⟩, rfl⟩
  obtain rfl := eq_of_mem_letter hl
  exact mem_phrases (a := .pipe q (.ofKind .pipe) command) trivial
    (Item.cons_mem_words hq (Item.kept_mem_words (List.mem_singleton_self _) hcommand))

theorem starts_sourceCommands : Starts sourceKeywords (phrases f .sourceCommand) := by
  have hfield : [.kwNull] ∈ phrases f .field :=
    fields_le (Language.append_mem_mul nil_mem_assigned (mem_conditions_null f (Nat.zero_le _)))
  have hrow := rows_le (Language.append_mem_mul (mem_letter _) (mem_separated hfield))
  intro k hk
  have hk : k = .kwExplain ∨ k = .kwFrom ∨ k = .kwRow ∨ k = .kwShow := by
    simpa [sourceKeywords] using hk
  obtain rfl | rfl | rfl | rfl := hk
  · exact ⟨_, explains_le (Language.append_mem_mul (mem_letter _) (Language.append_mem_mul
      (mem_letter _) (Language.append_mem_mul (sourceCommands_le hrow) (mem_letter _))))⟩
  · exact ⟨_, indices_le (Language.append_mem_mul (mem_letter _) (mem_separated
      (KindSet.singleton_mem_letters (k := .sourceIdentifier) (by decide))))⟩
  · exact ⟨_, hrow⟩
  · exact ⟨_, listings_le .info (Language.append_mem_mul (mem_letter _) (mem_letter _))⟩

end Words

end PipeQuery
