import PipeQuery.Proofs.Warrants

/-!
# The rules spell the grammar

Each rule of the grammar spells the words of its phrases. For each of them this is one lemma: the
parts spell their languages, so the rule spells the product or the sum, and by the productions this
is a part of the words of its phrases. Where a rule gives up, each of the kinds that it asks for
begins a word.
-/

open scoped Computability

namespace PipeQuery.Grammar

open Rule State
open Words hiding separated behind parenthesised arguments elements stages

variable {f : Bool} {K : State → Prop}

/-! ## Names -/

theorem keepsTo_identifierOf {kinds : KindSet} (hn : Names kinds) (hne : ∃ k, k ∈ kinds) :
    KeepsTo f K kinds.letters (identifierOf kinds) := by
  have hend : .endOfInput ∉ kinds := fun h => absurd (hn _ h) (by decide)
  exact ((keepsTo_expectAny hend hne).map _).spanned

theorem keepsTo_plainIdentifier : KeepsTo f K plainNames.letters plainIdentifier :=
  keepsTo_identifierOf names_plainNames ⟨.identifier, by decide⟩

theorem keepsTo_enrichIdentifier : KeepsTo f K enrichNames.letters (identifierOf enrichNames) :=
  keepsTo_identifierOf names_enrichNames ⟨.enrichIdentifier, by decide⟩

theorem keepsTo_takeIdentifier {kind : Kind} (hend : kind ≠ .endOfInput)
    (hk : ∀ s, K s → s.kind = kind) : KeepsTo f K (letter kind) takeIdentifier :=
  ((keepsTo_take (by simpa using hend.symm) (by simpa using hk)).map _).spanned

theorem keepsTo_qualifiedName : KeepsTo f K (phrases f .qualifiedName) qualifiedName :=
  (((keepsTo_plainIdentifier.separated (by decide) keepsTo_plainIdentifier).map _).spanned).mono names_le

theorem keepsTo_qualifiedNames :
    KeepsTo f K (Words.separated .comma (phrases f .qualifiedName)) qualifiedNames :=
  keepsTo_qualifiedName.separated (by decide) keepsTo_qualifiedName

/-- Behind an identifier stands what stood behind its token. -/
theorem kind_of_identifierOf {kinds : KindSet} (hn : Names kinds) {s t : State} {ps : List Placed}
    {i : Identifier} (h : (identifierOf kinds).Accepts s ps i t) : t.kind = s.kindAfter := by
  obtain ⟨x, rfl, -, -⟩ := h.of_identifierOf hn
  exact h.reads.kind_eq_kindAfter

theorem keepsTo_assigned? {kinds : KindSet} (hn : Names kinds) (hne : ∃ k, k ∈ kinds) :
    KeepsTo f K (assigned kinds) (assigned? kinds) := by
  refine keepsTo_ask_bind fun named => keepsTo_ask_bind fun followed => ?_
  split
  · next h =>
    have hsign : ∀ i : Identifier, KeepsTo f (fun t => t.kind = .assign) (letter .assign)
        (do let _ ← take; return some i) := fun i =>
      (keepsTo_take (by decide) fun t ht => by simpa using ht).map _
    refine ((keepsTo_identifierOf hn hne).bind_of (Q := fun _ t => t.kind = .assign) ?_ hsign
      ⟨_, mem_letter _⟩).mono le_add_self
    intro s ps i t _ hs hi
    have hafter : s.kindAfter = .assign := by
      have hb : followed = true := (Bool.and_eq_true_iff.1 h).2
      simpa [hb] using hs.2
    exact (kind_of_identifierOf hn hi).trans hafter
  · exact (keepsTo_pure _).mono le_self_add

/-! ## Constants -/

theorem keepsTo_numberOf {kinds : KindSet} (hend : .endOfInput ∉ kinds) (hne : ∃ k, k ∈ kinds) :
    KeepsTo f K kinds.letters (numberOf kinds) := ((keepsTo_expectAny hend hne).map _).spanned

theorem keepsTo_number : KeepsTo f K (phrases f .number) number :=
  (keepsTo_numberOf (by decide) ⟨.integer, by decide⟩).mono numbers_le

theorem keepsTo_integer : KeepsTo f K (letter .integer) integer :=
  keepsTo_numberOf (by decide) ⟨.integer, by decide⟩

theorem keepsTo_string : KeepsTo f K (phrases f .string) string :=
  (((keepsTo_expect (by decide)).map _).spanned).mono strings_le

theorem keepsTo_truthValue : KeepsTo f K (phrases f .truthValue) truthValue :=
  (((keepsTo_expect (by decide)).map _).spanned).mono truthValues_le

theorem keepsTo_elements (start : Nat) : KeepsTo f K (Words.elements f) (elements start) := by
  have hnumbers : Words.separated .comma (phrases f .number) ≤ Words.elements f :=
    le_trans le_self_add le_self_add
  have htruth : Words.separated .comma (phrases f .truthValue) ≤ Words.elements f :=
    le_trans le_add_self le_self_add
  unfold elements
  refine keepsTo_ask_bind fun kind => ?_
  split
  · exact ((keepsTo_truthValue.separated (by decide) keepsTo_truthValue).map _).mono htruth
  · exact ((keepsTo_string.separated (by decide) keepsTo_string).map _).mono le_add_self
  · exact ((keepsTo_number.separated (by decide) keepsTo_number).map _).mono hnumbers
  · exact ((keepsTo_number.separated (by decide) keepsTo_number).map _).mono hnumbers
  · refine keepsTo_noViable ?_ ⟨.string, by decide⟩ starts_elements
    rintro s ⟨-, rfl⟩
    simp_all [elementStart, numbers]

theorem keepsTo_constantList (hk : ∀ s, K s → s.kind = .leftBracket) :
    KeepsTo f K (phrases f .constant) constantList := by
  obtain ⟨w, hw⟩ := starts_elements (f := f) .string (by decide)
  have hclose := mem_letter .rightBracket
  unfold constantList
  refine (KeepsTo.spanned (keepsTo_ask_bind fun start => ?_)).mono brackets_le
  have hopen : KeepsTo f (fun s => K s ∧ s.position = start) (letter .leftBracket) take :=
    keepsTo_take (by decide) fun s hs => by simpa using hk s hs.1
  refine hopen.bind (fun _ => ?_) ⟨_, Language.append_mem_mul hw hclose⟩
  exact (keepsTo_elements start).bind (fun list => (keepsTo_expect (by decide)).map _) ⟨_, hclose⟩

theorem keepsTo_constant : KeepsTo f K (phrases f .constant) constant := by
  unfold constant
  refine keepsTo_ask_bind fun kind => ?_
  split
  · have htake : KeepsTo f (fun s => K s ∧ s.kind = .kwNull) (letter .kwNull) take :=
      keepsTo_take (by decide) fun s hs => by simpa using hs.2
    exact ((htake.map _).spanned).mono null_le
  · exact (keepsTo_truthValue.map _).mono truthValues_le_constants
  · exact (keepsTo_string.map _).mono strings_le_constants
  · exact keepsTo_constantList fun s hs => hs.2
  · exact (keepsTo_number.map _).mono numbers_le_constants
  · exact (keepsTo_number.map _).mono numbers_le_constants
  · refine keepsTo_ask_bind fun start => keepsTo_noViable ?_ ⟨.kwNull, by decide⟩ starts_constants
    rintro s ⟨⟨-, rfl⟩, -⟩
    simp_all [constantStart]

/-! ## Arguments -/

theorem keepsTo_fieldArgument : KeepsTo f K (phrases f .fieldArgument) fieldArgument := by
  unfold fieldArgument
  refine keepsTo_ask_bind fun kind => ?_
  split
  · exact (keepsTo_string.map _).mono strings_le_fieldArguments
  · exact (keepsTo_number.map _).mono numbers_le_fieldArguments
  · exact (keepsTo_number.map _).mono numbers_le_fieldArguments
  · exact (keepsTo_qualifiedName.map _).mono names_le_fieldArguments
  · exact (keepsTo_qualifiedName.map _).mono names_le_fieldArguments
  · refine keepsTo_ask_bind fun start =>
      keepsTo_noViable ?_ ⟨.string, by decide⟩ starts_fieldArguments
    rintro s ⟨⟨-, rfl⟩, -⟩
    simp_all [fieldArgumentStart, plainNames, numbers]

theorem keepsTo_timeSpan (hk : ∀ s, K s → s.kindAfter = .dateUnit) :
    KeepsTo f K (phrases f .timeSpan) timeSpan := by
  have hunit : ∀ n : NumericValue, KeepsTo f (fun t => t.kind = .dateUnit) (letter .dateUnit)
      (do let unit ← take; return TimeSpan.mk n unit.text) := fun n =>
    (keepsTo_take (by decide) fun t ht => by simpa using ht).map _
  have hnumber : KeepsTo f K numbers.letters number := keepsTo_numberOf (by decide) ⟨.integer, by decide⟩
  unfold timeSpan
  refine (KeepsTo.spanned (hnumber.bind_of (Q := fun _ t => t.kind = .dateUnit) ?_ hunit
    ⟨_, mem_letter _⟩)).mono timeSpans_le
  intro s ps n t _ hs hn
  obtain ⟨x, rfl⟩ : ∃ x, ps = [x] := by
    obtain ⟨-, hitems, -⟩ := Yields.same_iff.1 (hn.derives_number (c := ⟨f, 0⟩))
    obtain ⟨x, rfl, -⟩ := Yields.singleton_terminal_iff.1 hitems
    exact ⟨x, rfl⟩
  exact hn.reads.kind_eq_kindAfter.trans (hk s hs)

/-! ## Arithmetic -/

/-- Rules for expressions all of which keep to the grammar. -/
structure Expressions.KeepTo (inner : Expressions) : Prop where
  boolean (f : Bool) {power : Nat} (h : power ≤ Connective.notPower) :
    Rule.KeepsTo f Anywhere (conditions f power) (inner.boolean power)
  operator (f : Bool) {power : Nat} (h : power ≤ Sign.power) :
    Rule.KeepsTo f Anywhere (operators f power) (inner.operator power)

section

variable {inner : Expressions}

theorem keepsTo_value (hi : inner.KeepTo) : KeepsTo f K (phrases f .value) (value inner) := by
  have hoperator : KeepsTo f Anywhere (operators f 0) (inner.operator 0) :=
    hi.operator f (Nat.zero_le _)
  have hnull : ∃ ks, ks ∈ operators f 0 := ⟨_, mem_operators_null f (Nat.zero_le _)⟩
  have hle : operators f 0 * (1 + letter .comparison * operators f 0) ≤ phrases f .value := by
    rw [mul_add, mul_one]
    exact add_le operators_le_values comparisons_le
  unfold value
  refine (hoperator.here.bind (fun left => keepsTo_ask_bind fun compared => ?_) ⟨[], .inl rfl⟩).mono hle
  split
  · next hcompared =>
    have hk : ∀ s : State, Anywhere s ∧ (s.kind == .comparison) = compared → s.kind = .comparison := by
      rintro s ⟨-, hs⟩
      simpa [hcompared] using hs
    have htake : KeepsTo f (fun s => Anywhere s ∧ (s.kind == .comparison) = compared)
        (letter .comparison) take :=
      keepsTo_take (by decide) fun s hs => by simpa using hk s hs
    refine (htake.bind_of (M := operators f 0)
      (Q := fun token _ => (ComparisonOp.ofText? token.text).isSome = true) ?_ ?_ hnull).mono le_add_self
    · intro s ps token t hready hs h
      obtain ⟨x, rfl, rfl, hx, -⟩ := h.of_take (by simp [hk s hs])
      refine hready.comparisons x ?_ (hx.trans (hk s hs))
      rw [h.reads.rest]
      exact List.mem_append_left _ (List.mem_singleton_self x)
    · intro token
      split
      · exact (hoperator.map _).here
      · next hnone =>
        constructor
        · infer_instance
        · intro s t ps a _ hs
          simp [hnone] at hs
        · intro s _ _ hs
          simp [hnone] at hs
  · exact (keepsTo_pure _).mono le_self_add

theorem keepsTo_scalarArgument (hi : inner.KeepTo) :
    KeepsTo f K (phrases f .scalarArgument) (scalarArgument inner) := by
  unfold scalarArgument
  refine keepsTo_ask_bind fun numeric => keepsTo_ask_bind fun dated => ?_
  split
  · next h =>
    refine ((keepsTo_timeSpan ?_).map _).mono timeSpans_le_scalarArguments
    rintro s ⟨-, hs⟩
    simpa [(Bool.and_eq_true_iff.1 h).2] using hs
  · exact ((keepsTo_value hi).map _).mono values_le_scalarArguments

theorem keepsTo_primary (hi : inner.KeepTo) :
    KeepsTo f K (phrases f .primary) (primary inner) := by
  have hcondition : KeepsTo f Anywhere (conditions f 0) (inner.boolean 0) :=
    hi.boolean f (Nat.zero_le _)
  have hnull : ∃ ks, ks ∈ conditions f 0 := ⟨_, mem_conditions_null f (Nat.zero_le _)⟩
  unfold primary
  refine keepsTo_ask_bind fun kind => ?_
  split
  · exact (keepsTo_constant.map _).mono constants_le_primaries
  split
  · exact (((hcondition.parenthesised hnull).map _).spanned).mono groups_le
  split
  · refine keepsTo_ask_bind fun called => ?_
    split
    · exact ((keepsTo_plainIdentifier.bind (fun name => hcondition.arguments.map _)
        ⟨_, mem_arguments_nil⟩).spanned).mono calls_le
    · exact (keepsTo_qualifiedName.map _).mono names_le_primaries
  · refine keepsTo_ask_bind fun start => keepsTo_noViable ?_ ⟨.kwNull, by decide⟩ starts_primaries
    rintro s ⟨⟨-, rfl⟩, -⟩
    simp_all [primaryStart]

theorem keepsTo_operand (hi : inner.KeepTo) :
    KeepsTo f K (operators f Sign.power) (operand inner) := by
  have htake (kind : Kind) (hend : kind ≠ .endOfInput) :
      KeepsTo f (fun s => K s ∧ s.kind = kind) (letter kind) take :=
    keepsTo_take (by simpa using hend.symm) fun s hs => by simpa using hs.2
  unfold operand
  refine keepsTo_ask_bind fun kind => ?_
  split
  · next sign hsign =>
    obtain rfl := Sign.ofKind?_eq_some_iff.1 hsign
    refine (((htake sign.kind (by cases sign <;> decide)).bind
      (fun _ => (hi.operator f (Nat.le_refl _)).map _) ?_).spanned).mono (signed_le sign)
    exact ⟨_, mem_operators_null f (Nat.le_refl _)⟩
  · next hsign =>
    split
    · next hk =>
      subst hk
      exact (((keepsTo_takeIdentifier (by decide) fun s hs => hs.2).bind
        (fun name => keepsTo_fieldArgument.arguments.map _) ⟨_, mem_arguments_nil⟩).spanned).mono
        aggregates_le
    split
    · next hk =>
      subst hk
      exact (((keepsTo_takeIdentifier (by decide) fun s hs => hs.2).bind
        (fun name => (keepsTo_scalarArgument hi).arguments.map _) ⟨_, mem_arguments_nil⟩).spanned).mono
        scalars_le
    split
    · exact ((keepsTo_primary hi).map _).mono primaries_le
    · refine keepsTo_ask_bind fun start =>
        keepsTo_noViable ?_ ⟨.kwNull, by decide⟩ starts_operators
      rintro s ⟨⟨-, rfl⟩, -⟩ hk
      have hk : s.kind = .plus ∨ s.kind = .minus := by
        simpa [operatorStart, *] using hk
      obtain hk | hk := hk <;> simp [hk, Sign.ofKind?] at hsign

/-- The words of a link of a chain: an operator that joins the chain, with a word of its right
operand behind it. -/
def linkWords {O : Type} (left : O → Nat) (kind : O → Kind) (M : O → Language Kind) (power : Nat) :
    Language Kind :=
  {ks | ∃ op, power ≤ left op ∧ ks ∈ letter (kind op) * M op}

theorem keepsTo_linkOf {O T : Type} {ofKind? : Kind → Option O} {left : O → Nat}
    {right : O → Rule T} {kind : O → Kind} {M : O → Language Kind} (power : Nat)
    (hkind : ∀ k op, ofKind? k = some op → k = kind op) (hend : ofKind? .endOfInput = none)
    (hr : ∀ op, KeepsTo f Anywhere (M op) (right op)) (hM : ∀ op, ∃ ks, ks ∈ M op) :
    KeepsTo f K (1 + linkWords left kind M power) (linkOf ofKind? left right power) := by
  unfold linkOf
  refine keepsTo_ask_bind fun k => ?_
  split
  · next op hop =>
    split
    · exact (keepsTo_pure _).mono le_self_add
    · next hpower =>
      obtain rfl := hkind k op hop
      have hne : kind op ≠ .endOfInput := fun hk => by
        rw [hk, hend] at hop
        cases hop
      have htake : KeepsTo f (fun s => K s ∧ s.kind = kind op) (letter (kind op)) take :=
        keepsTo_take (by simpa using hne.symm) fun s hs => by simpa using hs.2
      refine (htake.bind (fun _ => (hr op).map _) (hM op)).mono ?_
      intro ks hks
      exact .inr ⟨op, Nat.le_of_not_lt hpower, hks⟩
  · exact (keepsTo_pure _).mono le_self_add

/-- The words of a link of a chain of infix operators. -/
def operatorLinks (f : Bool) (power : Nat) : Language Kind :=
  {ks | ∃ op : ArithmeticOp, power ≤ op.leftPower ∧ ks ∈ letter op.kind * operators f op.rightPower}

theorem keepsTo_operatorLink (hi : inner.KeepTo) (power : Nat) :
    KeepsTo f K (1 + operatorLinks f power) (operatorLink inner power) := by
  have hright (op : ArithmeticOp) : op.rightPower ≤ Sign.power := op.power_bounds.2.2
  exact keepsTo_linkOf power (fun k op => ArithmeticOp.ofKind?_eq_some_iff.1) rfl
    (fun op => hi.operator f (hright op)) fun op => ⟨_, mem_operators_null f (hright op)⟩

theorem keepsTo_operatorChain (hi : inner.KeepTo) {power : Nat} (hp : power ≤ Sign.power) :
    KeepsTo f K (operators f power) (operatorChain inner power) := by
  refine ((keepsTo_operand hi).bind (fun first => (keepsTo_operatorLink hi power).many.map _)
    ⟨[], Language.nil_mem_kstar _⟩).mono (mul_kstar_le (operators_le f hp) ?_)
  rw [mul_add, mul_one]
  refine add_le le_rfl ?_
  rintro _ ⟨ks, hks, ks', ⟨op, hop, hks'⟩, rfl⟩
  exact operators_mul_le hop (Language.append_mem_mul hks hks')

/-! ## Conditions -/

theorem keepsTo_predicateCall (hk : ∀ s, K s → s.kind = .predicateFunction) :
    KeepsTo f K (letter .predicateFunction * Words.parenthesised (predicateArguments f))
      predicateCall := by
  have hname : [.identifier] ∈ phrases f .qualifiedName :=
    names_le (mem_separated (KindSet.singleton_mem_letters (by decide)))
  have hmem : [.identifier] ∈ predicateArguments f :=
    Language.append_mem_mul hname (Language.nil_mem_kstar _)
  have hargs : KeepsTo f Anywhere (predicateArguments f) (do
      let field ← qualifiedName
      let args ← many (behind .comma fieldArgument)
      return (field, args)) :=
    keepsTo_qualifiedName.bind (fun field => ((keepsTo_fieldArgument.behind (by decide)).many).map _)
      ⟨[], Language.nil_mem_kstar _⟩
  exact (((keepsTo_takeIdentifier (by decide) hk).bind
    (fun name => (hargs.parenthesised ⟨_, hmem⟩).map _)
    ⟨_, mem_parenthesised hmem⟩).spanned)

/-- The tests of a value. -/
def tests : Language Kind :=
  membershipTests + (patternTests .like + patternTests .rlike)

theorem values_mul_tests_le :
    phrases true .value * (1 + negation * tests) ≤ conditions true Connective.notPower := by
  rw [mul_add, mul_one]
  refine add_le values_le ?_
  rw [tests, mul_add, mul_add, mul_add, mul_add]
  exact add_le membershipTests_le (add_le (patternTests_le .like) (patternTests_le .rlike))

theorem keepsTo_testNegation : KeepsTo f K negation testNegation := by
  unfold testNegation
  refine keepsTo_ask_bind fun negated => keepsTo_ask_bind fun followed => ?_
  split
  · next h =>
    refine keepsTo_ask_bind fun token => ?_
    have hnot : negated = true := (Bool.and_eq_true_iff.1 h).1
    have hskip := Rule.KeepsTo.skip_bind .kwNot (f := f) (L := 1) (Q := Anywhere)
      (K := fun s => ((K s ∧ (s.kind == .kwNot) = negated)
        ∧ testWords.contains s.kindAfter = followed) ∧ s.current = token)
      (g := fun _ => pure (some token)) (by decide)
      (fun s hs => by simpa [hnot] using hs.1.1.2) (fun _ _ _ => trivial) (keepsTo_pure _)
    rw [mul_one] at hskip
    exact hskip.mono le_add_self
  · exact (keepsTo_pure _).mono le_self_add

theorem mem_tests_kwIn : .kwIn :: .leftParen :: ([.kwNull] ++ [.rightParen]) ∈ tests := by
  have hvalue : [.kwNull] ∈ phrases true .value :=
    operators_le_values (mem_operators_null true (Nat.zero_le _))
  exact .inl (Language.append_mem_mul (mem_letter _) (mem_parenthesised (mem_separated hvalue)))

/-- What comes behind a value and perhaps a negation. Where a word for a test stands, it is a
test. -/
theorem keepsTo_testWord (hi : inner.KeepTo) {L : Language Kind} (hle : tests ≤ L)
    (hnone : (∀ s, K s → s.kind ∈ testWords) ∨ [] ∈ L) (start : Nat) (tested : ValueExpr)
    (negation : Option Token) :
    KeepsTo true K L (do
      let kind ← ask (·.kind)
      if kind = .kwIn then
        let _ ← take
        let items ← parenthesised (separated .comma (value inner))
        ask fun s => BooleanExpr.isIn tested negation items (s.spanFrom start)
      else
        match PatternKind.ofKind? kind with
        | some pattern =>
          let _ ← take
          let literal ← string
          ask fun s => .isMatch tested negation pattern literal (s.spanFrom start)
        | none => return .value tested) := by
  have hvalue : [.kwNull] ∈ phrases true .value :=
    operators_le_values (mem_operators_null true (Nat.zero_le _))
  refine keepsTo_ask_bind fun kind => ?_
  have htake (hend : kind ≠ .endOfInput) :
      KeepsTo true (fun s => K s ∧ s.kind = kind) (letter kind) take :=
    keepsTo_take (by simpa using hend.symm) fun s hs => by simpa using hs.2
  split
  · next hk =>
    subst hk
    have hitems : KeepsTo true Anywhere (Words.parenthesised (Words.separated .comma
        (phrases true .value))) (parenthesised (separated .comma (value inner))) :=
      ((keepsTo_value hi).separated (by decide) (keepsTo_value hi)).parenthesised
        ⟨_, mem_separated hvalue⟩
    have hlist : ∃ ks, ks ∈ Words.parenthesised (Words.separated .comma (phrases true .value)) :=
      ⟨_, mem_parenthesised (mem_separated hvalue)⟩
    refine ((htake (by decide)).bind (fun _ => hitems.bind (fun items => keepsTo_ask _)
      ⟨[], rfl⟩) ?_).mono ?_
    · rwa [mul_one]
    · rw [mul_one]
      exact le_trans le_self_add hle
  split
  · next pattern hpattern =>
    obtain rfl := PatternKind.ofKind?_eq_some_iff.1 hpattern
    have hstring : ∃ ks, ks ∈ phrases true .string := ⟨_, strings_le (mem_letter _)⟩
    have hstrings : KeepsTo true Anywhere (phrases true .string) string := keepsTo_string
    refine ((htake (by cases pattern <;> decide)).bind (fun _ => hstrings.bind
      (fun literal => keepsTo_ask _) ⟨[], rfl⟩) ?_).mono ?_
    · rwa [mul_one]
    · rw [mul_one]
      have hpatterns : patternTests pattern ≤ patternTests .like + patternTests .rlike := by
        cases pattern with
        | like => exact le_self_add
        | rlike => exact le_add_self
      exact le_trans (le_trans hpatterns le_add_self) hle
  · next hin _ hpattern =>
    obtain hwords | hnil := hnone
    · have hno : ∀ s, ¬ (K s ∧ s.kind = kind) := by
        rintro s ⟨hs, rfl⟩
        have hk : s.kind = .kwLike ∨ s.kind = .kwRlike := by
          simpa [testWords, hin] using hwords s hs
        obtain hk | hk := hk <;> simp [hk, PatternKind.ofKind?] at hpattern
      constructor
      · infer_instance
      · intro s t ps a _ hs
        exact absurd hs (hno s)
      · intro s _ _ hs
        exact absurd hs (hno s)
    · refine (keepsTo_pure _).mono ?_
      rintro ks rfl
      exact hnil

theorem keepsTo_test (hi : inner.KeepTo) (start : Nat) (tested : ValueExpr) :
    KeepsTo true K (1 + negation * tests) (test inner start tested) := by
  have hle : 1 + tests ≤ 1 + negation * tests := by
    rintro ks (hks | hks)
    · exact .inl hks
    · exact .inr (Language.append_mem_mul (a := []) (.inl rfl) hks)
  have hneg : KeepsTo true K negation testNegation := keepsTo_testNegation
  have hword := keepsTo_testWord (K := fun s => s.kind ∈ testWords) hi le_rfl (.inl fun _ h => h)
    start tested
  have hplain := keepsTo_testWord (K := Anywhere) hi (le_add_self : tests ≤ 1 + tests)
    (.inr (.inl rfl)) start tested
  unfold test
  constructor
  · exact .bind fun token => (hplain token).lawful
  · intro s t ps e hs hks h
    obtain ⟨token, u, qs, rs, rfl, hqs, hrs⟩ := h.of_bind fun token => (hplain token).lawful
    obtain hu | ⟨rfl, -, rfl⟩ := (hqs.of_testNegation (c := ⟨true, 0⟩)).2
    · rw [kindsOf_append]
      exact .inr (Language.append_mem_mul (hneg.accepts hs hks hqs)
        ((hword token).accepts (hs.reads hqs.reads) hu hrs))
    · exact hle ((hplain token).accepts hs trivial hrs)
  · intro s hc hs hks
    refine warranted_bind hneg.lawful (fun token => (hplain token).lawful) hc
      (((hneg.warranted hc hs hks).followed ⟨_, mem_tests_kwIn⟩).mono le_add_self) ?_
    intro token qs u hqs
    obtain hu | ⟨rfl, -, rfl⟩ := (hqs.of_testNegation (c := ⟨true, 0⟩)).2
    · exact (((hword token).warranted hqs.clear' (hs.reads hqs.reads) hu).behind hqs.reads
        (hneg.accepts hs hks hqs)).mono le_add_self
    · exact ((hplain token).warranted hc hs trivial).mono hle

/-- The scope says whether the predicates of filters may be used. -/
theorem keepsTo_askScope {α : Type} {L : Language Kind} {r : Scope → Rule α}
    (hl : ∀ scope, Lawful true (r scope))
    (hr : ∀ scope : Scope, scope.predicates = f → KeepsTo f K L (r scope)) :
    KeepsTo f K L (ask (·.scope) >>= r) where
  lawful := .bind hl
  accepts hs hk h := (hr _ hs.predicates).accepts hs hk (accepts_ask_bind.1 h)
  warranted hc hs hk := (hr _ hs.predicates).warranted hc hs hk

theorem keepsTo_condition [inner.Lawful true] (hi : inner.KeepTo) :
    KeepsTo f K (conditions f Connective.notPower) (condition inner) := by
  unfold condition
  refine keepsTo_ask_bind fun kind => keepsTo_askScope (fun scope => inferInstance) ?_
  rintro scope rfl
  have hnull : ∃ ks, ks ∈ conditions scope.predicates Connective.notPower :=
    ⟨_, mem_conditions_null _ (Nat.le_refl _)⟩
  split
  · next hk =>
    have htake : KeepsTo scope.predicates (fun s => K s ∧ s.kind = kind) (letter .kwNot) take :=
      keepsTo_take (by decide) fun s hs => by simp [hs.2, hk]
    exact ((htake.bind (fun _ => (hi.boolean _ (Nat.le_refl _)).map _) hnull).spanned).mono
      negations_le
  split
  · next hpredicate =>
    obtain ⟨hk, hfilters⟩ : kind = .predicateFunction ∧ scope.predicates = true := by
      simpa using hpredicate
    rw [hfilters]
    exact ((keepsTo_predicateCall fun s hs => hs.2.trans hk).map _).mono predicates_le
  split
  · refine keepsTo_ask_bind fun start => ?_
    split
    · next hfilters =>
      rw [hfilters]
      exact ((keepsTo_value hi).bind (fun tested => keepsTo_test hi start tested)
        ⟨[], .inl rfl⟩).mono values_mul_tests_le
    · exact ((keepsTo_value hi).map _).mono values_le
  · next hnot hpredicate hoperator =>
    refine keepsTo_ask_bind fun start =>
      keepsTo_noViable ?_ ⟨.kwNull, ?_⟩ (starts_booleans scope)
    · rintro s ⟨⟨-, rfl⟩, -⟩
      unfold Scope.booleanStart
      split <;> simp_all [filterStart, Grammar.booleanStart]
    · unfold Scope.booleanStart
      split <;> decide

/-- The words of a link of a chain of connectives. -/
def connectiveLinks (f : Bool) (power : Nat) : Language Kind :=
  {ks | ∃ op : Connective, power ≤ op.leftPower ∧ ks ∈ letter op.kind * conditions f op.rightPower}

theorem keepsTo_connectiveLink (hi : inner.KeepTo) (power : Nat) :
    KeepsTo f K (1 + connectiveLinks f power) (connectiveLink inner power) := by
  have hright (op : Connective) : op.rightPower ≤ Connective.notPower :=
    Nat.le_of_lt op.power_bounds.2.2
  exact keepsTo_linkOf power (fun k op => Connective.ofKind?_eq_some_iff.1) rfl
    (fun op => hi.boolean f (hright op)) fun op => ⟨_, mem_conditions_null f (hright op)⟩

theorem keepsTo_connectiveChain [inner.Lawful true] (hi : inner.KeepTo) {power : Nat}
    (hp : power ≤ Connective.notPower) :
    KeepsTo f K (conditions f power) (connectiveChain inner power) := by
  refine ((keepsTo_condition hi).bind (fun first => (keepsTo_connectiveLink hi power).many.map _)
    ⟨[], Language.nil_mem_kstar _⟩).mono (mul_kstar_le (conditions_le f hp) ?_)
  rw [mul_add, mul_one]
  refine add_le le_rfl ?_
  rintro _ ⟨ks, hks, ks', ⟨op, hop, hks'⟩, rfl⟩
  exact conditions_mul_le hop (Language.append_mem_mul hks hks')

end

/-- Expressions keep to the grammar on all levels of nesting. -/
theorem keepTo_expressions (n : Nat) : (expressions n).KeepTo := by
  induction n with
  | zero => exact ⟨fun _ _ _ => keepsTo_tooDeep, fun _ _ _ => keepsTo_tooDeep⟩
  | succ n ih =>
    constructor
    · intro f power hp
      exact keepsTo_connectiveChain ih hp
    · intro f power hp
      exact keepsTo_operatorChain ih hp

/-! ## Clauses -/

section

variable {inner : Expressions}

theorem mem_names (f : Bool) : [.identifier] ∈ phrases f .qualifiedName :=
  names_le (mem_separated (KindSet.singleton_mem_letters (by decide)))

theorem mem_fields (f : Bool) : [.kwNull] ∈ phrases f .field :=
  fields_le (Language.append_mem_mul nil_mem_assigned (mem_conditions_null f (Nat.zero_le _)))

theorem keepsTo_field (hi : inner.KeepTo) : KeepsTo f K (phrases f .field) (field inner) :=
  (((keepsTo_assigned? names_plainNames ⟨.identifier, by decide⟩).bind
    (fun name => (hi.boolean f (Nat.zero_le _)).map _)
    ⟨_, mem_conditions_null f (Nat.zero_le _)⟩).spanned).mono fields_le

theorem keepsTo_fields (hi : inner.KeepTo) :
    KeepsTo f K (Words.separated .comma (phrases f .field)) (fields inner) :=
  (keepsTo_field hi).separated (by decide) (keepsTo_field hi)

theorem keepsTo_renameClause : KeepsTo f K (phrases f .renameClause) renameClause :=
  ((keepsTo_plainIdentifier.bind (fun name => (keepsTo_expect (by decide)).bind
    (fun _ => keepsTo_qualifiedName.map _) ⟨_, mem_names f⟩)
    ⟨_, Language.append_mem_mul (mem_letter _) (mem_names f)⟩).spanned).mono renameClauses_le

theorem keepsTo_commandOption : KeepsTo f K (phrases f .commandOption) commandOption := by
  have hnull : [.kwNull] ∈ phrases f .constant := null_le (mem_letter _)
  exact ((keepsTo_plainIdentifier.bind (fun name => (keepsTo_expect (by decide)).bind
    (fun _ => keepsTo_constant.map _) ⟨_, hnull⟩)
    ⟨_, Language.append_mem_mul (mem_letter _) hnull⟩).spanned).mono commandOptions_le

theorem keepsTo_sortKey (hi : inner.KeepTo) : KeepsTo f K (phrases f .sortKey) (sortKey inner) := by
  have hnulls : KeepsTo f Anywhere (letter .nullsDirection) (expect .nullsDirection) :=
    keepsTo_expect (by decide)
  exact (((hi.boolean f (Nat.zero_le _)).here.bind (fun e => (keepsTo_accept (by decide)).bind
    (fun order => (hnulls.behind (by decide)).map _) ⟨_, nil_mem_behind⟩)
    ⟨_, Language.append_mem_mul (.inl rfl) nil_mem_behind⟩).spanned).mono sortKeys_le

theorem mem_enrichLetters : [.enrichIdentifier] ∈ enrichNames.letters :=
  KindSet.singleton_mem_letters (by decide)

theorem keepsTo_enrichClause : KeepsTo f K (phrases f .enrichClause) enrichClause :=
  (((keepsTo_assigned? names_enrichNames ⟨.enrichIdentifier, by decide⟩).bind
    (fun name => keepsTo_enrichIdentifier.map _) ⟨_, mem_enrichLetters⟩).spanned).mono enrichClauses_le

/-! ## Processing commands -/

/-- Names behind the keyword of a command. -/
theorem keepsTo_names {clause : List QualifiedName → ProcessingClause} {kind : Kind}
    (kinds : List Kind) (hk : kind ∈ kinds)
    (hadm : ∀ names, names ≠ [] → (clause names).Admissible)
    (hitems : ∀ names keyword, (clause names).items keyword
      = .terminal (.kept kinds keyword) :: Item.list .qualifiedName names) :
    KeepsTo f K (clauses f kind) (do return clause (← qualifiedNames)) :=
  (keepsTo_qualifiedNames.map _).mono (names_le_clauses hk hadm hitems)

theorem keepsTo_dissect {clause : Rule ProcessingClause}
    (hclause : processingClause? inner .kwDissect = some clause) :
    KeepsTo f K (clauses f .kwDissect) clause := by
  obtain rfl := Option.some.inj hclause
  have hstring : [.string] ∈ phrases f .string := strings_le (mem_letter _)
  refine (keepsTo_qualifiedNames.bind (fun names => keepsTo_string.bind (fun pattern =>
    keepsTo_ask_bind fun named => ?_) ⟨[], .inl rfl⟩)
    ⟨_, Language.append_mem_mul hstring (.inl rfl)⟩).mono dissects_le
  split
  · exact ((keepsTo_commandOption.separated (by decide) keepsTo_commandOption).map _).mono le_add_self
  · exact (keepsTo_pure _).mono le_self_add

theorem keepsTo_stats (hi : inner.KeepTo) {clause : Rule ProcessingClause}
    (hclause : processingClause? inner .kwStats = some clause) :
    KeepsTo f K (clauses f .kwStats) clause := by
  obtain rfl := Option.some.inj hclause
  have hgrouping (aggregates : Option (List Field)) :
      KeepsTo f Anywhere (Words.behind .kwBy (Words.separated .comma (phrases f .qualifiedName)))
        (do return .stats aggregates (← behind .kwBy qualifiedNames) : Rule ProcessingClause) :=
    (keepsTo_qualifiedNames.behind (by decide)).map _
  refine KeepsTo.mono (keepsTo_ask_bind fun started => ?_) stats_le
  split
  · have hfields : KeepsTo f (fun s => K s ∧ booleanStart.contains s.kind = started)
        (1 + Words.separated .comma (phrases f .field)) (some <$> fields inner) :=
      ((keepsTo_fields hi).map some).mono le_add_self
    exact hfields.bind hgrouping ⟨_, nil_mem_behind⟩
  · have hnone : KeepsTo f (fun s => K s ∧ booleanStart.contains s.kind = started)
        (1 + Words.separated .comma (phrases f .field)) (pure none : Rule (Option (List Field))) :=
      (keepsTo_pure none).mono le_self_add
    exact hnone.bind hgrouping ⟨_, nil_mem_behind⟩

theorem keepsTo_enrich {clause : Rule ProcessingClause}
    (hclause : processingClause? inner .kwEnrich = some clause) :
    KeepsTo f K (clauses f .kwEnrich) clause := by
  obtain rfl := Option.some.inj hclause
  exact (keepsTo_enrichIdentifier.bind (fun policy => (keepsTo_enrichIdentifier.behind (by decide)).bind
    (fun field => ((keepsTo_enrichClause.separated (by decide) keepsTo_enrichClause).behind
      (by decide)).map _) ⟨_, nil_mem_behind⟩)
    ⟨_, Language.append_mem_mul nil_mem_behind nil_mem_behind⟩).mono enriches_le

/-- What stands behind the keyword of a processing command. -/
theorem keepsTo_processingClause (hi : inner.KeepTo) {kind : Kind} {clause : Rule ProcessingClause}
    (hclause : processingClause? inner kind = some clause) :
    KeepsTo f K (clauses f kind) clause := by
  unfold processingClause? at hclause
  split at hclause <;> cases hclause
  · exact ((keepsTo_fields hi).map _).mono evals_le
  · exact (keepsTo_integer.map _).mono limits_le
  · exact keepsTo_names [.kwKeep, .kwProject] (by decide) (fun _ h => h) fun _ _ => rfl
  · exact keepsTo_names [.kwKeep, .kwProject] (by decide) (fun _ h => h) fun _ _ => rfl
  · exact ((keepsTo_renameClause.separated (by decide) keepsTo_renameClause).map _).mono renames_le
  · exact keepsTo_names [_] (List.mem_singleton_self _) (fun _ h => h) fun _ _ => rfl
  · exact keepsTo_dissect (show processingClause? inner .kwDissect = some _ from rfl)
  · exact (keepsTo_qualifiedNames.bind (fun names => keepsTo_string.map _)
      ⟨_, strings_le (mem_letter _)⟩).mono groks_le
  · exact (((keepsTo_sortKey hi).separated (by decide) (keepsTo_sortKey hi)).map _).mono sorts_le
  · exact keepsTo_stats hi rfl
  · exact (((hi.boolean true (Nat.zero_le _)).within fun _ _ => rfl).map _).mono filters_le
  · exact keepsTo_names [_] (List.mem_singleton_self _) (fun _ h => h) fun _ _ => rfl
  · exact keepsTo_enrich (show processingClause? inner .kwEnrich = some _ from rfl)

theorem mem_processingKeywords {kind : Kind} {clause : Rule ProcessingClause}
    (h : processingClause? inner kind = some clause) : kind ∈ processingKeywords := by
  unfold processingClause? at h
  split at h <;> first | decide | cases h

theorem not_mem_processingKeywords {kind : Kind} (h : processingClause? inner kind = none) :
    kind ∉ processingKeywords := by
  intro hk
  simp only [processingKeywords, KindSet.mem_ofList, List.mem_cons, List.not_mem_nil, or_false] at hk
  obtain rfl | rfl | rfl | rfl | rfl | rfl | rfl | rfl | rfl | rfl | rfl | rfl | rfl := hk <;>
    simp [processingClause?] at h

theorem keepsTo_processingCommand (hi : inner.KeepTo) :
    KeepsTo f K (phrases f .processingCommand) (processingCommand inner) := by
  unfold processingCommand
  refine KeepsTo.spanned (KeepsTo.change_bind (fun s hs => hs.reads_note _) inferInstance
    (keepsTo_ask_bind fun kind => ?_))
  split
  · next clause hclause =>
    have hkeyword := mem_processingKeywords hclause
    have hend : .endOfInput ∉ ({kind} : KindSet) := by
      intro h
      rw [← KindSet.mem_singleton.1 h] at hkeyword
      exact absurd hkeyword (by decide)
    obtain ⟨w, hw⟩ := starts_processingCommands (f := f) kind hkeyword
    have htake : KeepsTo f (fun s => Anywhere s ∧ s.kind = kind) (letter kind) take :=
      keepsTo_take hend fun s hs => by simpa using hs.2
    exact (htake.bind (fun keyword => (keepsTo_processingClause hi hclause).map _) ⟨w, hw⟩).mono
      letter_mul_clauses_le
  · next hnone =>
    refine keepsTo_ask_bind fun start =>
      keepsTo_noViable ?_ ⟨.kwEval, by decide⟩ starts_processingCommands
    rintro s ⟨⟨-, rfl⟩, -⟩
    exact not_mem_processingKeywords hnone

end

end PipeQuery.Grammar
