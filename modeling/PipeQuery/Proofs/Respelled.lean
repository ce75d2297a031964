import PipeQuery.Proofs.Printing
import PipeQuery.Proofs.Shown

/-!
# Trees up to the spelling of their tokens

A token is `Reprinted` as another one of the same kind whose text is the token in print. What the
grammar derives it derives from reprinted tokens as well, when the tokens that the tree keeps are
compared in print (`Yields.reprinted`). The text and the s-expression of a query do not show more of
the tokens than that (`Query.shown_erase`).
-/

namespace PipeQuery

/-! ## Reprinted tokens -/

namespace Token

/-- The second token is the first one in print. -/
structure Reprinted (t u : Token) : Prop where
  kind : u.kind = t.kind
  text : u.text = t.written

/-- What is left of a token in print: its kind and its text. -/
def inPrint (t : Token) : Token := ⟨t.kind, t.written, 0, 0, 0, 0⟩

variable {t u : Token}

theorem written_eq_of_reprinted (h : t.Reprinted u) : u.written = t.written := by
  rw [written, h.kind, h.text]
  unfold written
  split_ifs
  · exact String.toLower_toLower t.text
  · exact String.toUpper_toUpper t.text
  · rfl

theorem Reprinted.inPrint (h : t.Reprinted u) : u.inPrint = t.inPrint := by
  rw [Token.inPrint, Token.inPrint, h.kind, written_eq_of_reprinted h]

theorem inPrint_eq_iff : u.inPrint = t.inPrint ↔ u.kind = t.kind ∧ u.written = t.written := by
  simp [inPrint]

/-- Tokens with the same kind and the same text look the same in print. -/
theorem inPrint_congr (hk : u.kind = t.kind) (ht : u.text = t.text) : u.inPrint = t.inPrint := by
  simp only [inPrint, written, hk, ht]

theorem sameWord_of_inPrint (h : u.inPrint = t.inPrint) (word : String) :
    sameWord u.text word = sameWord t.text word := by
  rw [PipeQuery.sameWord, PipeQuery.sameWord, ← toLower_written u, (inPrint_eq_iff.1 h).2,
    toLower_written]

/-- In print a word has the same upper case. -/
theorem toUpper_inPrint (t : Token) : t.inPrint.text.toUpper = t.text.toUpper := by
  change t.written.toUpper = t.text.toUpper
  rw [← String.toUpper_toLower, toLower_written, String.toUpper_toLower]

end Token

/-! ## What terminals ask for -/

/-- Whether any token of the kind may stand where the grammar asks for one: the grammar sees it, and
it is neither an error nor the end of the input. Comparisons are not plain, as some are not known. -/
@[simp] def Kind.isPlain : Kind → Bool
  | whitespace | lineComment | blockComment | endOfInput | error | comparison => false
  | _ => true

/-- The grammar may ask for the token. -/
def Token.Askable (t : Token) : Prop :=
  t.kind.isPlain = true ∨ t.kind = .comparison ∧ (ComparisonOp.ofText? t.text).isSome = true

namespace Terminal

/-- The kinds of the tokens of a terminal. -/
def kinds : Terminal → List Kind
  | kept kinds _ => kinds
  | comparison _ _ => [.comparison]
  | kind k | spelling k _ => [k]
  | truth _ => [.boolean]
  | order _ => [.ordering]
  | nulls _ => [.nullsDirection]

/-- The kinds of a terminal are plain, but for those of comparisons, which it knows, and it asks for a
given text only where printing does not change it. -/
def Proper (t : Terminal) : Prop :=
  (∀ k ∈ t.kinds, k.isPlain = true ∨ ∃ op token, t = .comparison op token) ∧
    ∀ k text, t = .spelling k text → k.isCased = false

variable {t : Terminal} {x y : Token} {ρ : Token → Token}

theorem Matches.kind_mem (h : t.Matches ρ x) : x.kind ∈ t.kinds := by
  cases t with
  | kept kinds token => exact h.1
  | comparison op token => simp [kinds, h.1]
  | kind k => simp [kinds, show x.kind = k from h]
  | spelling k text | truth value | order o | nulls o => simp [kinds, h.1]

theorem Matches.askable (h : t.Matches ρ x) (ht : t.Proper) : x.Askable := by
  obtain hplain | ⟨op, token, rfl⟩ := ht.1 _ h.kind_mem
  · exact .inl hplain
  · exact .inr ⟨h.1, by rw [h.2.1]; rfl⟩

/-- A token that looks the same in print is as good as the token. -/
theorem Matches.respelled (h : t.Matches id x) (ht : t.Proper) (hxy : y.inPrint = x.inPrint) :
    t.Matches Token.inPrint y := by
  obtain ⟨hkind, hwritten⟩ := Token.inPrint_eq_iff.1 hxy
  have htext (hc : x.kind.isCased = false) : y.text = x.text := by
    rw [← Token.written_of_not_isCased hc, ← hwritten,
      Token.written_of_not_isCased (by rw [hkind, hc])]
  have hword := Token.sameWord_of_inPrint hxy
  cases t with
  | kept kinds token =>
    obtain ⟨hk, rfl⟩ := h
    exact ⟨hkind ▸ hk, hxy⟩
  | comparison op token =>
    obtain ⟨hk, hop, rfl⟩ := h
    exact ⟨hkind.trans hk, by rw [htext (by rw [hk]; rfl)]; exact hop, hxy⟩
  | kind k => exact hkind.trans h
  | spelling k text =>
    obtain ⟨rfl, rfl⟩ := h
    exact ⟨hkind, htext (ht.2 _ _ rfl)⟩
  | truth value => exact ⟨hkind.trans h.1, by rw [hword]; exact h.2⟩
  | order o => exact ⟨hkind.trans h.1, by rw [SortOrder.ofText, hword]; exact h.2⟩
  | nulls o =>
    refine ⟨hkind.trans h.1, ?_⟩
    rw [NullsOrder.ofText?, hword, hword]
    exact h.2

end Terminal

namespace Terminal

@[simp] theorem proper_kept {ks : List Kind} {token : Token} :
    (kept ks token).Proper ↔ ∀ k ∈ ks, k.isPlain = true := by
  simp [Proper, kinds]

@[simp] theorem proper_comparison {op : ComparisonOp} {token : Token} :
    (comparison op token).Proper := by
  simp [Proper, kinds]

@[simp] theorem proper_kind {k : Kind} : (kind k).Proper ↔ k.isPlain = true := by
  simp [Proper, kinds]

@[simp] theorem proper_spelling {k : Kind} {text : String} :
    (spelling k text).Proper ↔ k.isPlain = true ∧ k.isCased = false := by
  simp [Proper, kinds]

@[simp] theorem proper_truth {value : Bool} : (truth value).Proper := by
  simp [Proper, kinds]

@[simp] theorem proper_order {o : SortOrder} : (order o).Proper := by
  simp [Proper, kinds]

@[simp] theorem proper_nulls {o : NullsOrder} : (nulls o).Proper := by
  simp [Proper, kinds]

/-- No token of a name is as the terminal asks for. -/
def Nameless (t : Terminal) : Prop := ∀ k ∈ t.kinds, k.isName = false

attribute [local simp] Kind.isName Kind.isQuotedIdentifier

@[simp] theorem nameless_kept {ks : List Kind} {token : Token} :
    (kept ks token).Nameless ↔ ∀ k ∈ ks, k.isName = false := Iff.rfl

@[simp] theorem nameless_kind {k : Kind} : (kind k).Nameless ↔ k.isName = false := by
  simp [Nameless, kinds]

@[simp] theorem nameless_spelling {k : Kind} {text : String} :
    (spelling k text).Nameless ↔ k.isName = false := by
  simp [Nameless, kinds]

@[simp] theorem nameless_comparison {op : ComparisonOp} {token : Token} :
    (comparison op token).Nameless := by
  simp [Nameless, kinds]

@[simp] theorem nameless_truth {value : Bool} : (truth value).Nameless := by
  simp [Nameless, kinds]

@[simp] theorem nameless_order {o : SortOrder} : (order o).Nameless := by
  simp [Nameless, kinds]

@[simp] theorem nameless_nulls {o : NullsOrder} : (nulls o).Nameless := by
  simp [Nameless, kinds]

end Terminal

/-- What holds of all the terminals among some items. -/
def Item.Each (P : Terminal → Prop) (items : List Item) : Prop := ∀ t, .terminal t ∈ items → P t

namespace Item

variable {P : Terminal → Prop} {t : Terminal} {k : Kind} {n : Nesting} {p : Phrase}
  {items items' : List Item}

@[simp] theorem each_nil : Each P [] := by
  simp [Each]

@[simp] theorem each_terminal : Each P (.terminal t :: items) ↔ P t ∧ Each P items := by
  simp [Each]

@[simp] theorem each_phrase : Each P (.phrase n p :: items) ↔ Each P items := by
  simp [Each]

@[simp] theorem each_append : Each P (items ++ items') ↔ Each P items ∧ Each P items' := by
  simp only [Each, List.mem_append]
  exact ⟨fun h => ⟨fun t ht => h t (.inl ht), fun t ht => h t (.inr ht)⟩,
    fun h t ht => ht.elim (h.1 t) (h.2 t)⟩

@[simp] theorem each_option {α : Type} {o : Option α} {f : α → List Item} :
    Each P (o.elim [] f) ↔ ∀ a ∈ o, Each P (f a) := by
  cases o <;> simp

/-- The tokens between phrases are separators. -/
theorem each_separated {α : Type} {f : α → Phrase} {as : List α} (hk : P (.kind k)) :
    Each P (separated k (as.map fun a => .phrase n (f a))) := by
  intro t ht
  cases as with
  | nil => cases ht
  | cons a as =>
    have ht : ∃ b ∈ as, Item.terminal t = Item.kind k ∨ Item.terminal t = .phrase n (f b) := by
      simpa [separated] using ht
    obtain ⟨b, -, hb | hb⟩ := ht
    · cases hb
      exact hk
    · cases hb

@[simp] theorem each_list {α : Type} {f : α → Phrase} {as : List α} (hk : P (.kind .comma)) :
    Each P (list f as) := each_separated hk

@[simp] theorem each_call {α : Type} {name : Identifier} {f : α → Phrase} {as : List α}
    (hl : P (.kind .leftParen)) (hk : P (.kind .comma)) (hr : P (.kind .rightParen)) :
    Each P (call name (as.map fun a => .phrase n (f a))) := by
  have hcomma : Each P (separated .comma (as.map fun a => .phrase n (f a))) := each_separated hk
  simp [call, hcomma, hl, hr]

end Item

theorem Kind.isPlain_of_isName {k : Kind} (h : k.isName = true) : k.isPlain = true := by
  revert h
  cases k <;> decide

section

attribute [local simp] Kind.isName Kind.isQuotedIdentifier

/-- Where the grammar does not ask for a name, it asks for tokens that a text may have and that no
name has. -/
theorem Phrase.each_items {p : Phrase} (hp : ∀ i, p ≠ .identifier i) :
    Item.Each (fun t => t.Proper ∧ t.Nameless) p.items := by
  cases p with
  | query q => cases q <;> simp [items]
  | sourceCommand command =>
    cases command with
    | command keyword clause span =>
      cases clause with
      | listing target => cases target <;> simp [items, SourceClause.items, ShowTarget.kind]
      | _ => simp [items, SourceClause.items]
    | error span => simp [items]
  | processingCommand command =>
    cases command with
    | command keyword clause span => cases clause <;> simp [items, ProcessingClause.items]
    | error span => simp [items]
  | boolean e =>
    cases e with
    | connective op => cases op <;> simp [items, BooleanExpr.items, Connective.kind]
    | isMatch v negation pattern =>
      cases pattern <;> simp [items, BooleanExpr.items, Item.negation, PatternKind.kind]
    | _ => simp [items, BooleanExpr.items, Item.negation]
  | value v => cases v <;> simp [items, ValueExpr.items]
  | operator e =>
    cases e with
    | signed sign => cases sign <;> simp [items, OperatorExpr.items, Sign.kind]
    | binary op => cases op <;> simp [items, OperatorExpr.items, ArithmeticOp.kind]
    | _ => simp [items, OperatorExpr.items]
  | primary e => cases e <;> simp [items, PrimaryExpr.items]
  | scalarArgument a => cases a <;> simp [items]
  | fieldArgument a => cases a <;> simp [items]
  | constant c => cases c <;> simp [items, Constant.items]
  | number n => cases hk : n.kind <;> simp [items, hk, NumericKind.kind] <;> decide
  | qualifiedName q => exact Item.each_separated (by simp)
  | identifier i => exact absurd rfl (hp i)
  | predicateCall c =>
    have hitems : items (.predicateCall c) = Item.call c.name
        ((qualifiedName c.field :: c.args.map fieldArgument).map fun p => .phrase .same p) := by
      simp [items, Function.comp_def]
    rw [hitems]
    exact Item.each_call (by simp) (by simp) (by simp)
  | _ => simp [items, Item.assigned] <;> decide

end

/-- Names stand in identifiers only. -/
theorem Phrase.nameless_items {p : Phrase} (hp : ∀ i, p ≠ .identifier i) :
    Item.Each Terminal.Nameless p.items :=
  fun t ht => (each_items hp t ht).2

/-- The grammar asks for tokens that a text may have. -/
theorem Phrase.proper_items {filters : Bool} {p : Phrase} (h : p.Admissible filters) :
    Item.Each Terminal.Proper p.items := by
  cases p with
  | identifier i =>
    have hcased := Kind.isCased_of_isName h.1
    simpa [items, hcased] using Kind.isPlain_of_isName h.1
  | _ => exact fun t ht => (each_items (by simp) t ht).1

/-! ## Derivations -/

variable {exact : Bool} {c : Context} {items : List Item} {ps qs : List Placed}

/-- The grammar asks for what it derives. -/
theorem Yields.askable {ρ : Token → Token} (h : Yields ρ exact c items ps)
    (hi : Item.Each Terminal.Proper items) : ∀ x ∈ ps, x.1.Askable := by
  induction h with
  | nil => simp
  | @terminal c t items x ps token rest ih =>
    obtain ⟨ht, hi⟩ := Item.each_terminal.1 hi
    intro y hy
    rcases List.mem_cons.1 hy with rfl | hy
    · exact token.askable ht
    · exact ih hi y hy
  | phrase inside admissible parts span rest ihp ih =>
    intro y hy
    rcases List.mem_append.1 hy with hy | hy
    · exact ihp (Phrase.proper_items admissible) y hy
    · exact ih (Item.each_phrase.1 hi) y hy

theorem Token.Askable.ne_error {t : Token} (h : t.Askable) : t.kind ≠ .error := by
  intro hk
  simp [Askable, hk] at h

theorem Token.Askable.isSignificant {t : Token} (h : t.Askable) : t.isSignificant = true := by
  cases hk : t.kind <;> simp_all [Askable, Token.isSignificant, Kind.isTrivia]

/-- No derived token is an error. -/
theorem Yields.ne_error {ρ : Token → Token} (h : Yields ρ exact c items ps)
    (hi : Item.Each Terminal.Proper items) : ∀ x ∈ ps, x.1.kind ≠ .error :=
  fun x hx => (h.askable hi x hx).ne_error

/-- Two stretches look the same in print. -/
theorem forall₂_inPrint_iff : List.Forall₂ (fun x y => y.1.inPrint = x.1.inPrint) ps qs ↔
    qs.map (·.1.inPrint) = ps.map (·.1.inPrint) := by
  rw [← List.forall₂_eq_eq_eq, List.forall₂_map_left_iff, List.forall₂_map_right_iff]
  exact ⟨List.Forall₂.flip, List.Forall₂.flip⟩

/-- What derives some tokens derives tokens that look the same in print, when the kept ones are
compared in print. -/
theorem Yields.respelled (h : Yields id exact c items ps) (hi : Item.Each Terminal.Proper items)
    (hq : List.Forall₂ (fun x y => y.1.inPrint = x.1.inPrint) ps qs) :
    Yields Token.inPrint false c items qs := by
  induction h generalizing qs with
  | nil =>
    cases hq
    exact .nil _
  | terminal token rest ih =>
    obtain ⟨ht, hi⟩ := Item.each_terminal.1 hi
    cases hq with
    | cons hxy hq => exact .terminal (token.respelled ht hxy) (ih hi hq)
  | phrase inside admissible parts span rest ihp ih =>
    have hu := (List.forall₂_take_append _ _ _ hq.flip).flip
    have hv := (List.forall₂_drop_append _ _ _ hq.flip).flip
    rw [← List.take_append_drop (List.length _) qs]
    exact .phrase inside admissible (ihp (Phrase.proper_items admissible) hu) (by simp)
      (ih (Item.each_phrase.1 hi) hv)

/-- What derives some tokens derives them in print. -/
theorem Yields.reprinted (h : Yields id false c items ps) (hi : Item.Each Terminal.Proper items)
    (hq : List.Forall₂ (fun x y => x.1.Reprinted y.1) ps qs) :
    Yields Token.inPrint false c items qs :=
  h.respelled hi (hq.imp fun _ _ hxy => hxy.inPrint)

end PipeQuery
