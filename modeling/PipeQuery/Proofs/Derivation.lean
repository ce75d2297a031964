import PipeQuery.Proofs.Phrase
import PipeQuery.Proofs.Reading

/-!
# The grammar

`Yields ρ exact c items ps` says that the items derive the stretch `ps` of tokens in the context
`c`: each token is as its terminal asks for, and each phrase is admissible and derives its part of
the stretch by its own items. Nothing in it speaks of reading. This is the grammar of the language.

Two things are left open. Tokens that the tree keeps are compared after the function `ρ`, so that
trees can be compared up to the case of their keywords. And where `exact` is set, the span of each
phrase is the span of its part of the stretch.
-/

namespace PipeQuery

/-- Where a phrase stands: whether the predicates of filters may be used, and how many levels of
nesting are left. -/
structure Context where
  /-- Whether the predicates of filters may be used. -/
  filters : Bool
  /-- The number of levels that are left. -/
  levels : Nat
deriving DecidableEq, Repr

/-- The context inside a phrase, if there is a level left. -/
def Context.inside (c : Context) : Nesting → Option Context
  | .same => some c
  | .deeper =>
    match c.levels with
    | 0 => none
    | n + 1 => some ⟨c.filters, n⟩
  | .filter =>
    match c.levels with
    | 0 => none
    | n + 1 => some ⟨true, n⟩

@[simp] theorem Context.inside_same (c : Context) : c.inside .same = some c := rfl

@[simp] theorem Context.inside_deeper_succ (filters : Bool) (n : Nat) :
    (Context.mk filters (n + 1)).inside .deeper = some ⟨filters, n⟩ := rfl

@[simp] theorem Context.inside_filter_succ (filters : Bool) (n : Nat) :
    (Context.mk filters (n + 1)).inside .filter = some ⟨true, n⟩ := rfl

/-- The text of a token fits its kind, as far as the grammar looks at texts. -/
structure Token.Fits (t : Token) : Prop where
  /-- There are six comparison operators. -/
  comparison (h : t.kind = .comparison) : ∃ op, ComparisonOp.ofText? t.text = some op
  /-- Truth values are `TRUE` or `FALSE`. -/
  boolean (h : t.kind = .boolean) : sameWord t.text "true" ∨ sameWord t.text "false"
  /-- Sorts are `ASC` or `DESC`. -/
  ordering (h : t.kind = .ordering) : sameWord t.text "asc" ∨ sameWord t.text "desc"
  /-- Missing values come `FIRST` or `LAST`. -/
  nulls (h : t.kind = .nullsDirection) : sameWord t.text "first" ∨ sameWord t.text "last"

/-- The tokens of `ROW 1`. -/
def rowOne : List Token :=
  [⟨.kwRow, "ROW", 0, 3, 1, 0⟩, ⟨.whitespace, " ", 3, 4, 1, 3⟩, ⟨.integer, "1", 4, 5, 1, 4⟩]

/-- The tokens of words that stand on the first line from column `n` on, a blank behind each. -/
def Token.onLine (n : Nat) : List (Kind × String) → List Token
  | [] => []
  | (kind, text) :: words =>
    let m := n + text.length
    ⟨kind, text, n, m, 1, n⟩ :: ⟨.whitespace, " ", m, m + 1, 1, m⟩ :: onLine (m + 1) words

/-- The tokens of `row a == 1 | sort a nulls first`. -/
def sortedRow : List Token :=
  Token.onLine 0 [(.kwRow, "row"), (.identifier, "a"), (.comparison, "=="), (.integer, "1"),
    (.pipe, "|"), (.kwSort, "sort"), (.identifier, "a"), (.kwNulls, "nulls"),
    (.nullsDirection, "first")]

theorem fits_sortedRow : ∀ t ∈ sortedRow, t.Fits := by
  have hequal : ComparisonOp.ofText? "==" = some .eq := rfl
  have hfirst : sameWord "first" "first" = true := beq_self_eq_true _
  simp only [sortedRow, Token.onLine, List.forall_mem_cons, List.not_mem_nil, false_implies,
    implies_true, and_true]
  and_intros <;> constructor <;> simp [hequal, hfirst]

/-- Whether a token is as a terminal asks for; tokens that the tree keeps are compared by `ρ`. -/
def Terminal.Matches (ρ : Token → Token) : Terminal → Token → Prop
  | .kept kinds token, t => t.kind ∈ kinds ∧ ρ t = ρ token
  | .comparison op token, t =>
    t.kind = .comparison ∧ ComparisonOp.ofText? t.text = some op ∧ ρ t = ρ token
  | .kind k, t => t.kind = k
  | .spelling k text, t => t.kind = k ∧ t.text = text
  | .truth value, t => t.kind = .boolean ∧ sameWord t.text "true" = value
  | .order o, t => t.kind = .ordering ∧ SortOrder.ofText t.text = o
  | .nulls o, t => t.kind = .nullsDirection ∧ NullsOrder.ofText? t.text = some o

/-- The items derive the stretch. -/
inductive Yields (ρ : Token → Token) (exact : Bool) : Context → List Item → List Placed → Prop
  | nil (c : Context) : Yields ρ exact c [] []
  | terminal {c : Context} {t : Terminal} {items : List Item} {x : Placed} {ps : List Placed}
    (token : t.Matches ρ x.1) (rest : Yields ρ exact c items ps) :
    Yields ρ exact c (.terminal t :: items) (x :: ps)
  | phrase {c d : Context} {nesting : Nesting} {p : Phrase} {items : List Item}
    {ps qs : List Placed} (inside : c.inside nesting = some d) (admissible : p.Admissible d.filters)
    (parts : Yields ρ exact d p.items ps) (span : exact = true → p.span = Span.around ps)
    (rest : Yields ρ exact c items qs) :
    Yields ρ exact c (.phrase nesting p :: items) (ps ++ qs)

variable {ρ : Token → Token} {exact : Bool} {c d : Context} {items items' : List Item}
  {ps qs : List Placed} {p : Phrase} {nesting : Nesting} {t : Terminal}

namespace Yields

@[simp] theorem nil_iff : Yields ρ exact c [] ps ↔ ps = [] := by
  constructor
  · intro h
    cases h
    rfl
  · rintro rfl
    exact .nil c

theorem terminal_iff :
    Yields ρ exact c (.terminal t :: items) ps ↔
      ∃ x qs, ps = x :: qs ∧ t.Matches ρ x.1 ∧ Yields ρ exact c items qs := by
  constructor
  · intro h
    cases h with
    | terminal token rest => exact ⟨_, _, rfl, token, rest⟩
  · rintro ⟨x, qs, rfl, token, rest⟩
    exact .terminal token rest

theorem append (h : Yields ρ exact c items ps) (k : Yields ρ exact c items' qs) :
    Yields ρ exact c (items ++ items') (ps ++ qs) := by
  induction h with
  | nil => exact k
  | terminal token _ ih => exact .terminal token (ih k)
  | phrase inside admissible parts span _ _ ih =>
    rw [List.append_assoc]
    exact .phrase inside admissible parts span (ih k)

theorem append_iff :
    Yields ρ exact c (items ++ items') ps ↔
      ∃ qs rs, ps = qs ++ rs ∧ Yields ρ exact c items qs ∧ Yields ρ exact c items' rs := by
  constructor
  · intro h
    induction items generalizing ps with
    | nil => exact ⟨[], ps, rfl, .nil c, h⟩
    | cons item items ih =>
      cases h with
      | terminal token rest =>
        obtain ⟨qs, rs, rfl, hq, hr⟩ := ih rest
        exact ⟨_ :: qs, rs, rfl, .terminal token hq, hr⟩
      | phrase inside admissible parts span rest =>
        obtain ⟨qs, rs, rfl, hq, hr⟩ := ih rest
        exact ⟨_ ++ qs, rs, (List.append_assoc ..).symm, .phrase inside admissible parts span hq, hr⟩
  · rintro ⟨qs, rs, rfl, hq, hr⟩
    exact hq.append hr

theorem cons_iff {item : Item} :
    Yields ρ exact c (item :: items) ps ↔
      ∃ qs rs, ps = qs ++ rs ∧ Yields ρ exact c [item] qs ∧ Yields ρ exact c items rs := by
  rw [← List.singleton_append, append_iff]

/-- A token alone. -/
theorem singleton_terminal_iff :
    Yields ρ exact c [.terminal t] ps ↔ ∃ x, ps = [x] ∧ t.Matches ρ x.1 := by
  simp [terminal_iff]

/-- A phrase alone. -/
theorem singleton_phrase_iff :
    Yields ρ exact c [.phrase nesting p] ps ↔
      ∃ d, c.inside nesting = some d ∧ p.Admissible d.filters ∧ Yields ρ exact d p.items ps ∧
        (exact = true → p.span = Span.around ps) := by
  constructor
  · intro h
    cases h with
    | phrase inside admissible parts span rest =>
      obtain rfl := nil_iff.1 rest
      rw [List.append_nil]
      exact ⟨_, inside, admissible, parts, span⟩
  · rintro ⟨d, inside, admissible, parts, span⟩
    simpa using Yields.phrase inside admissible parts span (.nil c)

theorem same_iff :
    Yields ρ exact c [.same p] ps ↔
      p.Admissible c.filters ∧ Yields ρ exact c p.items ps ∧
        (exact = true → p.span = Span.around ps) := by
  simp [singleton_phrase_iff]

/-- A phrase on the same level, whatever its span. -/
theorem same (admissible : p.Admissible c.filters) (parts : Yields ρ false c p.items ps) :
    Yields ρ false c [.same p] ps := same_iff.2 ⟨admissible, parts, nofun⟩

/-- One level deeper, a phrase needs a level. -/
theorem deeper_succ_iff {filters : Bool} {n : Nat} :
    Yields ρ exact ⟨filters, n + 1⟩ [.deeper p] ps ↔ Yields ρ exact ⟨filters, n⟩ [.same p] ps := by
  simp [singleton_phrase_iff]

/-- The condition of a filter is one level deeper, and predicates may be used in it. -/
theorem filter_iff {filters : Bool} {n : Nat} :
    Yields ρ exact ⟨filters, n⟩ [.phrase .filter p] ps ↔ Yields ρ exact ⟨true, n⟩ [.deeper p] ps := by
  cases n <;> simp [singleton_phrase_iff, Context.inside]

theorem not_deeper_zero {filters : Bool} : ¬ Yields ρ exact ⟨filters, 0⟩ [.deeper p] ps := by
  simp [singleton_phrase_iff, Context.inside]

theorem span_eq (h : Yields ρ true c [.phrase nesting p] ps) : p.span = Span.around ps := by
  obtain ⟨-, -, -, -, hspan⟩ := singleton_phrase_iff.1 h
  exact hspan rfl

/-- Where spans are exact they need not be. -/
theorem toInexact (h : Yields ρ exact c items ps) : Yields ρ false c items ps := by
  induction h with
  | nil c => exact .nil c
  | terminal token _ ih => exact .terminal token ih
  | phrase inside admissible _ _ _ ihp ih => exact .phrase inside admissible ihp (by simp) ih

end Yields

/-! ## Lists -/

/-- Items with separators between them derive their stretches with tokens between them. -/
theorem Yields.separated_iff {α : Type} {kind : Kind} {f : α → Item} {as : List α} (has : as ≠ []) :
    Yields ρ exact c (Item.separated kind (as.map f)) ps ↔
      Separated kind (fun a ps => Yields ρ exact c [f a] ps) as ps := by
  constructor
  · intro h
    induction as generalizing ps with
    | nil => exact absurd rfl has
    | cons a as ih =>
      obtain ⟨qs, rs, rfl, ha, hrest⟩ := Yields.cons_iff.1 h
      cases as with
      | nil =>
        obtain rfl := nil_iff.1 hrest
        rw [List.append_nil]
        exact .one ha
      | cons b bs =>
        obtain ⟨x, rs, rfl, hx, hrest⟩ := Yields.terminal_iff.1 hrest
        exact .more ha hx (ih (by simp) hrest)
  · intro h
    induction h with
    | one first => exact first
    | @more a as ps qs x first separator rest ih =>
      obtain ⟨b, bs, rfl⟩ := List.exists_cons_of_ne_nil rest.ne_nil
      exact Yields.append first (.terminal separator (ih (by simp)))

theorem Yields.list_iff {α : Type} {phrase : α → Phrase} {as : List α} (has : as ≠ []) :
    Yields ρ exact c (Item.list phrase as) ps ↔
      Separated .comma (fun a ps => Yields ρ exact c [.same (phrase a)] ps) as ps := by
  rw [Item.list, separated_iff has]

/-! ## Items and phrases are not empty -/

theorem Item.separated_ne_nil {separator : Kind} {items : List Item} (h : items ≠ []) :
    Item.separated separator items ≠ [] := by
  cases items with
  | nil => exact absurd rfl h
  | cons item items => simp [Item.separated]

/-- A phrase that the grammar allows is made of something. -/
theorem Phrase.items_ne_nil {filters : Bool} (h : p.Admissible filters) : p.items ≠ [] := by
  cases p with
  | query q => cases q <;> simp [items]
  | sourceCommand command =>
    cases command with
    | command keyword clause span => cases clause <;> simp [items, SourceClause.items]
    | error span => exact absurd h (by simp [Admissible])
  | processingCommand command =>
    cases command with
    | command keyword clause span => cases clause <;> simp [items, ProcessingClause.items]
    | error span => exact absurd h (by simp [Admissible])
  | boolean e => cases e <;> simp [items, BooleanExpr.items]
  | value v => cases v <;> simp [items, ValueExpr.items]
  | operator e => cases e <;> simp [items, OperatorExpr.items, Item.call]
  | primary e => cases e <;> simp [items, PrimaryExpr.items, Item.call]
  | scalarArgument a => cases a <;> simp [items]
  | fieldArgument a => cases a <;> simp [items]
  | constant a => cases a <;> simp [items, Constant.items]
  | qualifiedName q => exact Item.separated_ne_nil (by simpa using h.1)
  | field | renameClause | commandOption | sortKey | enrichClause | predicateCall | timeSpan
  | number | string | truthValue | identifier => simp [items, Item.call]

/-- What is made of something derives something. -/
theorem Yields.ne_nil (h : Yields ρ exact c items ps) (hi : items ≠ []) : ps ≠ [] := by
  induction h with
  | nil => exact absurd rfl hi
  | terminal => simp
  | phrase _ admissible _ _ _ ihp _ => simp [ihp (Phrase.items_ne_nil admissible)]

theorem Yields.ne_nil_of_phrase (h : Yields ρ exact c (.phrase nesting p :: items) ps) : ps ≠ [] :=
  h.ne_nil (by simp)

end PipeQuery
