import PipeQuery.Proofs.Acceptance
import PipeQuery.Proofs.RepairedQuery

/-!
# Every tree is well formed

Whatever the tokens are and whatever is reported of them, each phrase of the statement is one that
the grammar allows to stand where it stands, but for the commands that were not read. A query with
such commands is derived by no stretch of tokens, so this is shown of the run itself: each stage
that was read is derived by the grammar, and reading a stage changes nothing in the others.

Two things follow. Operands are grouped as precedence and associativity ask for, which is said
without a word on powers (`grouped_parse`). And tests, predicates and names of each kind stand in
their own places only, and lists that have to name something do (`placed_parse`).
-/

namespace PipeQuery

/-! ## Phrases inside phrases -/

/-- Whether the predicates of filters may be used inside a phrase, given whether they may be used
where it stands. -/
def Nesting.filters : Nesting → Bool → Bool
  | .filter, _ => true
  | .same, b | .deeper, b => b

theorem Context.filters_inside {c d : Context} {nesting : Nesting} (h : c.inside nesting = some d) :
    d.filters = nesting.filters c.filters := by
  obtain ⟨filters, levels⟩ := c
  cases nesting <;> cases levels <;> simp [inside] at h <;> simp [← h, Nesting.filters]

namespace Item

variable {nesting : Nesting} {q : Phrase} {α : Type}

@[simp] theorem phrase_mem_elim {o : Option α} {f : α → List Item} :
    .phrase nesting q ∈ o.elim [] f ↔ ∃ a ∈ o, .phrase nesting q ∈ f a := by
  cases o <;> simp

@[simp] theorem phrase_mem_list {f : α → Phrase} {as : List α} :
    .phrase nesting q ∈ Item.list f as ↔ nesting = .same ∧ ∃ a ∈ as, q = f a := by
  simp [list, phrase_mem_separated, eq_comm, and_left_comm]

@[simp] theorem phrase_mem_call {name : Identifier} {arguments : List Item} :
    .phrase nesting q ∈ call name arguments ↔
      nesting = .same ∧ q = .identifier name ∨ .phrase nesting q ∈ arguments := by
  simp [call, phrase_mem_separated]

end Item

namespace Phrase

variable {p q r : Phrase} {b b' : Bool} {nesting : Nesting}

/-- A phrase stands inside another one, or is that one. The first flag tells whether the predicates
of filters may be used where the outer phrase stands, the second one whether they may be used where
the inner phrase stands. -/
inductive Holds : Bool → Phrase → Bool → Phrase → Prop
  | refl (b : Bool) (p : Phrase) : Holds b p b p
  | head {b b' : Bool} {nesting : Nesting} {p q r : Phrase} (item : .phrase nesting q ∈ p.items)
    (inside : Holds (nesting.filters b) q b' r) : Holds b p b' r

theorem Holds.toBelow (h : Holds b p b' q) : p.Below q := by
  induction h with
  | refl => exact .refl
  | head item _ ih => exact .head (mem_children.2 ⟨_, item⟩) ih

theorem exists_holds (h : p.Below q) (b : Bool) : ∃ b', Holds b p b' q := by
  induction h using Relation.ReflTransGen.head_induction_on generalizing b with
  | refl => exact ⟨b, .refl b q⟩
  | head hchild _ ih =>
    obtain ⟨nesting, item⟩ := mem_children.1 hchild
    obtain ⟨b', h⟩ := ih (nesting.filters b)
    exact ⟨b', .head item h⟩

/-- Whether a phrase is as `P` says, or one inside it, at most a given number of steps below it. -/
def anyBelow (P : Phrase → Bool) : Nat → Phrase → Bool
  | 0, p => P p
  | n + 1, p => P p || p.children.any (anyBelow P n)

theorem exists_of_anyBelow {P : Phrase → Bool} {n : Nat} (h : p.anyBelow P n = true) :
    ∃ q, p.Below q ∧ P q = true := by
  induction n generalizing p with
  | zero => exact ⟨p, .refl, h⟩
  | succ n ih =>
    simp only [anyBelow, Bool.or_eq_true, List.any_eq_true] at h
    rcases h with h | ⟨r, hr, h⟩
    · exact ⟨p, .refl, h⟩
    · obtain ⟨q, hq, hP⟩ := ih h
      exact ⟨q, .head hr hq, hP⟩

/-- Whether a phrase and all those inside it are as `P` says, if they are less than a given number
of steps below it. -/
def allBelow (P : Phrase → Bool) : Nat → Phrase → Bool
  | 0, _ => false
  | n + 1, p => P p && p.children.all (allBelow P n)

theorem of_allBelow {P : Phrase → Bool} {n : Nat} (h : p.allBelow P n = true) (hq : p.Below q) :
    P q = true := by
  induction n generalizing p with
  | zero => cases h
  | succ n ih =>
    obtain ⟨hp, hchildren⟩ := Bool.and_eq_true_iff.1 h
    obtain rfl | ⟨r, hr, hq⟩ := Relation.ReflTransGen.cases_head hq
    · exact hp
    · exact ih (List.all_eq_true.1 hchildren r hr) hq

/-- Only the command `WHERE` holds the condition of a filter. -/
theorem exists_of_filter_mem_items (h : .phrase .filter q ∈ p.items) :
    ∃ keyword condition span, p = .processingCommand (.command keyword (.filter condition) span) ∧
      q = .boolean condition := by
  cases p with
  | processingCommand command =>
    cases command with
    | command keyword clause span =>
      cases clause with
      | filter condition =>
        obtain rfl : q = .boolean condition := by simpa [items, ProcessingClause.items] using h
        exact ⟨keyword, condition, span, rfl, rfl⟩
      | _ => simp [items, ProcessingClause.items] at h
    | error span => simp [items] at h
  | sourceCommand command =>
    cases command with
    | command keyword clause span => cases clause <;> simp [items, SourceClause.items] at h
    | error span => simp [items] at h
  | query q => cases q <;> simp [items] at h
  | boolean e => cases e <;> simp [items, BooleanExpr.items, Item.negation] at h
  | value v => cases v <;> simp [items, ValueExpr.items] at h
  | operator e => cases e <;> simp [items, OperatorExpr.items] at h
  | primary e => cases e <;> simp [items, PrimaryExpr.items] at h
  | scalarArgument a => cases a <;> simp [items] at h
  | fieldArgument a => cases a <;> simp [items] at h
  | constant c => cases c <;> simp [items, Constant.items] at h
  | qualifiedName => simp [items, Item.phrase_mem_separated] at h
  | field | renameClause | commandOption | sortKey | enrichClause | predicateCall | timeSpan
  | number | string | truthValue | identifier => simp [items, Item.assigned] at h

/-- Where predicates may be used is inside the condition of a filter. -/
theorem Holds.exists_filter (h : Holds b p b' q) (hb : b = false) (hb' : b' = true) :
    ∃ keyword condition span,
      p.Below (.processingCommand (.command keyword (.filter condition) span)) ∧
        (Phrase.boolean condition).Below q := by
  induction h with
  | refl => simp_all
  | @head b b' nesting p q r item inside ih =>
    cases nesting with
    | filter =>
      obtain ⟨keyword, condition, span, rfl, rfl⟩ := exists_of_filter_mem_items item
      exact ⟨keyword, condition, span, .refl, inside.toBelow⟩
    | same | deeper =>
      obtain ⟨keyword, condition, span, hp, hq⟩ := ih hb hb'
      exact ⟨keyword, condition, span, .head (mem_children.2 ⟨_, item⟩) hp, hq⟩

/-! ## Well-formed phrases -/

/-- The grammar allows a phrase, and all those inside it, to stand as they do, but for commands that
were not read. -/
def WellFormed (b : Bool) (p : Phrase) : Prop :=
  ∀ b' q, Holds b p b' q → q.isError = false → q.Admissible b'

theorem wellFormed_iff : p.WellFormed b ↔ (p.isError = false → p.Admissible b) ∧
    ∀ nesting q, .phrase nesting q ∈ p.items → q.WellFormed (nesting.filters b) := by
  constructor
  · exact fun h => ⟨h b p (.refl b p), fun nesting q item b' r hr => h b' r (.head item hr)⟩
  · rintro ⟨hself, hinside⟩ b' r hr
    cases hr with
    | refl => exact hself
    | head item inside => exact hinside _ _ item b' r inside

/-- A command that was not read has nothing inside it. -/
theorem wellFormed_error (b : Bool) (span : Span) :
    (sourceCommand (.error span)).WellFormed b ∧ (processingCommand (.error span)).WellFormed b :=
  ⟨wellFormed_iff.2 ⟨by simp [isError], by simp [items]⟩,
    wellFormed_iff.2 ⟨by simp [isError], by simp [items]⟩⟩

theorem WellFormed.source {command : SourceCommand} (h : (sourceCommand command).WellFormed b) :
    (query (.source command)).WellFormed b := by
  rw [wellFormed_iff]
  refine ⟨fun _ => trivial, fun nesting q item => ?_⟩
  obtain ⟨rfl, rfl⟩ := Item.phrase.inj (List.mem_singleton.1 item)
  exact h

theorem WellFormed.pipe {q : Query} {command : ProcessingCommand} (bar : Token)
    (hq : (query q).WellFormed b) (h : (processingCommand command).WellFormed b) :
    (query (.pipe q bar command)).WellFormed b := by
  rw [wellFormed_iff]
  refine ⟨fun _ => trivial, fun nesting r item => ?_⟩
  obtain ⟨rfl, rfl⟩ | ⟨rfl, rfl⟩ : nesting = .same ∧ r = query q ∨
      nesting = .same ∧ r = processingCommand command := by simpa [items] using item
  · exact hq
  · exact h

theorem WellFormed.explain {q : Query} (keyword : Token) (span : Span)
    (h : (query q).WellFormed b) :
    (sourceCommand (.command keyword (.explain q) span)).WellFormed b := by
  rw [wellFormed_iff]
  refine ⟨fun _ => trivial, fun nesting r item => ?_⟩
  obtain ⟨rfl, rfl⟩ : nesting = .deeper ∧ r = query q := by
    simpa [items, SourceClause.items] using item
  exact h

end Phrase

/-- The grammar derives well-formed phrases only. -/
theorem Yields.wellFormed {ρ : Token → Token} {exact : Bool} {c : Context} {items : List Item}
    {ps : List Placed} {nesting : Nesting} {p : Phrase} (h : Yields ρ exact c items ps)
    (hp : .phrase nesting p ∈ items) : p.WellFormed (nesting.filters c.filters) := by
  induction h generalizing nesting p with
  | nil => cases hp
  | terminal _ _ ih => exact ih (by simpa using hp)
  | @phrase c d nesting' p' items ps qs inside admissible _ _ _ ihp ih =>
    rcases List.mem_cons.1 hp with hp | hp
    · obtain ⟨rfl, rfl⟩ := Item.phrase.inj hp
      rw [← Context.filters_inside inside]
      exact Phrase.wellFormed_iff.2 ⟨fun _ => admissible, fun _ _ => ihp⟩
    · exact ih hp

namespace Grammar

open Rule

variable {s t : State} {n : Nat} {query : Rule Query} {q : Query}

theorem Builds.wellFormed {c : Context} {p : Phrase} {us : List Placed} (h : Builds c p us) :
    p.WellFormed c.filters := Yields.wellFormed h (List.mem_singleton_self _)

/-! ## Runs -/

/-- Queries one level deeper are well formed. -/
def MakesWellFormed (query : Rule Query) : Prop :=
  ∀ s : State, query.Makes s fun q _ _ => (Phrase.query q).WellFormed s.scope.predicates

theorem makes_subquery_wellFormed (hq : MakesWellFormed query) :
    (subquery query).Makes s fun q _ _ => (Phrase.query q).WellFormed s.scope.predicates := by
  unfold subquery
  refine .ask_bind ((makes_expect rfl).bind fun _ us t ht _ => ?_)
  have hinner := hq { t with scope := { t.scope with subqueries := t.scope.subqueries + 1 } }
  refine (Makes.within (Q := fun q _ _ => (Phrase.query q).WellFormed s.scope.predicates)
    (hinner.mono fun q _ _ _ h => congrArg Scope.predicates ht.scope ▸ h)).bind
      fun q vs u _ hwf => (makes_expect rfl).bind fun _ ws v _ _ => ?_
  exact (Makes.change (Q := fun _ _ _ => True) (.single (.record rfl v _ _)) trivial).bind
    fun _ _ _ _ _ => .pure hwf

theorem makes_sourceCommand_wellFormed {inner : Expressions} (hi : inner.Repairs n)
    (hq : MakesWellFormed query) : (sourceCommand inner query).Makes s fun a _ =>
      fun _ => (Phrase.sourceCommand a).WellFormed s.scope.predicates := by
  by_cases hk : s.kind = .kwExplain
  · unfold sourceCommand
    refine .spanned ((Makes.change (Q := fun _ _ t => t = s.note _) (.single (.note s _)) rfl).bind
      fun _ us t _ hnote => .ask_bind (.ask_bind ?_))
    subst hnote
    have hkind : (s.note (.sourceCommand s.current)).kind = .kwExplain := hk
    rw [hkind]
    refine (makes_take (by rw [hkind]; decide)).bind fun keyword vs u hu _ => ?_
    have hscope : u.scope = s.scope := hu.scope
    refine .bind_pure ((makes_subquery_wellFormed hq).mono fun q ws v _ hwf span => ?_)
    rw [hscope] at hwf
    exact hwf.explain keyword span
  · exact (makes_sourceCommand_of_ne hi hk).mono fun a us t _ ⟨_, h⟩ => h.wellFormed

/-- The stages behind the first one keep a query well formed. -/
theorem wellFormed_stagesUpTo (levels : Nat) {first : SourceCommand} {b : Bool} (m : Nat)
    {stages l : List (Token × ProcessingCommand)} (hs : s.Regular) (hb : s.scope.predicates = b)
    (hq : (Phrase.query (Query.ofStages first stages.reverse)).WellFormed b)
    (h : stagesUpTo (expressions levels) m stages s = (l, t)) :
    (Phrase.query (Query.ofStages first l)).WellFormed b := by
  induction m generalizing stages s with
  | zero =>
    obtain ⟨rfl, -⟩ := Prod.mk.inj h
    exact hq
  | succ m ih =>
    by_cases hk : s.kind = .pipe
    · rw [stagesUpTo_pipe hk] at h
      have hbump : s.Steps true s.bump := .single (.bump s)
      generalize hstage : processingStage (expressions levels) s.bump = x at h
      obtain ⟨command, u⟩ := x
      obtain ⟨vs, hvs, hcommand⟩ := exists_gives_stage
        (Q := fun a _ => (Phrase.processingCommand a).WellFormed s.bump.scope.predicates)
        ((makes_processingCommand (expressions_repairs levels)).mono
          fun a us t _ h => Builds.wellFormed h.2)
        (hbump.regular hs) (fun i => (Phrase.wellFormed_error _ i).2) hstage
      rw [hbump.scope, hb] at hcommand
      refine ih (hvs.regular (hbump.regular hs)) ?_ ?_ h
      · rw [hvs.scope, hbump.scope, hb]
      · rw [List.reverse_cons, Query.ofStages_append_singleton]
        exact hq.pipe s.current hcommand
    · cases hbound : s.atBoundary with
      | true =>
        rw [stagesUpTo_boundary hk hbound] at h
        obtain ⟨rfl, -⟩ := Prod.mk.inj h
        exact hq
      | false =>
        rw [stagesUpTo_extraneous hk hbound] at h
        have hskip := steps_skipExtraneous s
        exact ih (hskip.regular hs) (hskip.scope ▸ hb) hq h

theorem wellFormed_pipeline (levels : Nat) [Lawful true query] (hq : MakesWellFormed query)
    (hs : s.Regular) (h : pipeline (expressions levels) query s = (q, t)) :
    (Phrase.query q).WellFormed s.scope.predicates := by
  rw [pipeline] at h
  generalize hstage : sourceStage (expressions levels) query s = x at h
  obtain ⟨first, u⟩ := x
  obtain ⟨us, hus, hfirst⟩ := exists_gives_stage
    (makes_sourceCommand_wellFormed (expressions_repairs levels) hq) hs
    (fun i => (Phrase.wellFormed_error _ i).1) hstage
  cases hl : stagesUpTo (expressions levels) u.stream.remaining [] u with
  | mk l v =>
    simp only [hl, Prod.mk.injEq] at h
    obtain ⟨rfl, -⟩ := h
    have hquery : (Phrase.query (Query.ofStages first [].reverse)).WellFormed s.scope.predicates :=
      hfirst.source
    exact wellFormed_stagesUpTo levels u.stream.remaining (hus.regular hs)
      (congrArg Scope.predicates hus.scope) hquery hl

/-- On all levels of nesting the query that is read is well formed. -/
theorem wellFormed_query (levels : Nat) (hs : s.Regular) (h : Grammar.query levels s = (q, t)) :
    (Phrase.query q).WellFormed s.scope.predicates := by
  induction levels generalizing s t q with
  | zero =>
    rw [query_zero] at h
    refine wellFormed_pipeline 0 (fun s => ?_) hs h
    exact .giveUp
  | succ levels ih =>
    rw [query_succ] at h
    refine wellFormed_pipeline (levels + 1) (fun s hs q t hrun => ?_) hs h
    have hrun : Grammar.query levels s = (q, t) := by
      rw [run_total, Prod.mk.injEq, Option.some.injEq] at hrun
      exact Prod.ext hrun.1 hrun.2
    have hsteps := steps_query levels s
    rw [hrun] at hsteps
    exact ⟨[], .of_steps hsteps, ih hs hrun⟩

theorem makes_wholeExpression_wellFormed (levels : Nat) : (wholeExpression levels).Makes s
    fun e _ _ => (Phrase.boolean e).WellFormed s.scope.predicates := by
  unfold wholeExpression
  refine ((expressions_repairs levels).boolean (by decide) s).bind fun e us t _ ⟨h, _, _⟩ =>
    .ask_bind ?_
  split
  · exact .pure (h.wellFormed (List.mem_singleton_self _))
  · exact .giveUp

end Grammar

/-- The statement is well formed, whatever was reported. -/
theorem wellFormed_parse (tokens : List Token) (config : Config) :
    (Phrase.query (parse tokens config).statement.query).WellFormed false :=
  Grammar.wellFormed_query config.maxDepth (Grammar.State.regular_start config tokens) rfl

/-- An expression that is read by itself is well formed, and has no tests or predicates. -/
theorem wellFormed_parseExpression {text : String} {e : BooleanExpr}
    (h : (parseExpression text).result = .ok e) : (Phrase.boolean e).WellFormed false := by
  obtain ⟨t, hrun, -⟩ := parseExpression_eq_ok_iff.1 h
  obtain ⟨us, -, hwf⟩ := Grammar.makes_wholeExpression_wellFormed _
    (Grammar.State.regular_start {} (tokenizeFrom .expression text)) _ _ hrun
  exact hwf

/-! ## Grouping -/

/-- The connective of a condition, where it is one. -/
def BooleanExpr.connective? : BooleanExpr → Option Connective
  | .connective op _ _ _ => some op
  | _ => none

/-- The infix operator of an arithmetic expression, where it has one. -/
def OperatorExpr.arithmeticOp? : OperatorExpr → Option ArithmeticOp
  | .binary op _ _ _ => some op
  | _ => none

/-- Whether an infix operator adds or takes away. -/
def ArithmeticOp.isAdditive : ArithmeticOp → Bool
  | add | sub => true
  | mul | div | mod => false

/-- The operand of `NOT` is no connective, `AND` binds more tightly than `OR`, and connectives group
to the left. -/
def BooleanExpr.Grouped : BooleanExpr → Prop
  | .not _ operand _ => operand.connective? = none
  | .connective .and left _ right => left.connective? ≠ some .or ∧ right.connective? = none
  | .connective .or _ _ right => right.connective? ≠ some .or
  | .value _ | .isIn _ _ _ _ | .isMatch _ _ _ _ _ | .predicate _ => True

/-- The operand of a sign has no infix operator, multiplication binds more tightly than addition,
and infix operators group to the left. -/
def OperatorExpr.Grouped : OperatorExpr → Prop
  | .signed _ _ operand _ => operand.arithmeticOp? = none
  | .binary op _ left right =>
    if op.isAdditive then ∀ o ∈ right.arithmeticOp?, o.isAdditive = false
    else (∀ o ∈ left.arithmeticOp?, o.isAdditive = false) ∧ right.arithmeticOp? = none
  | .primary _ | .aggregate _ _ _ | .scalar _ _ _ => True

/-- The operands of the operators of a phrase are grouped. -/
def Phrase.Grouped : Phrase → Prop
  | .boolean e => e.Grouped
  | .operator e => e.Grouped
  | _ => True

theorem BooleanExpr.le_leftPower {e : BooleanExpr} {n : Nat} (h : n ≤ e.power) :
    ∀ op ∈ e.connective?, n ≤ op.leftPower := by
  cases e <;> simp_all [connective?, power]

theorem OperatorExpr.le_leftPower {e : OperatorExpr} {n : Nat} (h : n ≤ e.power) :
    ∀ op ∈ e.arithmeticOp?, n ≤ op.leftPower := by
  cases e <;> simp_all [arithmeticOp?, power]

theorem ArithmeticOp.leftPower_eq (op : ArithmeticOp) :
    op.leftPower = if op.isAdditive then 1 else 2 := by
  cases op <;> rfl

theorem BooleanExpr.Admissible.grouped {b : Bool} {e : BooleanExpr} (h : e.Admissible b) :
    e.Grouped := by
  have none_of_lt {e : BooleanExpr} (h : 3 ≤ e.power) : e.connective? = none :=
    Option.eq_none_iff_forall_not_mem.2 fun op hop => by
      have := le_leftPower h op hop
      cases op <;> simp [Connective.leftPower] at this
  have ne_or {e : BooleanExpr} (h : 2 ≤ e.power) : e.connective? ≠ some .or := fun hop => by
    simpa [Connective.leftPower] using le_leftPower h .or hop
  cases e with
  | not operator operand span => exact none_of_lt (Nat.le_of_succ_le h)
  | connective op left operator right =>
    cases op with
    | and => exact ⟨ne_or h.1, none_of_lt h.2⟩
    | or => exact ne_or h.2
  | _ => trivial

theorem OperatorExpr.Admissible.grouped {e : OperatorExpr} (h : e.Admissible) : e.Grouped := by
  have none_of_lt {e : OperatorExpr} (h : 3 ≤ e.power) : e.arithmeticOp? = none :=
    Option.eq_none_iff_forall_not_mem.2 fun op hop => by
      have := le_leftPower h op hop
      cases op <;> simp [ArithmeticOp.leftPower] at this
  have not_additive {e : OperatorExpr} (h : 2 ≤ e.power) :
      ∀ op ∈ e.arithmeticOp?, op.isAdditive = false := fun op hop => by
    have := le_leftPower h op hop
    cases op <;> simp_all [ArithmeticOp.leftPower, ArithmeticOp.isAdditive]
  cases e with
  | signed sign operator operand span => exact none_of_lt h
  | binary op operator left right =>
    obtain ⟨hleft, hright⟩ := h
    rw [ArithmeticOp.leftPower_eq] at hleft
    rw [ArithmeticOp.rightPower, ArithmeticOp.leftPower_eq] at hright
    cases hop : op.isAdditive with
    | true =>
      simp only [hop, if_true] at hright
      simpa only [Grouped, hop, if_true] using not_additive hright
    | false =>
      simp only [hop, Bool.false_eq_true, if_false] at hleft hright
      simpa only [Grouped, hop, Bool.false_eq_true, if_false]
        using ⟨not_additive hleft, none_of_lt hright⟩
  | _ => trivial

namespace Phrase

variable {p q : Phrase} {b : Bool}

/-- What stands inside a well-formed phrase is admissible, but for commands that were not read. -/
theorem WellFormed.exists_admissible (h : p.WellFormed b) (hq : p.Below q)
    (herror : q.isError = false) : ∃ b', Holds b p b' q ∧ q.Admissible b' := by
  obtain ⟨b', hb'⟩ := exists_holds hq b
  exact ⟨b', hb', h b' q hb' herror⟩

theorem WellFormed.grouped (h : p.WellFormed b) (hq : p.Below q) : q.Grouped := by
  cases q with
  | boolean e =>
    obtain ⟨b', -, hadm⟩ := h.exists_admissible hq rfl
    exact BooleanExpr.Admissible.grouped hadm
  | operator e =>
    obtain ⟨b', -, hadm⟩ := h.exists_admissible hq rfl
    exact OperatorExpr.Admissible.grouped hadm
  | _ => trivial

end Phrase

/-- In whatever is read, of a statement with mistakes or without, or of an expression by itself,
operands are grouped as precedence and associativity ask for. -/
theorem grouped_parse (tokens : List Token) (config : Config) (text : String) :
    (∀ p, (Phrase.query (parse tokens config).statement.query).Below p → p.Grouped) ∧
      ∀ e, (parseExpression text).result = .ok e → ∀ p, (Phrase.boolean e).Below p → p.Grouped :=
  ⟨fun _ hp => (wellFormed_parse tokens config).grouped hp,
    fun _ he _ hp => (wellFormed_parseExpression he).grouped hp⟩

/-- The connective of a phrase that is one. -/
def Phrase.connective? : Phrase → Option Connective
  | .boolean e => e.connective?
  | _ => none

theorem grouped_parse_row :
    (parse (tokenize "ROW 1 - 2 * -b OR NOT c AND d | LIMIT") {}).isOk = false ∧
      (∃ p, (Phrase.query
          (parse (tokenize "ROW 1 - 2 * -b OR NOT c AND d | LIMIT") {}).statement.query).Below p ∧
        p.connective? = some .or ∧ p.Grouped) ∧
      ∃ e, (parseExpression "NOT c AND d").result = .ok e ∧ e.connective? = some .and ∧
        (Phrase.boolean e).Grouped := by
  obtain ⟨p, hp, hop⟩ := Phrase.exists_of_anyBelow (P := fun p => p.connective? == some .or)
    (n := 8) (p := .query
      (parse (tokenize "ROW 1 - 2 * -b OR NOT c AND d | LIMIT") {}).statement.query)
    (by decide +kernel)
  have hand : (parseExpression "NOT c AND d").result.toOption.bind (·.connective?) = some .and := by
    decide +kernel
  have hgrouped := grouped_parse (tokenize "ROW 1 - 2 * -b OR NOT c AND d | LIMIT") {}
    "NOT c AND d"
  refine ⟨by decide +kernel, ⟨p, hp, eq_of_beq hop, hgrouped.1 p hp⟩, ?_⟩
  cases he : (parseExpression "NOT c AND d").result with
  | error diagnostics => simp [he, Except.toOption] at hand
  | ok e => exact ⟨e, rfl, by simpa [he, Except.toOption] using hand, hgrouped.2 e he _ .refl⟩

/-! ## Places -/

/-- Whether a phrase is a test or a call of a predicate, which belong into filters. -/
def Phrase.isTest : Phrase → Bool
  | .boolean (.isIn _ _ _ _) | .boolean (.isMatch _ _ _ _ _) | .boolean (.predicate _) => true
  | _ => false

/-- The kinds of the names right inside a phrase. -/
def Phrase.nameKinds : Phrase → List Kind
  | .sourceCommand _ => [.sourceIdentifier, .quotedSourceIdentifier]
  | .processingCommand _ | .enrichClause _ => [.enrichIdentifier, .quotedEnrichIdentifier]
  | .operator (.aggregate _ _ _) => [.aggregateFunction]
  | .operator (.scalar _ _ _) => [.scalarFunction]
  | .predicateCall _ => [.predicateFunction]
  | _ => [.identifier, .quotedIdentifier]

/-- The lists of a processing command that have to name something. -/
def ProcessingClause.lists : ProcessingClause → List (List Phrase)
  | .eval fields => [fields.map .field]
  | .keep names | .drop names | .mvExpand names | .grok names _ => [names.map .qualifiedName]
  | .rename clauses => [clauses.map .renameClause]
  | .dissect names _ options =>
    names.map .qualifiedName :: options.toList.map (List.map .commandOption)
  | .sort keys => [keys.map .sortKey]
  | .stats fields grouping =>
    fields.toList.map (List.map .field) ++ grouping.toList.map (List.map .qualifiedName)
  | .enrich _ _ clauses => clauses.toList.map (List.map .enrichClause)
  | .limit _ | .filter _ => []

/-- The lists of a phrase that have to name something. -/
def Phrase.lists : Phrase → List (List Phrase)
  | .sourceCommand (.command _ (.indices names) _) => [names.map .identifier]
  | .sourceCommand (.command _ (.row fields) _) => [fields.map .field]
  | .processingCommand (.command _ clause _) => clause.lists
  | .boolean (.isIn _ _ items _) => [items.map .value]
  | .constant (.numericArray values _) => [values.map .number]
  | .constant (.booleanArray values _) => [values.map .truthValue]
  | .constant (.stringArray values _) => [values.map .string]
  | .qualifiedName name => [name.parts.map .identifier]
  | _ => []

namespace Phrase

variable {p q : Phrase} {b : Bool}

/-- A command that was not read has nothing in it. -/
theorem eq_error (h : p.isError = true) :
    ∃ span, p = sourceCommand (.error span) ∨ p = processingCommand (.error span) := by
  cases p with
  | sourceCommand a => cases a <;> simp_all [isError]
  | processingCommand a => cases a <;> simp_all [isError]
  | _ => cases h

theorem Admissible.eq_true_of_isTest (h : p.Admissible b) (ht : p.isTest = true) : b = true := by
  cases p with
  | boolean e => cases e <;> simp_all [isTest, Admissible, BooleanExpr.Admissible]
  | _ => cases ht

theorem ne_nil_of_optional {α : Type} {f : α → Phrase} {o : Option (List α)} (h : o ≠ some []) :
    ∀ l ∈ o.toList.map (List.map f), l ≠ [] := by
  cases o <;> simp_all

theorem Admissible.lists_ne_nil (h : p.Admissible b) : ∀ l ∈ p.lists, l ≠ [] := by
  cases p with
  | sourceCommand a =>
    cases a with
    | command keyword clause span =>
      cases clause <;> simp_all [lists, Admissible, SourceClause.Admissible]
    | error span => cases h
  | processingCommand a =>
    cases a with
    | command keyword clause span =>
      cases clause with
      | dissect names pattern options =>
        exact List.forall_mem_cons.2 ⟨by simpa using h.1, ne_nil_of_optional h.2⟩
      | stats fields grouping =>
        exact List.forall_mem_append.2 ⟨ne_nil_of_optional h.1, ne_nil_of_optional h.2⟩
      | enrich policy matchField clauses => exact ne_nil_of_optional h.2.2
      | _ => simp_all [lists, ProcessingClause.lists, Admissible, ProcessingClause.Admissible]
    | error span => cases h
  | boolean e => cases e <;> simp_all [lists, Admissible, BooleanExpr.Admissible]
  | constant c => cases c <;> simp_all [lists, Admissible, Constant.Admissible]
  | qualifiedName q => simp_all [lists, Admissible]
  | _ => simp [lists]

theorem Admissible.kind_mem_nameKinds (h : p.Admissible b) {i : Identifier}
    (hi : identifier i ∈ p.children) : i.kind ∈ p.nameKinds := by
  obtain ⟨nesting, item⟩ := mem_children.1 hi
  cases p with
  | sourceCommand a =>
    cases a with
    | command keyword clause span =>
      cases clause with
      | indices names =>
        obtain ⟨-, hmem⟩ : nesting = .same ∧ i ∈ names := by
          simpa [items, SourceClause.items] using item
        exact h.2 i hmem
      | _ => simp [items, SourceClause.items] at item
    | error span => cases h
  | processingCommand a =>
    cases a with
    | command keyword clause span =>
      cases clause with
      | enrich policy matchField clauses =>
        obtain ⟨-, rfl⟩ | ⟨hmem, -⟩ : nesting = .same ∧ i = policy ∨
            i ∈ matchField ∧ nesting = .same := by
          simpa [items, ProcessingClause.items] using item
        · exact h.1
        · exact h.2.1 i hmem
      | _ => simp [items, ProcessingClause.items] at item
    | error span => cases h
  | field f =>
    obtain ⟨hmem, -⟩ : i ∈ f.name ∧ nesting = .same := by
      simpa [items, Item.assigned] using item
    exact h i hmem
  | renameClause c =>
    obtain ⟨-, rfl⟩ : nesting = .same ∧ i = c.newName := by simpa [items] using item
    exact h
  | commandOption o =>
    obtain ⟨-, rfl⟩ : nesting = .same ∧ i = o.name := by simpa [items] using item
    exact h
  | enrichClause c =>
    obtain ⟨hmem, -⟩ | ⟨-, rfl⟩ : i ∈ c.newName ∧ nesting = .same ∨
        nesting = .same ∧ i = c.field := by simpa [items, Item.assigned] using item
    · exact h.1 i hmem
    · exact h.2
  | operator e =>
    cases e with
    | aggregate name args span =>
      obtain ⟨-, rfl⟩ : nesting = .same ∧ i = name := by
        simpa [items, OperatorExpr.items] using item
      exact List.mem_singleton.2 h
    | scalar name args span =>
      obtain ⟨-, rfl⟩ : nesting = .same ∧ i = name := by
        simpa [items, OperatorExpr.items] using item
      exact List.mem_singleton.2 h
    | _ => simp [items, OperatorExpr.items] at item
  | primary e =>
    cases e with
    | call name args span =>
      obtain ⟨-, rfl⟩ : nesting = .same ∧ i = name := by
        simpa [items, PrimaryExpr.items] using item
      exact h
    | _ => simp [items, PrimaryExpr.items] at item
  | predicateCall c =>
    obtain ⟨-, rfl⟩ : nesting = .same ∧ i = c.name := by simpa [items] using item
    exact List.mem_singleton.2 h
  | qualifiedName name =>
    obtain ⟨hmem, -⟩ : i ∈ name.parts ∧ nesting = .same := by
      simpa [items, Item.phrase_mem_separated, eq_comm] using item
    exact h.2 i hmem
  | query q => cases q <;> simp [items] at item
  | boolean e => cases e <;> simp [items, BooleanExpr.items, Item.negation] at item
  | value v => cases v <;> simp [items, ValueExpr.items] at item
  | scalarArgument a => cases a <;> simp [items] at item
  | fieldArgument a => cases a <;> simp [items] at item
  | constant c => cases c <;> simp [items, Constant.items] at item
  | sortKey | timeSpan | number | string | truthValue | identifier => simp [items] at item

/-- A phrase stands in its place under a root: tests and predicates stand in the condition of a
filter, names are of the kinds of their places and quoted as their kinds say, the count of `LIMIT`
is an integer, and the lists that have to name something do. -/
structure InPlace (p root : Phrase) : Prop where
  /-- Tests and predicates stand in the condition of a command `WHERE`. -/
  test (h : p.isTest = true) : ∃ keyword condition span,
    root.Below (.processingCommand (.command keyword (.filter condition) span)) ∧
      (Phrase.boolean condition).Below p
  /-- Names are of the kinds of their places. -/
  names {i : Identifier} (h : identifier i ∈ p.children) : i.kind ∈ p.nameKinds
  /-- A name is quoted where its kind is one of quoted names. -/
  quoted {i : Identifier} (h : p = identifier i) : i.quoted = i.kind.isQuotedIdentifier
  /-- The count of `LIMIT` is an integer. -/
  count {keyword : Token} {count : NumericValue} {span : Span}
    (h : p = processingCommand (.command keyword (.limit count) span)) : count.kind = .integer
  /-- Lists are not empty where they have to name something. -/
  lists : ∀ l ∈ p.lists, l ≠ []

theorem WellFormed.inPlace (h : p.WellFormed false) (hq : p.Below q) : q.InPlace p := by
  cases herror : q.isError with
  | true =>
    -- a command that was not read has nothing in it
    obtain ⟨span, rfl | rfl⟩ := eq_error herror <;>
      constructor <;> simp [isTest, children, items, lists]
  | false =>
    obtain ⟨b, hholds, hadm⟩ := h.exists_admissible hq herror
    exact {
      test := fun ht => hholds.exists_filter rfl (hadm.eq_true_of_isTest ht)
      names := hadm.kind_mem_nameKinds
      quoted := fun hi => by
        subst hi
        exact hadm.2
      count := fun hc => by
        subst hc
        exact hadm
      lists := hadm.lists_ne_nil }

end Phrase

/-- Whatever is read, with mistakes or without, each phrase of the statement stands in its place. -/
theorem placed_parse (tokens : List Token) (config : Config) (p : Phrase)
    (h : (Phrase.query (parse tokens config).statement.query).Below p) :
    p.InPlace (.query (parse tokens config).statement.query) :=
  (wellFormed_parse tokens config).inPlace h

theorem placed_parse_where :
    (parse (tokenize "FROM t | WHERE NOT x IN (1 | LIMIT") {}).isOk = false ∧
      ∃ p, (Phrase.query
          (parse (tokenize "FROM t | WHERE NOT x IN (1 | LIMIT") {}).statement.query).Below p ∧
        p.isTest = true ∧
        p.InPlace (.query
          (parse (tokenize "FROM t | WHERE NOT x IN (1 | LIMIT") {}).statement.query) := by
  obtain ⟨p, hp, htest⟩ := Phrase.exists_of_anyBelow (P := Phrase.isTest) (n := 6)
    (p := .query (parse (tokenize "FROM t | WHERE NOT x IN (1 | LIMIT") {}).statement.query)
    (by decide +kernel)
  exact ⟨by decide +kernel, p, hp, htest, placed_parse _ {} p hp⟩

end PipeQuery
