import PipeQuery.Proofs.CallStacks
import PipeQuery.Proofs.Mishaps
import PipeQuery.Proofs.SpanOrder
import PipeQuery.Proofs.StageReadings

/-!
# The context of a rule

Some rules change the context in which the rules that they call are read: how deep they stand, how
many brackets of `EXPLAIN` there are around them, and whether the predicates of filters may be used.
However such a call ends, the context is put back. So each rule leaves its context as it was, and so
does whatever is made out of rules; what it reads, reports and lays down comes behind what there was
(`Watch.Restored`).

`IsRule` lists the rules, each of them along with what it is to be, and the ways to put them
together.

## Main statement

* `restored_of_isRule`
-/

namespace PipeQuery

namespace Grammar

open State Rule

/-! ## The rules -/

/-- The rules for the leaves of the grammar. -/
inductive IsLeaf : {α : Type} → Rule α → Prop
  | ask {α : Type} (f : State → α) : IsLeaf (ask f)
  | take : IsLeaf take
  | accept (kind : Kind) : IsLeaf (accept kind)
  | expectAny (kinds : KindSet) : IsLeaf (expectAny kinds)
  | expect (kind : Kind) : IsLeaf (expect kind)
  | noViable {α : Type} (start : Nat) (kinds : KindSet) : IsLeaf (noViable start kinds : Rule α)
  | tooDeep {α : Type} : IsLeaf (tooDeep : Rule α)
  | identifierOf (kinds : KindSet) : IsLeaf (identifierOf kinds)
  | plainIdentifier : IsLeaf plainIdentifier
  | takeIdentifier : IsLeaf takeIdentifier
  | qualifiedName : IsLeaf qualifiedName
  | qualifiedNames : IsLeaf qualifiedNames
  | assigned? (kinds : KindSet) : IsLeaf (assigned? kinds)
  | numberOf (kinds : KindSet) : IsLeaf (numberOf kinds)
  | number : IsLeaf number
  | integer : IsLeaf integer
  | string : IsLeaf string
  | truthValue : IsLeaf truthValue
  | elements (start : Nat) : IsLeaf (elements start)
  | constantList : IsLeaf constantList
  | constant : IsLeaf constant
  | fieldArgument : IsLeaf fieldArgument
  | timeSpan : IsLeaf timeSpan
  | predicateCall : IsLeaf predicateCall
  | testNegation : IsLeaf testNegation
  | trialNegation : IsLeaf Watched.trialNegation
  | renameClause : IsLeaf renameClause
  | commandOption : IsLeaf commandOption
  | enrichClause : IsLeaf enrichClause

theorem IsLeaf.formed {α : Type} {r : Rule α} (h : IsLeaf r) : Formed r := by
  cases h with
  | trialNegation =>
    rw [Watched.trialNegation_eq]
    infer_instance
  | _ => infer_instance

/-- The watched rules with a number of levels left, each along with the rule that it is to be, and
whatever is put together out of them. -/
inductive IsRule : Nat → {α : Type} → Watched α → Rule α → Prop
  -- leaves
  | leaf {levels : Nat} {α : Type} {r : Rule α} (h : IsLeaf r) : IsRule levels (.lift r) r
  -- expressions
  | boolean (levels power : Nat) :
    IsRule levels ((Watched.expressions levels).boolean power)
      ((expressions levels).boolean power)
  | operator (levels power : Nat) :
    IsRule levels ((Watched.expressions levels).operator power)
      ((expressions levels).operator power)
  | value (levels : Nat) :
    IsRule levels (.value (Watched.expressions levels)) (value (expressions levels))
  | scalarArgument (levels : Nat) :
    IsRule levels (.scalarArgument (Watched.expressions levels))
      (scalarArgument (expressions levels))
  | primary (levels : Nat) :
    IsRule levels (.primary (Watched.expressions levels)) (primary (expressions levels))
  | operand (levels : Nat) :
    IsRule levels (.operand (Watched.expressions levels)) (operand (expressions levels))
  | operatorLink (levels power : Nat) :
    IsRule levels (.operatorLink (Watched.expressions levels) power)
      (operatorLink (expressions levels) power)
  | operatorChain (levels power : Nat) :
    IsRule levels (.operatorChain (Watched.expressions levels) power)
      (operatorChain (expressions levels) power)
  | test (levels start : Nat) (tested : ValueExpr) :
    IsRule levels (.test (Watched.expressions levels) start tested)
      (test (expressions levels) start tested)
  | condition (levels : Nat) :
    IsRule levels (.condition (Watched.expressions levels)) (condition (expressions levels))
  | connectiveLink (levels power : Nat) :
    IsRule levels (.connectiveLink (Watched.expressions levels) power)
      (connectiveLink (expressions levels) power)
  | connectiveChain (levels power : Nat) :
    IsRule levels (.connectiveChain (Watched.expressions levels) power)
      (connectiveChain (expressions levels) power)
  | wholeExpression (levels : Nat) :
    IsRule levels (Watched.wholeExpression levels) (wholeExpression levels)
  -- clauses and commands
  | field (levels : Nat) :
    IsRule levels (.field (Watched.expressions levels)) (field (expressions levels))
  | sortKey (levels : Nat) :
    IsRule levels (.sortKey (Watched.expressions levels)) (sortKey (expressions levels))
  | processingClause {levels : Nat} {kind : Kind} {x : Watched ProcessingClause}
    {r : Rule ProcessingClause}
    (hx : Watched.processingClause? (Watched.expressions levels) kind = some x)
    (hr : processingClause? (expressions levels) kind = some r) : IsRule levels x r
  | processingCommand (levels : Nat) :
    IsRule levels (.processingCommand (Watched.expressions levels))
      (processingCommand (expressions levels))
  | subquery (levels : Nat) :
    IsRule levels (.subquery (Watched.innerQuery levels)) (subquery (innerQuery levels))
  | sourceCommand (levels : Nat) :
    IsRule levels (.sourceCommand (Watched.expressions levels) (Watched.innerQuery levels))
      (sourceCommand (expressions levels) (innerQuery levels))
  -- stages and queries
  | sourceStage (levels : Nat) :
    IsRule levels (.sourceStage (Watched.expressions levels) (Watched.innerQuery levels))
      (total (sourceStage (expressions levels) (innerQuery levels)))
  | processingStage (levels : Nat) :
    IsRule levels (.processingStage (Watched.expressions levels))
      (total (processingStage (expressions levels)))
  | query (levels : Nat) : IsRule levels (Watched.query levels) (total (query levels))
  | statement (levels : Nat) :
    IsRule levels (Watched.statement levels) (total (statement levels))
  -- what is put together
  | pure {levels : Nat} {α : Type} (a : α) : IsRule levels (pure a) (pure a)
  | bind {levels : Nat} {α β : Type} {x : Watched α} {r : Rule α} {g : α → Watched β}
    {f : α → Rule β} (h : IsRule levels x r) (hg : ∀ a, IsRule levels (g a) (f a)) :
    IsRule levels (x >>= g) (r >>= f)
  | nested {levels : Nat} {α : Type} {x : Watched α} {r : Rule α} (h : IsRule levels x r) :
    IsRule (levels + 1) (.nested x) r
  | exhausted {α : Type} (x : Watched α) : IsRule 0 (.nested x) tooDeep
  | enclosed {levels : Nat} {α : Type} {x : Watched α} {r : Rule α} (h : IsRule levels x r) :
    IsRule levels (.enclosed x)
      (within (fun scope => { scope with subqueries := scope.subqueries + 1 }) r)
  | filtering {levels : Nat} {α : Type} {x : Watched α} {r : Rule α} (h : IsRule levels x r) :
    IsRule levels (.filtering x) (within ({ · with predicates := true }) r)
  | many {levels : Nat} {α : Type} {x : Watched (Option α)} {r : Rule (Option α)}
    (h : IsRule levels x r) : IsRule levels (.many x) (many r)
  | separated {levels : Nat} {α : Type} {x : Watched α} {r : Rule α} {kind : Kind}
    (hk : kind ≠ .endOfInput) (h : IsRule levels x r) :
    IsRule levels (.separated kind x) (separated kind r)

namespace IsRule

variable {levels : Nat} {α : Type} {x : Watched α} {r : Rule α}

theorem formed (h : IsRule levels x r) : Formed r := by
  induction h with
  | leaf h => exact h.formed
  | processingClause _ hr => exact formed_processingClause _ hr
  | bind _ _ h hg => exact .bind h hg
  | exhausted x => infer_instance
  | _ => infer_instance

theorem lawful (h : IsRule levels x r) : Lawful true r := h.formed.lawful

/-- Whatever may stand on whatever, a rule does what it is to do. -/
theorem follows (h : IsRule levels x r) (s : State) (f : Frame) :
    CallOrder.any.Follows levels f s x r := by
  have hE (levels : Nat) := CallOrder.servesExpressions .any (Nat.le_refl levels)
  have hquery (levels : Nat) := CallOrder.servesNested .any levels
  induction h generalizing s f with
  | leaf _ => exact .lift _
  | boolean levels power => exact (hE levels).boolean power s f trivial
  | operator levels power => exact (hE levels).operator power s f trivial
  | value levels => exact (hE levels).value s f trivial
  | scalarArgument levels => exact (hE levels).scalarArgument s f trivial
  | primary levels => exact (hE levels).primary s f trivial
  | operand levels => exact (hE levels).operand s f trivial
  | operatorLink levels power => exact (hE levels).operatorLink power s f trivial
  | operatorChain levels power => exact ((hE levels).operatorChain power s).of_any
  | test levels start tested => exact (hE levels).test start tested s f trivial
  | condition levels => exact (hE levels).condition s f trivial
  | connectiveLink levels power => exact (hE levels).connectiveLink power s f trivial
  | connectiveChain levels power => exact ((hE levels).connectiveChain power s).of_any
  | wholeExpression levels =>
    exact CallOrder.follows_wholeExpression .any (Nat.le_refl levels) s f trivial
  | field levels => exact (hE levels).field s f trivial
  | sortKey levels => exact (hE levels).sortKey s f trivial
  | @processingClause levels kind x r hx hr =>
    have h := (hE levels).processingClause kind
    rw [hx, hr] at h
    obtain ⟨h⟩ := h
    exact (h _ s (Nat.lt_succ_self _)).of_any
  | processingCommand levels => exact (hE levels).processingCommand s f trivial
  | subquery levels => exact CallOrder.serves_subquery (hquery levels) s f trivial
  | sourceCommand levels => exact (hE levels).sourceCommand (hquery levels) s f trivial
  | sourceStage levels => exact (hE levels).sourceStage (hquery levels) s f trivial
  | processingStage levels => exact (hE levels).processingStage s f trivial
  | query levels => exact CallOrder.serves_query .any (Nat.le_refl levels) s f trivial
  | statement levels =>
    exact CallOrder.follows_statement .any (Nat.le_refl levels) s f trivial
  | pure a => exact .pure a
  | bind h hg ih ihg =>
    have := h.lawful
    exact (ih s f).bind fun a t _ _ => ihg a t f
  | nested _ ih => exact .nested (ih s f)
  | exhausted x => exact .nested_zero
  | enclosed h ih =>
    have := h.lawful
    exact .inside rfl (ih _ f)
  | filtering h ih =>
    have := h.lawful
    exact .inside rfl (ih _ f)
  | many h ih =>
    have := h.lawful
    exact .many fun t _ => ih t f
  | separated hk h ih =>
    have := h.lawful
    unfold Watched.separated Grammar.separated
    exact .called ((ih s _).bind fun first t _ _ => (CallOrder.Follows.many fun u _ =>
      .behind hk fun v _ => ih v _).bind fun rest u _ _ => .pure _) trivial

end IsRule

/-! ## What rules put back -/

/-- No step takes a region back. -/
theorem State.Steps.prefix_regions {recording : Bool} {s t : State} (h : s.Steps recording t) :
    s.regions.toList <+: t.regions.toList := by
  induction h with
  | refl => exact List.prefix_rfl
  | tail _ hstep ih =>
    refine ih.trans ?_
    cases hstep with
    | bump | skip | note => exact List.prefix_rfl
    | report s d => simp
    | record _ s kind span => simp [State.record]

/-- The context is as it was; the run has only gone on, and has added to what it reports and lays
down. -/
structure Watch.Restored (w v : Watch) : Prop where
  /-- As many expressions and queries are being read. -/
  depth : v.depth = w.depth
  /-- The same calls are being answered. -/
  stack : v.stack = w.stack
  /-- There are as many brackets around the rules, and the same predicates may be used. -/
  scope : v.state.scope = w.state.scope
  /-- The text is to be read in the same way. -/
  config : v.state.config = w.state.config
  /-- Some of the tokens that were left have been read, in their order. -/
  reads : ∃ ps, w.state.stream.Reads ps v.state.stream
  /-- The next token is no earlier one. -/
  position : w.state.position ≤ v.state.position
  /-- What was reported comes behind what had been reported. -/
  diagnostics : w.state.diagnostics.toList <+: v.state.diagnostics.toList
  /-- What was laid down comes behind what had been laid down. -/
  regions : w.state.regions.toList <+: v.state.regions.toList

end Grammar

open Grammar

/-- Whatever rule is read, from whatever state, and whether it answers or gives up: it does what it
is to do, and puts its context back. -/
theorem restored_of_isRule {α : Type} {x : Watched α} {r : Rule α} {w : Watch}
    (h : IsRule w.levels x r) (hs : w.state.stream.Valid) :
    ((x w).1, (x w).2.state) = r.run w.state ∧ w.Restored (x w).2 := by
  have hsteps : w.state.Steps true (r.run w.state).2 := h.lawful.steps w.state
  obtain ⟨calls, hrun, -⟩ := h.follows w.state ⟨.query, 0⟩ hs w rfl rfl
  obtain ⟨ps, hps⟩ := hsteps.reads
  rw [hrun]
  exact ⟨rfl, {
    depth := rfl
    stack := rfl
    scope := hsteps.scope
    config := hsteps.config
    reads := ⟨ps, hps⟩
    position := hs.position_le hps
    diagnostics := hsteps.prefix_diagnostics
    regions := hsteps.prefix_regions }⟩

/-- In brackets of `EXPLAIN`, a filter whose condition nests too deep. -/
def deepFilter : Watch :=
  { Watch.start { maxDepth := 3 } [⟨.kwWhere, "WHERE", 0, 5, 1, 0⟩, ⟨.kwNot, "NOT", 6, 9, 1, 6⟩,
      ⟨.kwNot, "NOT", 10, 13, 1, 10⟩, ⟨.identifier, "a", 14, 15, 1, 14⟩] with depth := 1 }.rescope
    fun _ => ⟨1, false⟩

/-- The rule gives up where the predicates may be used and two conditions are being read, and the
context is as it was in front of it. -/
theorem restored_of_isRule_deepFilter :
    ((Watched.processingCommand (Watched.expressions 2)) deepFilter).1 = none ∧
      deepFilter.Restored ((Watched.processingCommand (Watched.expressions 2)) deepFilter).2 :=
  ⟨by decide +kernel, (restored_of_isRule (w := deepFilter) (IsRule.processingCommand 2)
    (TokenStream.valid_ofTokens _)).2⟩

end PipeQuery
