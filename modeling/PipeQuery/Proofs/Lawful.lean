import PipeQuery.Proofs.Steps

/-!
# The rules are lawful

Every rule of the grammar runs in steps and gives up only with a diagnostic. Most of it is found by
instance resolution; a rule that looks at the kind of the next token is taken apart by cases first.
Only the rules that read a query in brackets lay down regions.
-/

namespace PipeQuery.Grammar

open Rule State

variable {recording : Bool}

/-! ## Names and constants -/

instance (kinds : KindSet) : Lawful recording (identifierOf kinds) := by
  unfold identifierOf; infer_instance

instance : Lawful recording plainIdentifier := by unfold plainIdentifier; infer_instance

instance : Lawful recording takeIdentifier := by unfold takeIdentifier; infer_instance

instance : Lawful recording qualifiedName := by unfold qualifiedName; infer_instance

instance : Lawful recording qualifiedNames := by unfold qualifiedNames; infer_instance

instance (kinds : KindSet) : Lawful recording (assigned? kinds) := by
  unfold assigned?; infer_instance

instance (kinds : KindSet) : Lawful recording (numberOf kinds) := by
  unfold numberOf; infer_instance

instance : Lawful recording number := by unfold number; infer_instance

instance : Lawful recording integer := by unfold integer; infer_instance

instance : Lawful recording string := by unfold string; infer_instance

instance : Lawful recording truthValue := by unfold truthValue; infer_instance

instance (start : Nat) : Lawful recording (elements start) := by
  unfold elements
  refine .bind fun kind => ?_
  split <;> infer_instance

instance : Lawful recording constantList := by unfold constantList; infer_instance

instance : Lawful recording constant := by
  unfold constant
  refine .bind fun kind => ?_
  split <;> infer_instance

instance : Lawful recording fieldArgument := by
  unfold fieldArgument
  refine .bind fun kind => ?_
  split <;> infer_instance

instance : Lawful recording timeSpan := by unfold timeSpan; infer_instance

/-! ## Expressions -/

/-- Rules for expressions all of which are lawful. -/
class Expressions.Lawful (recording : Bool) (inner : Expressions) : Prop where
  boolean (power : Nat) : Rule.Lawful recording (inner.boolean power)
  operator (power : Nat) : Rule.Lawful recording (inner.operator power)

attribute [instance] Expressions.Lawful.boolean Expressions.Lawful.operator

section

variable (inner : Expressions) [inner.Lawful recording]

instance : Lawful recording (value inner) := by
  unfold value
  refine .bind fun left => .bind fun compared => ?_
  split
  · refine .bind fun operator => ?_
    split <;> infer_instance
  · infer_instance

instance : Lawful recording (scalarArgument inner) := by unfold scalarArgument; infer_instance

instance : Lawful recording (primary inner) := by unfold primary; infer_instance

instance : Lawful recording (operand inner) := by
  unfold operand
  refine .bind fun kind => ?_
  split <;> infer_instance

instance {O T : Type} (ofKind? : Kind → Option O) (left : O → Nat) (right : O → Rule T)
    [∀ op, Lawful recording (right op)] (power : Nat) :
    Lawful recording (linkOf ofKind? left right power) := by
  unfold linkOf
  refine .bind fun kind => ?_
  split <;> infer_instance

instance (power : Nat) : Lawful recording (operatorLink inner power) := by
  unfold operatorLink; infer_instance

instance (power : Nat) : Lawful recording (operatorChain inner power) := by
  unfold operatorChain; infer_instance

instance : Lawful recording predicateCall := by
  unfold predicateCall; infer_instance

instance : Lawful recording testNegation := by unfold testNegation; infer_instance

instance (start : Nat) (tested : ValueExpr) : Lawful recording (test inner start tested) := by
  unfold test
  refine .bind fun negation => .bind fun kind => ?_
  split
  · infer_instance
  · split <;> infer_instance

instance : Lawful recording (condition inner) := by unfold condition; infer_instance

instance (power : Nat) : Lawful recording (connectiveLink inner power) := by
  unfold connectiveLink; infer_instance

instance (power : Nat) : Lawful recording (connectiveChain inner power) := by
  unfold connectiveChain; infer_instance

end

instance (levels : Nat) : (expressions levels).Lawful recording := by
  induction levels with
  | zero => exact ⟨fun _ => by unfold expressions; infer_instance,
      fun _ => by unfold expressions; infer_instance⟩
  | succ levels ih =>
    exact ⟨fun power => inferInstanceAs (Lawful recording (connectiveChain (expressions levels) power)),
      fun power => inferInstanceAs (Lawful recording (operatorChain (expressions levels) power))⟩

/-! ## Commands -/

section

variable (inner : Expressions) [inner.Lawful recording]

instance : Lawful recording (field inner) := by unfold field; infer_instance

instance : Lawful recording (fields inner) := by unfold fields; infer_instance

instance : Lawful recording renameClause := by unfold renameClause; infer_instance

instance : Lawful recording commandOption := by unfold commandOption; infer_instance

instance : Lawful recording (sortKey inner) := by unfold sortKey; infer_instance

instance : Lawful recording enrichClause := by unfold enrichClause; infer_instance

theorem lawful_processingClause (recording : Bool) [inner.Lawful recording] {kind : Kind}
    {clause : Rule ProcessingClause} (h : processingClause? inner kind = some clause) :
    Lawful recording clause := by
  unfold processingClause? at h
  split at h <;> cases h <;> infer_instance

instance : Lawful recording (processingCommand inner) := by
  unfold processingCommand
  refine .spanned (.bind fun noted => .bind fun kind => ?_)
  cases h : processingClause? inner kind with
  | none => infer_instance
  | some clause =>
    have := lawful_processingClause inner recording h
    infer_instance

end

/-! ## Queries -/

/-- A rule that never gives up. -/
def Rule.total {α : Type} (f : State → α × State) : Rule α := fun s => (some (f s).1, (f s).2)

@[simp] theorem Rule.run_total {α : Type} (f : State → α × State) (s : State) :
    (total f).run s = (some (f s).1, (f s).2) := rfl

theorem query_zero : query 0 = pipeline (expressions 0) tooDeep := rfl

theorem query_succ (n : Nat) :
    query (n + 1) = pipeline (expressions (n + 1)) (.total (query n)) := rfl

theorem lawful_total {α : Type} {f : State → α × State}
    (h : ∀ s : State, s.Steps recording (f s).2) : Lawful recording (total f) where
  steps := h
  blames s hs h := by simp at h

theorem steps_passOver (n : Nat) (s : State) : s.Steps recording (s.passOver n) := by
  induction n generalizing s with
  | zero => exact .refl
  | succ n ih =>
    rw [passOver]
    split
    · exact .refl
    · exact .head (.skip s) (ih s.skip)

theorem steps_resync (s : State) (start : Nat) : s.Steps true (s.resync start).2 :=
  ((steps_passOver s.stream.remaining s).tail (.note _ _)).tail (.record rfl _ _ _)

theorem steps_skipExtraneous (s : State) : s.Steps true s.skipExtraneous :=
  .head (.report s _) (steps_resync _ _)

section

variable (inner : Expressions) [inner.Lawful true] (query : Rule Query) [Lawful true query]

instance : Lawful true (subquery query) := by unfold subquery; infer_instance

instance : Lawful true (sourceCommand inner query) := by
  unfold sourceCommand
  refine .spanned (.bind fun noted => .bind fun start => .bind fun kind => ?_)
  split
  · infer_instance
  · infer_instance
  · infer_instance
  · refine .bind fun next => ?_
    split <;> infer_instance
  · infer_instance

theorem steps_stage {α : Type} (r : Rule α) [hr : Lawful true r] (kind : Kind) (span : α → Span)
    (error : Span → α) (s : State) : s.Steps true (stage r kind span error s).2 := by
  have h := hr.steps s
  obtain ⟨a, t, hrun, hstage⟩ | ⟨t, hrun, hstage⟩ := stage_cases r kind span error s
  · rw [hrun] at h
    rw [hstage]
    exact h.tail (.record rfl t kind (span a))
  · rw [hrun] at h
    rw [hstage]
    exact h.trans (steps_resync t s.position)

theorem steps_stagesUpTo (n : Nat) (stages : List (Token × ProcessingCommand)) (s : State) :
    s.Steps true (stagesUpTo inner n stages s).2 := by
  induction n generalizing stages s with
  | zero => exact .refl
  | succ n ih =>
    rw [stagesUpTo]
    split
    · exact (Relation.ReflTransGen.head (.bump s)
        (steps_stage (processingCommand inner) _ _ _ s.bump)).trans (ih _ _)
    · split
      · exact .refl
      · exact (steps_skipExtraneous s).trans (ih _ _)

theorem steps_pipeline (s : State) : s.Steps true (pipeline inner query s).2 :=
  (steps_stage (sourceCommand inner query) _ _ _ s).trans (steps_stagesUpTo inner _ _ _)

end

theorem steps_query (levels : Nat) (s : State) : s.Steps true (query levels s).2 := by
  induction levels generalizing s with
  | zero =>
    rw [query_zero]
    exact steps_pipeline (expressions 0) tooDeep s
  | succ levels ih =>
    have : Lawful true (total (query levels)) := lawful_total ih
    rw [query_succ]
    exact steps_pipeline (expressions (levels + 1)) (total (query levels)) s

instance (levels : Nat) : Lawful true (total (query levels)) := lawful_total (steps_query levels)

/-- The rule for a query in brackets, if queries nest at most a given number of levels deep. -/
def innerQuery : Nat → Rule Query
  | 0 => tooDeep
  | n + 1 => .total (query n)

theorem query_eq (n : Nat) : query n = pipeline (expressions n) (innerQuery n) := by
  cases n <;> rfl

instance (levels : Nat) : Lawful true (innerQuery levels) := by
  cases levels <;> unfold innerQuery <;> infer_instance

end PipeQuery.Grammar
