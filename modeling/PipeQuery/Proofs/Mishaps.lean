import PipeQuery.Proofs.NestingLimit

/-!
# Mishaps

A run takes down where it passes over a token, takes one for granted, holds a diagnostic back or
goes on behind a stage, and it lays down an error for each stretch that it passes over. These are
its mishaps (`State.mishaps`). Where nothing is reported there is none of them
(`Rule.Formed.mishaps_eq`).

All the rules of the grammar are put together out of few things that are done to a state
(`Rule.Formed`). Of each of these it is seen at once; how a rule is put together is found by
instance resolution.
-/

namespace PipeQuery

/-- Whether the event is a mishap: tokens are passed over or taken for granted, or a diagnostic is
held back. -/
def Event.isMishap : Event → Bool
  | deleting _ | inserting _ _ | suppressing _ | resynchronised _ _ => true
  | _ => false

namespace Grammar

open State Rule

/-- What went wrong in a run: the mishaps that it took down, and the errors that it laid down. -/
def State.mishaps (s : State) : List Event × List Region :=
  (s.events.toList.filter Event.isMishap, s.regions.toList.filter (·.kind == .error))

/-- An expected token is the next one, unless there is a diagnostic behind it. -/
theorem State.Regular.expectAny {s : State} (hs : s.Regular) (expected : KindSet) :
    (expectAny expected).run s = (some s.current, s.bump) ∨
      ((expectAny expected).run s).2.diagnostics ≠ #[] := by
  have hnote (e : Event) : (s.note e).Regular := (Step.note s e : Step true s _).regular hs
  obtain ⟨-, h⟩ | ⟨-, -, -, -, h⟩ | ⟨-, -, -, h⟩ | ⟨-, -, h⟩ := expectAny_cases expected s
  · exact .inl h
  · exact .inr (h ▸ (hnote _).diagnostics_report _)
  · exact .inr (h ▸ (hnote _).diagnostics_report _)
  · exact .inr (h ▸ hs.diagnostics_report _)

/-- What stands behind a whole command is passed over with a diagnostic. -/
theorem State.Regular.diagnostics_skipExtraneous {s : State} (hs : s.Regular) :
    s.skipExtraneous.diagnostics ≠ #[] :=
  fun hd => hs.diagnostics_report _ ((steps_resync _ _).diagnostics hd)

/-! ## How rules are put together -/

/-- A rule that is put together out of what the grammar does to a state. -/
class inductive Rule.Formed : {α : Type} → Rule α → Prop
  /-- A value. -/
  | pure {α : Type} (a : α) : Formed (pure a)
  /-- A rule behind another one. -/
  | bind {α β : Type} {r : Rule α} {f : α → Rule β} (first : Formed r) (rest : ∀ a, Formed (f a)) :
    Formed (r >>= f)
  /-- A rule that depends on the state. -/
  | choose {α : Type} {f : State → Rule α} (each : ∀ s, Formed (f s)) : Formed fun s => f s s
  /-- A token is matched. -/
  | take : Formed take
  /-- A token is matched, or a small mistake is repaired. -/
  | expectAny (expected : KindSet) : Formed (expectAny expected)
  /-- A token is passed over. -/
  | skip : Formed (change State.skip)
  /-- An event is taken down that is no mishap. -/
  | note (event : State → Event) (ordinary : ∀ s, (event s).isMishap = false) :
    Formed (change fun s => s.note (event s))
  /-- A region is laid down that is no error. -/
  | record (kind : Kind) (span : State → Span) (ordinary : kind ≠ .error) :
    Formed (change fun s => s.record kind (span s))
  /-- A diagnostic is reported, and the rule gives up. -/
  | report {α : Type} (d : State → Diagnostic) : Formed (giveUp fun s => s.report (d s) : Rule α)
  /-- A rule is read in another scope. -/
  | within {α : Type} {r : Rule α} (scope : Scope → Scope) (inside : Formed r) :
    Formed (within scope r)
  /-- What stands behind a command is passed over. -/
  | skipExtraneous : Formed (change State.skipExtraneous)
  /-- A stage is read. -/
  | stage {α : Type} {r : Rule α} (command : Formed r) (kind : Kind) (span : α → Span)
    (error : Span → α) (ordinary : kind ≠ .error) : Formed (total (stage r kind span error))

namespace Rule.Formed

variable {α β : Type} {r : Rule α}

theorem lawful (h : Formed r) : Lawful true r := by
  induction h with
  | bind _ _ hr hf => exact .bind hf
  | choose _ h => exact ⟨fun s => (h s).steps s, fun s => (h s).blames s⟩
  | skipExtraneous => exact lawful_change steps_skipExtraneous
  | stage _ kind span error _ hr => exact lawful_total (steps_stage _ kind span error)
  | _ => infer_instance

/-- A run without a diagnostic has no mishaps. -/
theorem mishaps_eq (h : Formed r) {s : State} (hs : s.Regular)
    (hd : (r.run s).2.diagnostics = #[]) : (r.run s).2.mishaps = s.mishaps := by
  induction h generalizing s with
  | pure | take | skip => rfl
  | @bind α β r f hr hf ihr ihf =>
    have hlawful := hr.lawful
    have ht : (r.run s).2.Regular := Lawful.regular true r hs
    have hfirst := ihr hs
    rw [run_bind] at hd ⊢
    cases hrun : r.run s with
    | mk o t =>
      rw [hrun] at hd ht hfirst
      cases o with
      | none => exact hfirst hd
      | some a => exact (ihf a ht hd).trans (hfirst (((hf a).lawful.steps t).diagnostics hd))
  | choose _ ih => exact ih s hs hd
  | expectAny expected =>
    obtain h | h := hs.expectAny expected
    · rw [h]
      rfl
    · exact absurd hd h
  | note event ordinary => simp [State.mishaps, State.note, ordinary]
  | record kind span ordinary => simp [State.mishaps, State.record, ordinary]
  | report d => exact absurd hd (hs.diagnostics_report _)
  | within scope _ ih =>
    exact ih (s := { s with scope := scope s.scope }) ⟨hs.valid, hs.recovering, hs.halted⟩ hd
  | skipExtraneous => exact absurd hd hs.diagnostics_skipExtraneous
  | @stage α r hr kind span error ordinary ih =>
    have hblames := hr.lawful.blames s hs
    have hcommand := ih hs
    rw [run_total] at hd ⊢
    obtain ⟨command, t, hrun, hstage⟩ | ⟨t, hrun, hstage⟩ := stage_cases r kind span error s
    · rw [hrun] at hcommand
      rw [hstage] at hd ⊢
      have hrecord : (t.record kind (span command)).mishaps = t.mishaps := by
        simp [State.mishaps, State.record, ordinary]
      exact hrecord.trans (hcommand hd)
    · rw [hrun] at hblames
      rw [hstage] at hd
      exact absurd ((steps_resync _ _).diagnostics hd) (hblames rfl)

/-! ## The rules -/

attribute [instance] pure take expectAny skip

instance (r : Rule α) (f : α → Rule β) [hr : Formed r] [hf : ∀ a, Formed (f a)] :
    Formed (r >>= f) := .bind hr hf

instance (f : α → β) (r : Rule α) [Formed r] : Formed (f <$> r) :=
  inferInstanceAs (Formed (r >>= fun a => Pure.pure (f a)))

instance (scope : Scope → Scope) (r : Rule α) [hr : Formed r] : Formed (Rule.within scope r) :=
  .within scope hr

instance (c : Prop) [Decidable c] (r r' : Rule α) [Formed r] [Formed r'] :
    Formed (if c then r else r') := by
  split <;> infer_instance

instance (f : State → α) : Formed (ask f) :=
  show Formed fun s => (Pure.pure (f s) : Rule α) s from .choose fun s => .pure (f s)

instance : Formed (change fun s => s.note (.sourceCommand s.current)) := .note _ fun _ => rfl

instance : Formed (change fun s => s.note (.processingCommand s.current)) := .note _ fun _ => rfl

instance (span : State → Span) : Formed (change fun s => s.record .subquery (span s)) :=
  .record _ span (by decide)

end Rule.Formed

variable {α : Type}

instance (kind : Kind) : Formed (at? kind) := by unfold at?; infer_instance

instance (kinds : KindSet) : Formed (atAny? kinds) := by unfold atAny?; infer_instance

instance (kind : Kind) : Formed (before? kind) := by unfold before?; infer_instance

instance (kind : Kind) : Formed (accept kind) := by unfold accept; infer_instance

instance (kind : Kind) : Formed (expect kind) := by unfold expect; infer_instance

instance (start : Nat) (expected : KindSet) : Formed (noViable start expected : Rule α) :=
  .report _

instance : Formed (tooDeep : Rule α) := .report _

theorem Rule.Formed.spanned {r : Rule (Span → α)} (h : Formed r) : Formed (Grammar.spanned r) := by
  unfold Grammar.spanned; infer_instance

instance (r : Rule (Span → α)) [Formed r] : Formed (spanned r) := .spanned inferInstance

theorem formed_upTo (r : Rule (Option α)) [Formed r] (n : Nat) (values : List α) :
    Formed (upTo r n values) := by
  induction n generalizing values with
  | zero => unfold upTo; infer_instance
  | succ n ih =>
    rw [upTo_succ]
    refine .bind inferInstance fun a => ?_
    cases a with
    | none => infer_instance
    | some a => exact ih (a :: values)

instance (r : Rule (Option α)) [Formed r] : Formed (many r) :=
  show Formed fun s => upTo r s.stream.remaining [] s from
    .choose fun s => formed_upTo r s.stream.remaining []

instance (kind : Kind) (r : Rule α) [Formed r] : Formed (behind kind r) := by
  unfold behind
  refine .bind inferInstance fun token => ?_
  cases token <;> infer_instance

instance (kind : Kind) (r : Rule α) [Formed r] : Formed (separated kind r) := by
  unfold separated; infer_instance

instance (r : Rule α) [Formed r] : Formed (parenthesised r) := by
  unfold parenthesised; infer_instance

instance (r : Rule α) [Formed r] : Formed (arguments r) := by unfold arguments; infer_instance

instance (kinds : KindSet) : Formed (identifierOf kinds) := by unfold identifierOf; infer_instance

instance : Formed plainIdentifier := by unfold plainIdentifier; infer_instance

instance : Formed takeIdentifier := by unfold takeIdentifier; infer_instance

instance : Formed qualifiedName := by unfold qualifiedName; infer_instance

instance : Formed qualifiedNames := by unfold qualifiedNames; infer_instance

instance (kinds : KindSet) : Formed (assigned? kinds) := by unfold assigned?; infer_instance

instance (kinds : KindSet) : Formed (numberOf kinds) := by unfold numberOf; infer_instance

instance : Formed number := by unfold number; infer_instance

instance : Formed integer := by unfold integer; infer_instance

instance : Formed string := by unfold string; infer_instance

instance : Formed truthValue := by unfold truthValue; infer_instance

instance (start : Nat) : Formed (elements start) := by
  unfold elements
  refine .bind inferInstance fun kind => ?_
  split <;> infer_instance

instance : Formed constantList := by unfold constantList; infer_instance

instance : Formed constant := by
  unfold constant
  refine .bind inferInstance fun kind => ?_
  split <;> infer_instance

instance : Formed fieldArgument := by
  unfold fieldArgument
  refine .bind inferInstance fun kind => ?_
  split <;> infer_instance

instance : Formed timeSpan := by unfold timeSpan; infer_instance

instance : Formed predicateCall := by unfold predicateCall; infer_instance

instance : Formed testNegation := by unfold testNegation; infer_instance

instance : Formed renameClause := by unfold renameClause; infer_instance

instance : Formed commandOption := by unfold commandOption; infer_instance

instance : Formed enrichClause := by unfold enrichClause; infer_instance

/-- Rules for expressions that are put together so. -/
class Expressions.Formed (inner : Expressions) : Prop where
  /-- Conditions. -/
  boolean (power : Nat) : Rule.Formed (inner.boolean power)
  /-- Arithmetic. -/
  operator (power : Nat) : Rule.Formed (inner.operator power)

attribute [instance] Expressions.Formed.boolean Expressions.Formed.operator

section

variable (inner : Expressions) [inner.Formed]

instance : Formed (value inner) := by
  unfold value
  refine .bind inferInstance fun left => .bind inferInstance fun compared => ?_
  split
  · refine .bind inferInstance fun operator => ?_
    split
    · infer_instance
    · exact .report _
  · infer_instance

instance : Formed (scalarArgument inner) := by unfold scalarArgument; infer_instance

instance : Formed (primary inner) := by unfold primary; infer_instance

instance : Formed (operand inner) := by
  unfold operand
  refine .bind inferInstance fun kind => ?_
  split <;> infer_instance

instance {O T : Type} (ofKind? : Kind → Option O) (leftPower : O → Nat) (right : O → Rule T)
    [∀ op, Formed (right op)] (power : Nat) : Formed (linkOf ofKind? leftPower right power) := by
  unfold linkOf
  refine .bind inferInstance fun kind => ?_
  split <;> infer_instance

instance (power : Nat) : Formed (operatorLink inner power) := by
  unfold operatorLink; infer_instance

instance (power : Nat) : Formed (operatorChain inner power) := by
  unfold operatorChain; infer_instance

instance (start : Nat) (tested : ValueExpr) : Formed (test inner start tested) := by
  unfold test
  refine .bind inferInstance fun negation => .bind inferInstance fun kind => ?_
  split
  · infer_instance
  · split <;> infer_instance

instance : Formed (condition inner) := by unfold condition; infer_instance

instance (power : Nat) : Formed (connectiveLink inner power) := by
  unfold connectiveLink; infer_instance

instance (power : Nat) : Formed (connectiveChain inner power) := by
  unfold connectiveChain; infer_instance

end

instance (levels : Nat) : (expressions levels).Formed := by
  induction levels with
  | zero => exact ⟨fun _ => inferInstanceAs (Rule.Formed tooDeep),
      fun _ => inferInstanceAs (Rule.Formed tooDeep)⟩
  | succ levels ih =>
    exact ⟨fun power => inferInstanceAs (Rule.Formed (connectiveChain (expressions levels) power)),
      fun power => inferInstanceAs (Rule.Formed (operatorChain (expressions levels) power))⟩

/-! ## Commands -/

section

variable (inner : Expressions) [inner.Formed]

instance : Formed (field inner) := by unfold field; infer_instance

instance : Formed (fields inner) := by unfold fields; infer_instance

instance : Formed (sortKey inner) := by unfold sortKey; infer_instance

theorem formed_processingClause {kind : Kind} {clause : Rule ProcessingClause}
    (h : processingClause? inner kind = some clause) : Formed clause := by
  unfold processingClause? at h
  split at h <;> cases h <;> infer_instance

instance : Formed (processingCommand inner) := by
  unfold processingCommand
  refine .spanned (.bind inferInstance fun noted => .bind inferInstance fun kind => ?_)
  cases h : processingClause? inner kind with
  | none => infer_instance
  | some clause =>
    have := formed_processingClause inner h
    infer_instance

variable (query : Rule Query) [Formed query]

instance : Formed (subquery query) := by unfold subquery; infer_instance

instance : Formed (sourceCommand inner query) := by
  unfold sourceCommand
  refine .spanned (.bind inferInstance fun noted => .bind inferInstance fun start =>
    .bind inferInstance fun kind => ?_)
  split
  · infer_instance
  · infer_instance
  · infer_instance
  · refine .bind inferInstance fun next => ?_
    split <;> infer_instance
  · infer_instance

/-! ## Queries -/

instance : Formed (total (sourceStage inner query)) :=
  .stage inferInstance .sourceCommand SourceCommand.span .error (by decide)

instance : Formed (total (processingStage inner)) :=
  .stage inferInstance .processingCommand ProcessingCommand.span .error (by decide)

theorem formed_stagesUpTo (n : Nat) (stages : List (Token × ProcessingCommand)) :
    Formed (total (stagesUpTo inner n stages)) := by
  induction n generalizing stages with
  | zero => exact .pure stages.reverse
  | succ n ih =>
    rw [total_stagesUpTo_succ]
    refine .bind inferInstance fun piped => ?_
    split
    · exact .bind inferInstance fun bar => .bind inferInstance fun command => ih _
    · refine .bind inferInstance fun ended => ?_
      split
      · infer_instance
      · exact .bind .skipExtraneous fun skipped => ih stages

instance : Formed (total (laterStages inner)) :=
  show Formed fun s => total (stagesUpTo inner s.stream.remaining []) s from
    .choose fun s => formed_stagesUpTo inner s.stream.remaining []

instance : Formed (total (pipeline inner query)) := by
  rw [total_pipeline]
  infer_instance

end

theorem formed_query (levels : Nat) :
    Formed (total (query levels)) ∧ Formed (innerQuery levels) := by
  induction levels with
  | zero =>
    have : Formed (innerQuery 0) := inferInstanceAs (Formed tooDeep)
    exact ⟨by rw [query_eq]; infer_instance, this⟩
  | succ levels ih =>
    have : Formed (innerQuery (levels + 1)) := ih.1
    exact ⟨by rw [query_eq]; infer_instance, this⟩

instance (levels : Nat) : Formed (total (query levels)) := (formed_query levels).1

instance (levels : Nat) : Formed (innerQuery levels) := (formed_query levels).2

instance (levels : Nat) : Formed (total (statement levels)) := by
  have h : total (statement levels) = (do
      let q ← total (query levels)
      ask fun t => ⟨q, t.current, ⟨0, min (t.position + 1) t.stream.tokens.length⟩⟩) := rfl
  rw [h]
  infer_instance

instance (levels : Nat) : Formed (wholeExpression levels) := by
  unfold wholeExpression
  refine .bind inferInstance fun expression => .bind inferInstance fun ended => ?_
  split
  · infer_instance
  · exact .report _

end Grammar

end PipeQuery
