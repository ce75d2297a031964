import PipeQuery.Proofs.Accepts

/-!
# Strict rules

A text can be read strictly, so that the first mistake ends the reading, or on and on behind
mistakes. Up to the first mistake the two runs do the same, and they blame the same token for it
(`Agrees`). From there on only the run that goes on says more: the strict one is `Over`.

`Rule.InStep` says this of a rule. It is closed under the combinators, like `Rule.Lawful`, and every
rule that reads no query has it.
-/

namespace PipeQuery

/-- Two diagnostics that come from one mistake: with repairs, and without. -/
inductive Diagnostic.Alike : Diagnostic → Diagnostic → Prop
  | same (d : Diagnostic) : Alike d d
  | extraneous (kinds : KindSet) (token : Token) :
    Alike ⟨.extraneous kinds, token⟩ ⟨.mismatched kinds, token⟩
  | missing (kinds : KindSet) (token : Token) :
    Alike ⟨.missing kinds, token⟩ ⟨.mismatched kinds, token⟩

namespace Diagnostic.Alike

variable {d d' : Diagnostic}

theorem token (h : d.Alike d') : d'.token = d.token := by
  cases h <;> rfl

theorem expected (h : d.Alike d') : d'.expected = d.expected := by
  cases h <;> rfl

end Diagnostic.Alike

namespace Grammar

namespace State

/-- The same state, where the text is read strictly. -/
def strict (s : State) : State := { s with config := { s.config with recover := false } }

/-- The reading has been ended by a diagnostic. -/
structure Over (d : Diagnostic) (s : State) : Prop where
  /-- There is no other diagnostic. -/
  diagnostics : s.diagnostics = #[d]
  /-- No diagnostic is added. -/
  recovering : s.recovering = true
  /-- There are no boundaries any more. -/
  halted : s.halted = true

variable {s : State} {d : Diagnostic}

theorem Clear.strict (h : s.Clear) : s.strict.Clear :=
  ⟨⟨h.valid, h.toRegular.recovering, fun hh => ⟨rfl, (h.toRegular.halted hh).2⟩⟩, h.diagnostics⟩

/-- Where nothing was reported, a report ends a strict reading. -/
theorem Clear.over_report (h : s.Clear) (d : Diagnostic) : (s.strict.report d).Over d := by
  rw [h.strict.report]
  exact ⟨rfl, rfl, rfl⟩

theorem Over.report (h : s.Over d) (d' : Diagnostic) : (s.report d').Over d := by
  rw [State.report, if_pos h.recovering]
  exact ⟨h.diagnostics, h.recovering, h.halted⟩

end State

open State

/-- What a run and the strict run beside it come to: nothing was reported and they are in the same
state, or a diagnostic was reported first, and the strict run has given up with the like. -/
inductive Agrees {α : Type} : Option α × State → Option α × State → Prop
  | same {a : α} {t : State} (clear : t.Clear) : Agrees (some a, t) (some a, t.strict)
  | apart {a : Option α} {t t' : State} {d d' : Diagnostic} (first : t.diagnostics[0]? = some d)
    (alike : d.Alike d') (ended : t'.Over d') : Agrees (a, t) (none, t')

/-- In which scope runs end is of no account. -/
theorem Agrees.inScope {α : Type} {x x' : Option α × State} (h : Agrees x x') (scope : Scope) :
    Agrees (x.1, { x.2 with scope := scope }) (x'.1, { x'.2 with scope := scope }) := by
  cases h with
  | same clear => exact .same (clear.inScope scope)
  | apart first alike ended =>
    exact .apart first alike ⟨ended.diagnostics, ended.recovering, ended.halted⟩

/-- A lawful rule that does the same strictly, up to the first mistake. -/
class Rule.InStep {α : Type} (r : Rule α) : Prop where
  /-- The rule is lawful. -/
  lawful : Lawful true r
  /-- The two runs agree. -/
  agrees {s : State} (h : s.Clear) : Agrees (r.run s) (r.run s.strict)

namespace Rule

variable {α β : Type}

instance (a : α) : InStep (pure a : Rule α) where
  lawful := inferInstance
  agrees h := .same h

/-- Runs that agree are followed by runs that agree. -/
theorem agrees_bind {r : Rule α} {f : α → Rule β} {s s' : State}
    (hr : Agrees (r.run s) (r.run s')) (hf : ∀ a, InStep (f a)) :
    Agrees ((r >>= f).run s) ((r >>= f).run s') := by
  rw [run_bind, run_bind]
  generalize r.run s = x at hr ⊢
  generalize r.run s' = x' at hr ⊢
  cases hr with
  | @same a t clear => exact (hf a).agrees clear
  | @apart a t t' d d' first alike ended =>
    cases a with
    | none => exact .apart first alike ended
    | some a => exact .apart (((hf a).lawful.steps t).first first) alike ended

theorem InStep.bind {r : Rule α} {f : α → Rule β} [hr : InStep r] (hf : ∀ a, InStep (f a)) :
    InStep (r >>= f) where
  lawful := by
    have := hr.lawful
    exact .bind fun a => (hf a).lawful
  agrees h := agrees_bind (hr.agrees h) hf

instance (r : Rule α) (f : α → Rule β) [InStep r] [∀ a, InStep (f a)] : InStep (r >>= f) :=
  .bind inferInstance

instance (f : α → β) (r : Rule α) [InStep r] : InStep (f <$> r) :=
  inferInstanceAs (InStep (r >>= fun a => pure (f a)))

instance (c : Prop) [Decidable c] (r r' : Rule α) [InStep r] [InStep r'] :
    InStep (if c then r else r') := by
  split <;> infer_instance

/-- What does not depend on how the text is to be read may be asked for. -/
theorem inStep_ask {f : State → α} (h : ∀ s : State, f s.strict = f s) : InStep (ask f) where
  lawful := inferInstance
  agrees {s} hs := by
    rw [run_ask, run_ask, h]
    exact .same hs

instance : InStep (ask State.kind) := inStep_ask fun _ => rfl

instance : InStep (ask State.kindAfter) := inStep_ask fun _ => rfl

instance : InStep (ask State.position) := inStep_ask fun _ => rfl

instance : InStep (ask State.scope) := inStep_ask fun _ => rfl

instance : InStep (ask State.current) := inStep_ask fun _ => rfl

/-- A step that reports nothing. -/
theorem inStep_change {f : State → State} (h : ∀ s : State, s.Steps true (f s))
    (hd : ∀ s : State, (f s).diagnostics = s.diagnostics)
    (hf : ∀ s : State, f s.strict = (f s).strict) : InStep (change f) where
  lawful := lawful_change h
  agrees {s} hs := by
    rw [run_change, run_change, hf]
    exact .same ⟨(h s).regular hs.toRegular, (hd s).trans hs.diagnostics⟩

instance : InStep (change State.skip) :=
  inStep_change (fun s => .single (.skip s)) (fun _ => rfl) fun _ => rfl

theorem inStep_giveUp {d : State → Diagnostic} (h : ∀ s : State, d s.strict = d s) :
    InStep (giveUp fun s => s.report (d s) : Rule α) where
  lawful := inferInstance
  agrees {s} hs := by
    rw [run_giveUp, run_giveUp, h]
    exact .apart (hs.first_report _) (.same _) (hs.over_report _)

instance (scope : Scope → Scope) (r : Rule α) [hr : InStep r] : InStep (within scope r) where
  lawful := by
    have := hr.lawful
    infer_instance
  agrees {s} hs := (hr.agrees (hs.inScope (scope s.scope))).inScope s.scope

instance : InStep take where
  lawful := inferInstance
  agrees hs := .same hs.reads_bump.clear'

end Rule

open Rule

variable {α : Type}

instance (kind : Kind) : InStep (at? kind) := inStep_ask fun _ => rfl

instance (kinds : KindSet) : InStep (atAny? kinds) := inStep_ask fun _ => rfl

instance (kind : Kind) : InStep (before? kind) := inStep_ask fun _ => rfl

instance (kind : Kind) : InStep (accept kind) := by unfold accept; infer_instance

/-- A token that is missing is blamed, whether it can be repaired or not. -/
instance (expected : KindSet) : InStep (expectAny expected) where
  lawful := inferInstance
  agrees {s} hs := by
    have hstrict : s.kind ∉ expected →
        (expectAny expected).run s.strict = (none, s.strict.blame (.mismatched expected)) := by
      intro hk
      have hk : s.strict.kind ∉ expected := hk
      have hr : s.strict.config.recover = false := rfl
      simp [expectAny, run, hk, hr]
    have hover := hs.over_report ⟨.mismatched expected, s.current⟩
    obtain ⟨hk, h⟩ | ⟨hk, -, -, -, h⟩ | ⟨hk, -, -, h⟩ | ⟨hk, -, h⟩ := expectAny_cases expected s
      <;> rw [h]
    · have hrun : (expectAny expected).run s.strict = (some s.current, s.bump.strict) := by
        have hk : s.strict.kind ∈ expected := hk
        simp only [expectAny, run, hk, if_true]
        rfl
      rw [hrun]
      exact .same hs.reads_bump.clear'
    · rw [hstrict hk]
      exact .apart ((hs.reads_note _).clear'.first_report _) (.extraneous _ _) hover
    · rw [hstrict hk]
      exact .apart ((hs.reads_note _).clear'.first_report _) (.missing _ _) hover
    · rw [hstrict hk]
      exact .apart (hs.first_report _) (.same _) hover

instance (kind : Kind) : InStep (expect kind) := by unfold expect; infer_instance

instance (start : Nat) (expected : KindSet) : InStep (noViable start expected : Rule α) :=
  inStep_giveUp fun _ => rfl

instance : InStep (tooDeep : Rule α) := inStep_giveUp fun _ => rfl

theorem Rule.InStep.spanned {r : Rule (Span → α)} (h : InStep r) : InStep (Grammar.spanned r) := by
  unfold Grammar.spanned
  exact .bind fun start => .bind fun f => inStep_ask fun _ => rfl

instance (r : Rule (Span → α)) [InStep r] : InStep (spanned r) := .spanned inferInstance

/-! ## Repetition -/

theorem inStep_upTo (r : Rule (Option α)) [InStep r] (n : Nat) (values : List α) :
    InStep (upTo r n values) := by
  induction n generalizing values with
  | zero => unfold upTo; infer_instance
  | succ n ih =>
    rw [upTo_succ]
    refine .bind fun a => ?_
    cases a with
    | none => infer_instance
    | some a => exact ih (a :: values)

instance (r : Rule (Option α)) [hr : InStep r] : InStep (many r) where
  lawful := by
    have := hr.lawful
    infer_instance
  agrees {s} hs := (inStep_upTo r s.stream.remaining []).agrees hs

instance (kind : Kind) (r : Rule α) [InStep r] : InStep (behind kind r) := by
  unfold behind
  refine .bind fun token => ?_
  cases token <;> infer_instance

instance (kind : Kind) (r : Rule α) [InStep r] : InStep (separated kind r) := by
  unfold separated; infer_instance

instance (r : Rule α) [InStep r] : InStep (parenthesised r) := by
  unfold parenthesised; infer_instance

instance (r : Rule α) [InStep r] : InStep (arguments r) := by
  unfold arguments; infer_instance

/-! ## Names and constants -/

instance (kinds : KindSet) : InStep (identifierOf kinds) := by unfold identifierOf; infer_instance

instance : InStep plainIdentifier := by unfold plainIdentifier; infer_instance

instance : InStep takeIdentifier := by unfold takeIdentifier; infer_instance

instance : InStep qualifiedName := by unfold qualifiedName; infer_instance

instance : InStep qualifiedNames := by unfold qualifiedNames; infer_instance

instance (kinds : KindSet) : InStep (assigned? kinds) := by unfold assigned?; infer_instance

instance (kinds : KindSet) : InStep (numberOf kinds) := by unfold numberOf; infer_instance

instance : InStep number := by unfold number; infer_instance

instance : InStep integer := by unfold integer; infer_instance

instance : InStep string := by unfold string; infer_instance

instance : InStep truthValue := by unfold truthValue; infer_instance

instance (start : Nat) : InStep (elements start) := by
  unfold elements
  refine .bind fun kind => ?_
  split <;> infer_instance

instance : InStep constantList := by unfold constantList; infer_instance

instance : InStep constant := by
  unfold constant
  refine .bind fun kind => ?_
  split <;> infer_instance

instance : InStep fieldArgument := by
  unfold fieldArgument
  refine .bind fun kind => ?_
  split <;> infer_instance

instance : InStep timeSpan := by unfold timeSpan; infer_instance

/-! ## Expressions -/

/-- Rules for expressions all of which do the same strictly. -/
class Expressions.InStep (inner : Expressions) : Prop where
  boolean (power : Nat) : Rule.InStep (inner.boolean power)
  operator (power : Nat) : Rule.InStep (inner.operator power)

attribute [instance] Expressions.InStep.boolean Expressions.InStep.operator

section

variable (inner : Expressions) [inner.InStep]

instance : InStep (value inner) := by
  unfold value
  refine .bind fun left => .bind fun compared => ?_
  split
  · refine .bind fun operator => ?_
    split
    · infer_instance
    · exact inStep_giveUp fun _ => rfl
  · infer_instance

instance : InStep (scalarArgument inner) := by unfold scalarArgument; infer_instance

instance : InStep (primary inner) := by unfold primary; infer_instance

instance : InStep (operand inner) := by
  unfold operand
  refine .bind fun kind => ?_
  split <;> infer_instance

instance {O T : Type} (ofKind? : Kind → Option O) (leftPower : O → Nat) (right : O → Rule T)
    [∀ op, InStep (right op)] (power : Nat) : InStep (linkOf ofKind? leftPower right power) := by
  unfold linkOf
  refine .bind fun kind => ?_
  split <;> infer_instance

instance (power : Nat) : InStep (operatorLink inner power) := by
  unfold operatorLink; infer_instance

instance (power : Nat) : InStep (operatorChain inner power) := by
  unfold operatorChain; infer_instance

instance : InStep predicateCall := by unfold predicateCall; infer_instance

instance : InStep testNegation := by
  have : InStep (ask fun s => testWords.contains s.kindAfter) := inStep_ask fun _ => rfl
  unfold testNegation
  infer_instance

instance (start : Nat) (tested : ValueExpr) : InStep (test inner start tested) := by
  unfold test
  refine .bind fun negation => .bind fun kind => ?_
  split
  · exact .bind fun keyword => .bind fun items => inStep_ask fun _ => rfl
  · split
    · exact .bind fun keyword => .bind fun literal => inStep_ask fun _ => rfl
    · infer_instance

instance : InStep (condition inner) := by unfold condition; infer_instance

instance (power : Nat) : InStep (connectiveLink inner power) := by
  unfold connectiveLink; infer_instance

instance (power : Nat) : InStep (connectiveChain inner power) := by
  unfold connectiveChain; infer_instance

end

instance (levels : Nat) : (expressions levels).InStep := by
  induction levels with
  | zero => exact ⟨fun _ => by unfold expressions; infer_instance,
      fun _ => by unfold expressions; infer_instance⟩
  | succ levels ih =>
    exact ⟨fun power => inferInstanceAs (InStep (connectiveChain (expressions levels) power)),
      fun power => inferInstanceAs (InStep (operatorChain (expressions levels) power))⟩

/-! ## Commands -/

section

variable (inner : Expressions) [inner.InStep]

instance : InStep (field inner) := by unfold field; infer_instance

instance : InStep (fields inner) := by unfold fields; infer_instance

instance : InStep renameClause := by unfold renameClause; infer_instance

instance : InStep commandOption := by unfold commandOption; infer_instance

instance : InStep (sortKey inner) := by unfold sortKey; infer_instance

instance : InStep enrichClause := by unfold enrichClause; infer_instance

theorem inStep_processingClause {kind : Kind} {clause : Rule ProcessingClause}
    (h : processingClause? inner kind = some clause) : InStep clause := by
  unfold processingClause? at h
  split at h <;> cases h <;> infer_instance

/-- The event at the beginning of a command. -/
theorem inStep_note {e : State → Event} (h : ∀ s : State, e s.strict = e s) :
    InStep (change fun s => s.note (e s)) :=
  inStep_change (fun s => .single (.note s _)) (fun _ => rfl) fun s => by rw [h]; rfl

instance : InStep (processingCommand inner) := by
  have : InStep (change fun s => s.note (.processingCommand s.current)) := inStep_note fun _ => rfl
  unfold processingCommand
  refine .spanned (.bind fun noted => .bind fun kind => ?_)
  cases h : processingClause? inner kind with
  | none => infer_instance
  | some clause =>
    have := inStep_processingClause inner h
    infer_instance

end

end Grammar

end PipeQuery
