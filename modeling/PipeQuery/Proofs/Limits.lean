import PipeQuery.Proofs.Accepts

/-!
# Limits of nesting

`State.limited` puts a run under another limit. Only the rules for expressions and for queries in
brackets look at the limit; to the rules for the leaves of the grammar it makes no difference
(`Rule.Steady`).
-/

namespace PipeQuery

namespace Grammar

namespace State

/-- The same state under another limit. -/
def limited (limit : Nat) (s : State) : State :=
  { s with config := { s.config with maxDepth := limit } }

/-- The first diagnostic says that something nests deeper than a limit. -/
def TooDeep (limit : Nat) (s : State) : Prop :=
  ∃ token, s.diagnostics[0]? = some ⟨.nestingTooDeep limit, token⟩

section

variable (s : State) (limit : Nat)

@[simp] theorem kind_limited : (s.limited limit).kind = s.kind := rfl

@[simp] theorem kindAfter_limited : (s.limited limit).kindAfter = s.kindAfter := rfl

@[simp] theorem current_limited : (s.limited limit).current = s.current := rfl

@[simp] theorem atBoundary_limited : (s.limited limit).atBoundary = s.atBoundary := rfl

@[simp] theorem recover_limited : (s.limited limit).config.recover = s.config.recover := rfl

@[simp] theorem skip_limited : (s.limited limit).skip = s.skip.limited limit := rfl

@[simp] theorem note_limited (e : Event) :
    (s.limited limit).note e = (s.note e).limited limit := rfl

@[simp] theorem report_limited (d : Diagnostic) :
    (s.limited limit).report d = (s.report d).limited limit := by
  cases h : s.recovering <;> simp [State.report, State.limited, State.note, h]

@[simp] theorem blame_limited (cause : Diagnostic.Cause) :
    (s.limited limit).blame cause = (s.blame cause).limited limit := report_limited s limit _

end

variable {s t : State} {limit : Nat} {recording : Bool}

theorem Clear.limited (h : s.Clear) (limit : Nat) : (s.limited limit).Clear :=
  ⟨⟨h.valid, h.toRegular.recovering, h.toRegular.halted⟩, h.diagnostics⟩

theorem TooDeep.steps (h : s.TooDeep limit) (hst : Steps recording s t) : t.TooDeep limit := by
  obtain ⟨token, hd⟩ := h
  exact ⟨token, hst.first hd⟩

theorem Clear.tooDeep_blame (h : s.Clear) (limit : Nat) :
    (s.blame (.nestingTooDeep limit)).TooDeep limit :=
  ⟨s.current, h.first_report _⟩

end State

open State Rule

variable {α β : Type}

/-! ## Rules for leaves -/

/-- The limit makes no difference to the rule. -/
class Rule.Steady (r : Rule α) : Prop where
  run_limited (limit : Nat) (s : State) :
    r.run (s.limited limit) = ((r.run s).1, (r.run s).2.limited limit)

namespace Rule

instance (a : α) : Steady (pure a : Rule α) := ⟨fun _ _ => rfl⟩

theorem Steady.bind {r : Rule α} {f : α → Rule β} [hr : Steady r] (hf : ∀ a, Steady (f a)) :
    Steady (r >>= f) where
  run_limited limit s := by
    rw [run_bind, run_bind, hr.run_limited]
    cases r.run s with
    | mk a t =>
      cases a with
      | none => rfl
      | some a => exact (hf a).run_limited limit t

instance (r : Rule α) (f : α → Rule β) [Steady r] [∀ a, Steady (f a)] : Steady (r >>= f) :=
  .bind inferInstance

instance (c : Prop) [Decidable c] (r r' : Rule α) [Steady r] [Steady r'] :
    Steady (if c then r else r') := by
  split <;> infer_instance

theorem steady_ask {f : State → α} (h : ∀ limit s, f (State.limited limit s) = f s) :
    Steady (ask f) :=
  ⟨fun limit s => by rw [run_ask, run_ask, h]⟩

instance : Steady (ask State.kind) := steady_ask fun _ _ => rfl

instance : Steady (ask State.kindAfter) := steady_ask fun _ _ => rfl

instance : Steady (ask State.position) := steady_ask fun _ _ => rfl

instance : Steady (ask State.scope) := steady_ask fun _ _ => rfl

instance : Steady (ask State.current) := steady_ask fun _ _ => rfl

instance : Steady (ask State.atBoundary) := steady_ask fun _ _ => rfl

instance : Steady (change State.skip) := ⟨fun _ _ => rfl⟩

theorem steady_giveUp {d : State → Diagnostic} (h : ∀ limit s, d (State.limited limit s) = d s) :
    Steady (giveUp fun s => s.report (d s) : Rule α) :=
  ⟨fun limit s => by rw [run_giveUp, run_giveUp, h, report_limited]⟩

instance : Steady take := ⟨fun _ _ => rfl⟩

end Rule

instance (kind : Kind) : Steady (at? kind) := steady_ask fun _ _ => rfl

instance (kinds : KindSet) : Steady (atAny? kinds) := steady_ask fun _ _ => rfl

instance (kind : Kind) : Steady (before? kind) := steady_ask fun _ _ => rfl

instance (kind : Kind) : Steady (accept kind) := by unfold accept; infer_instance

instance (expected : KindSet) : Steady (expectAny expected) where
  run_limited limit s := by
    simp only [expectAny, run, kind_limited, kindAfter_limited, current_limited,
      atBoundary_limited, recover_limited, note_limited, blame_limited, skip_limited]
    split
    · rfl
    · split
      · rfl
      · split <;> rfl

instance (kind : Kind) : Steady (expect kind) := by unfold expect; infer_instance

instance (start : Nat) (expected : KindSet) : Steady (noViable start expected : Rule α) :=
  steady_giveUp fun _ _ => rfl

theorem Rule.Steady.spanned {r : Rule (Span → α)} (h : Steady r) : Steady (Grammar.spanned r) := by
  unfold Grammar.spanned
  exact .bind fun start => .bind fun f => steady_ask fun _ _ => rfl

instance (r : Rule (Span → α)) [Steady r] : Steady (spanned r) := .spanned inferInstance

theorem steady_upTo (r : Rule (Option α)) [Steady r] (n : Nat) (values : List α) :
    Steady (upTo r n values) := by
  induction n generalizing values with
  | zero => unfold upTo; infer_instance
  | succ n ih =>
    rw [upTo_succ]
    refine .bind fun a => ?_
    cases a with
    | none => infer_instance
    | some a => exact ih (a :: values)

instance (r : Rule (Option α)) [Steady r] : Steady (many r) where
  run_limited limit s := (steady_upTo r s.stream.remaining []).run_limited limit s

instance (kind : Kind) (r : Rule α) [Steady r] : Steady (behind kind r) := by
  unfold behind
  refine .bind fun token => ?_
  cases token <;> infer_instance

instance (kind : Kind) (r : Rule α) [Steady r] : Steady (separated kind r) := by
  unfold separated; infer_instance

instance (r : Rule α) [Steady r] : Steady (parenthesised r) := by
  unfold parenthesised; infer_instance

instance (r : Rule α) [Steady r] : Steady (arguments r) := by unfold arguments; infer_instance

instance (kinds : KindSet) : Steady (identifierOf kinds) := by unfold identifierOf; infer_instance

instance : Steady plainIdentifier := by unfold plainIdentifier; infer_instance

instance : Steady takeIdentifier := by unfold takeIdentifier; infer_instance

instance : Steady qualifiedName := by unfold qualifiedName; infer_instance

instance : Steady qualifiedNames := by unfold qualifiedNames; infer_instance

instance (kinds : KindSet) : Steady (assigned? kinds) := by unfold assigned?; infer_instance

instance (kinds : KindSet) : Steady (numberOf kinds) := by unfold numberOf; infer_instance

instance : Steady number := by unfold number; infer_instance

instance : Steady integer := by unfold integer; infer_instance

instance : Steady string := by unfold string; infer_instance

instance : Steady truthValue := by unfold truthValue; infer_instance

instance (start : Nat) : Steady (elements start) := by
  unfold elements
  refine .bind fun kind => ?_
  split <;> infer_instance

instance : Steady constantList := by unfold constantList; infer_instance

instance : Steady constant := by
  unfold constant
  refine .bind fun kind => ?_
  split <;> infer_instance

instance : Steady fieldArgument := by
  unfold fieldArgument
  refine .bind fun kind => ?_
  split <;> infer_instance

instance : Steady timeSpan := by unfold timeSpan; infer_instance

instance : Steady predicateCall := by unfold predicateCall; infer_instance

instance : Steady testNegation := by
  have : Steady (ask fun s => testWords.contains s.kindAfter) := steady_ask fun _ _ => rfl
  unfold testNegation
  infer_instance

instance : Steady renameClause := by unfold renameClause; infer_instance

instance : Steady commandOption := by unfold commandOption; infer_instance

instance : Steady enrichClause := by unfold enrichClause; infer_instance

end Grammar

end PipeQuery
