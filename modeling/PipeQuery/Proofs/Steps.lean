import Mathlib.Logic.Relation
import PipeQuery.Grammar.Command
import PipeQuery.Proofs.Reading

/-!
# Runs in steps

Whatever a rule does, it does in few kinds of steps: it matches or passes over a token, reports a
diagnostic, takes down an event, or lays down a region (`State.Step`). So what each of these steps
keeps is kept by every run. `Rule.Lawful` says of a rule that its runs consist of such steps, and
that it gives up only with a diagnostic. It is closed under the combinators, so that it is found by
instance resolution.

Most rules lay down no region; the flag of `State.Step` tells them apart.
-/

namespace PipeQuery.Grammar

namespace State

/-- A step of a rule; it may lay down a region only if it is a `recording` one. -/
inductive Step (recording : Bool) : State → State → Prop
  | bump (s : State) : Step recording s s.bump
  | skip (s : State) : Step recording s s.skip
  | report (s : State) (d : Diagnostic) : Step recording s (s.report d)
  | note (s : State) (e : Event) : Step recording s (s.note e)
  | record (h : recording = true) (s : State) (kind : Kind) (span : Span) :
    Step recording s (s.record kind span)

/-- Any number of steps. -/
abbrev Steps (recording : Bool) : State → State → Prop :=
  Relation.ReflTransGen (Step recording)

/-- What holds of a state throughout a run. -/
structure Regular (s : State) : Prop where
  /-- The tokens are read from their beginning. -/
  valid : s.stream.Valid
  /-- Nothing is held back but for a diagnostic in front of it. -/
  recovering : s.recovering = true → s.diagnostics ≠ #[]
  /-- Only a strict run is ended, and only by a diagnostic. -/
  halted : s.halted = true → s.config.recover = false ∧ s.diagnostics ≠ #[]

theorem regular_start (config : Config) (tokens : List Token) : (start config tokens).Regular :=
  ⟨TokenStream.valid_ofTokens tokens, by simp [start], by simp [start]⟩

/-- Where a statement may end and no pipe follows, nothing is left. -/
theorem Regular.rest_eq_nil {s : State} (h : s.Regular) (hscope : s.scope = .outermost)
    (hb : s.atBoundary = true) (hk : s.kind ≠ .pipe) : s.stream.rest = [] := by
  refine h.valid.kind_eq_endOfInput_iff.1 ?_
  rcases atBoundary_iff.1 hb with hpipe | hend | ⟨-, hopen⟩
  · exact absurd hpipe hk
  · exact hend
  · rw [hscope] at hopen
    exact absurd hopen (Nat.lt_irrefl 0)

@[simp] theorem stream_report (s : State) (d : Diagnostic) : (s.report d).stream = s.stream := by
  unfold report
  split <;> rfl

@[simp] theorem config_report (s : State) (d : Diagnostic) : (s.report d).config = s.config := by
  unfold report
  split <;> rfl

@[simp] theorem scope_report (s : State) (d : Diagnostic) : (s.report d).scope = s.scope := by
  unfold report
  split <;> rfl

@[simp] theorem regions_report (s : State) (d : Diagnostic) :
    (s.report d).regions = s.regions := by
  unfold report
  split <;> rfl

/-- Behind a report there is a diagnostic: the new one, or the one that holds it back. -/
theorem Regular.diagnostics_report {s : State} (h : s.Regular) (d : Diagnostic) :
    (s.report d).diagnostics ≠ #[] := by
  unfold report
  split
  · next hr => exact h.recovering hr
  · simp

variable {recording : Bool}

namespace Step

variable {s t : State}

theorem reads (h : Step recording s t) : ∃ ps, s.stream.Reads ps t.stream := by
  cases h with
  | bump | skip => exact ⟨_, s.stream.reads_next⟩
  | report _ d => exact ⟨[], by simpa using TokenStream.Reads.refl _⟩
  | note | record => exact ⟨[], TokenStream.Reads.refl _⟩

theorem config (h : Step recording s t) : t.config = s.config := by
  cases h <;> simp [State.bump, State.skip, State.note, State.record]

theorem scope (h : Step recording s t) : t.scope = s.scope := by
  cases h <;> simp [State.bump, State.skip, State.note, State.record]

theorem regions (h : Step false s t) : t.regions = s.regions := by
  cases h with
  | bump | skip | note => rfl
  | report _ d => simp
  | record h => simp at h

/-- No step takes a diagnostic back. -/
theorem diagnostics (h : Step recording s t) (ht : t.diagnostics = #[]) :
    s.diagnostics = #[] := by
  cases h with
  | bump | skip | note | record => exact ht
  | report _ d =>
    unfold State.report at ht
    split at ht
    · exact ht
    · simp at ht

/-- No step takes back the first diagnostic. -/
theorem first {d : Diagnostic} (h : Step recording s t) (hd : s.diagnostics[0]? = some d) :
    t.diagnostics[0]? = some d := by
  cases h with
  | bump | skip | note | record => exact hd
  | report _ d' =>
    unfold State.report
    split
    · exact hd
    · obtain ⟨hlt, hd⟩ := Array.getElem?_eq_some_iff.1 hd
      change (s.diagnostics.push d')[0]? = some d
      rw [Array.getElem?_push_lt hlt, hd]

theorem regular (h : Step recording s t) (hs : s.Regular) : t.Regular := by
  obtain ⟨ps, hps⟩ := h.reads
  have hv := hs.valid.reads hps
  cases h with
  | bump => exact ⟨hv, by simp [State.bump], hs.halted⟩
  | skip | note | record => exact ⟨hv, hs.recovering, hs.halted⟩
  | report _ d =>
    have hd := hs.diagnostics_report d
    refine ⟨hv, fun _ => hd, fun hh => ⟨?_, hd⟩⟩
    rw [config_report]
    unfold State.report at hh
    split at hh
    · exact (hs.halted hh).1
    · simp only [Bool.or_eq_true, Bool.not_eq_true'] at hh
      exact hh.elim (fun hh => (hs.halted hh).1) id

/-- A step does the same in every scope. -/
theorem inScope (h : Step recording s t) (scope : Scope) :
    Step recording { s with scope := scope } { t with scope := scope } := by
  cases h with
  | bump => exact .bump _
  | skip => exact .skip _
  | note _ e => exact .note _ e
  | record h _ kind span => exact .record h _ kind span
  | report _ d =>
    have : { s.report d with scope := scope } = ({ s with scope := scope } : State).report d := by
      unfold State.report
      split <;> rfl
    rw [this]
    exact .report _ d

end Step

namespace Steps

variable {s t : State}

theorem reads (h : Steps recording s t) : ∃ ps, s.stream.Reads ps t.stream := by
  induction h with
  | refl => exact ⟨[], .refl _⟩
  | tail _ h ih =>
    obtain ⟨ps, hps⟩ := ih
    obtain ⟨qs, hqs⟩ := h.reads
    exact ⟨ps ++ qs, hps.trans hqs⟩

theorem config (h : Steps recording s t) : t.config = s.config := by
  induction h with
  | refl => rfl
  | tail _ h ih => rw [h.config, ih]

theorem scope (h : Steps recording s t) : t.scope = s.scope := by
  induction h with
  | refl => rfl
  | tail _ h ih => rw [h.scope, ih]

theorem regions (h : Steps false s t) : t.regions = s.regions := by
  induction h with
  | refl => rfl
  | tail _ h ih => rw [h.regions, ih]

theorem diagnostics (h : Steps recording s t) (ht : t.diagnostics = #[]) :
    s.diagnostics = #[] := by
  induction h with
  | refl => exact ht
  | tail _ h ih => exact ih (h.diagnostics ht)

theorem first {d : Diagnostic} (h : Steps recording s t) (hd : s.diagnostics[0]? = some d) :
    t.diagnostics[0]? = some d := by
  induction h with
  | refl => exact hd
  | tail _ h ih => exact h.first ih

theorem regular (h : Steps recording s t) (hs : s.Regular) : t.Regular := by
  induction h with
  | refl => exact hs
  | tail _ h ih => exact h.regular ih

theorem inScope (h : Steps recording s t) (scope : Scope) :
    Steps recording { s with scope := scope } { t with scope := scope } := by
  induction h with
  | refl => exact .refl
  | tail _ h ih => exact ih.tail (h.inScope scope)

end Steps

end State

/-! ## Fewer tokens -/

theorem remaining_le_of_steps {s t : State} {recording : Bool} (h : s.Steps recording t) :
    t.stream.remaining ≤ s.stream.remaining := by
  obtain ⟨ps, hps⟩ := h.reads
  have := hps.remaining
  omega

theorem remaining_bump_lt {s : State} (hs : s.stream.Valid) (hk : s.kind ≠ .endOfInput) :
    s.bump.stream.remaining < s.stream.remaining := by
  have hrest : s.stream.rest ≠ [] := fun hr => hk (hs.kind_eq_endOfInput_iff.2 hr)
  have hpos : 0 < s.stream.remaining := List.length_pos_iff.2 hrest
  have hnext : s.bump.stream.remaining = s.stream.remaining - 1 :=
    TokenStream.remaining_next s.stream
  omega

/-! ## Lawful rules -/

/-- A rule that runs in steps, and gives up only with a diagnostic. -/
class Rule.Lawful (recording : Bool) {α : Type} (r : Rule α) : Prop where
  /-- Runs consist of steps. -/
  steps (s : State) : s.Steps recording (r.run s).2
  /-- A rule that gives up leaves a diagnostic behind. -/
  blames (s : State) (hs : s.Regular) (h : (r.run s).1 = none) : (r.run s).2.diagnostics ≠ #[]

namespace Rule

open State

variable {recording : Bool} {α β : Type}

theorem Lawful.regular (recording : Bool) (r : Rule α) [Lawful recording r] {s : State}
    (hs : s.Regular) : (r.run s).2.Regular :=
  (Lawful.steps s : s.Steps recording (r.run s).2).regular hs

instance (a : α) : Lawful recording (pure a : Rule α) where
  steps s := .refl
  blames s hs h := by simp at h

theorem Lawful.bind {r : Rule α} {f : α → Rule β} [hr : Lawful recording r]
    (hf : ∀ a, Lawful recording (f a)) : Lawful recording (r >>= f) where
  steps s := by
    have hs := hr.steps s
    rw [run_bind]
    cases h : r.run s with
    | mk a t =>
      rw [h] at hs
      cases a with
      | none => exact hs
      | some a => exact hs.trans ((hf a).steps t)
  blames s hs h := by
    have ht := Lawful.regular recording r hs
    have hb := hr.blames s hs
    rw [run_bind] at h ⊢
    cases hrun : r.run s with
    | mk a t =>
      rw [hrun] at h ht hb
      cases a with
      | none => exact hb rfl
      | some a => exact (hf a).blames t ht h

instance (r : Rule α) (f : α → Rule β) [Lawful recording r] [∀ a, Lawful recording (f a)] :
    Lawful recording (r >>= f) := .bind inferInstance

instance (f : α → β) (r : Rule α) [Lawful recording r] : Lawful recording (f <$> r) :=
  inferInstanceAs (Lawful recording (r >>= fun a => pure (f a)))

instance (c : Prop) [Decidable c] (r r' : Rule α) [Lawful recording r] [Lawful recording r'] :
    Lawful recording (if c then r else r') := by
  split <;> infer_instance

instance (f : State → α) : Lawful recording (ask f) where
  steps s := .refl
  blames s hs h := by simp at h

theorem lawful_change {f : State → State} (h : ∀ s : State, s.Steps recording (f s)) :
    Lawful recording (change f) where
  steps := h
  blames s hs h := by simp at h

instance : Lawful recording (change State.skip) := lawful_change fun s => .single (.skip s)

instance (e : State → Event) : Lawful recording (change fun s => s.note (e s)) :=
  lawful_change fun s => .single (.note s (e s))

instance (kind : Kind) (span : State → Span) : Lawful true (change fun s => s.record kind (span s)) :=
  lawful_change fun s => .single (.record rfl s kind (span s))

instance (d : State → Diagnostic) : Lawful recording (giveUp fun s => s.report (d s) : Rule α) where
  steps s := .single (.report s (d s))
  blames s hs _ := hs.diagnostics_report (d s)

instance (scope : Scope → Scope) (r : Rule α) [hr : Lawful recording r] :
    Lawful recording (within scope r) where
  steps s := (hr.steps { s with scope := scope s.scope }).inScope s.scope
  blames s hs h := hr.blames { s with scope := scope s.scope } ⟨hs.valid, hs.recovering, hs.halted⟩ h

instance : Lawful recording take where
  steps s := .single (.bump s)
  blames s hs h := by simp at h

end Rule

open Rule State

variable {recording : Bool} {α : Type}

instance (kind : Kind) : Lawful recording (at? kind) := by unfold at?; infer_instance

instance (kinds : KindSet) : Lawful recording (atAny? kinds) := by unfold atAny?; infer_instance

instance (kind : Kind) : Lawful recording (before? kind) := by unfold before?; infer_instance

instance (kind : Kind) : Lawful recording (accept kind) := by unfold accept; infer_instance

/-- Where a token is expected, the run matches it, passes over the one in front of it, takes it for
granted, or gives up. -/
theorem expectAny_cases (expected : KindSet) (s : State) :
    s.kind ∈ expected ∧ (expectAny expected).run s = (some s.current, s.bump) ∨
    s.kind ∉ expected ∧ s.config.recover = true ∧ s.atBoundary = false ∧
        s.kindAfter ∈ expected ∧
      (expectAny expected).run s =
        take.run ((s.note (.deleting s.current)).blame (.extraneous expected)).skip ∨
    s.kind ∉ expected ∧ s.config.recover = true ∧ s.atBoundary = true ∧
      (expectAny expected).run s =
        (some (Token.conjured expected s.current),
          (s.note (.inserting expected s.current)).blame (.missing expected)) ∨
    s.kind ∉ expected ∧ (s.config.recover = true → s.atBoundary = false) ∧
      (expectAny expected).run s = (none, s.blame (.mismatched expected)) := by
  by_cases hk : s.kind ∈ expected
  · exact .inl ⟨hk, by simp [expectAny, run, hk, take]⟩
  refine .inr ?_
  cases hr : s.config.recover with
  | false => exact .inr (.inr ⟨hk, by simp, by simp [expectAny, run, hk, hr]⟩)
  | true =>
    cases hb : s.atBoundary with
    | true => exact .inr (.inl ⟨hk, rfl, rfl, by simp [expectAny, run, hk, hr, hb]⟩)
    | false =>
      by_cases ha : s.kindAfter ∈ expected
      · exact .inl ⟨hk, rfl, rfl, ha, by simp [expectAny, run, hk, hr, hb, ha]⟩
      · exact .inr (.inr ⟨hk, by simp, by simp [expectAny, run, hk, hr, hb, ha]⟩)

instance (expected : KindSet) : Lawful recording (expectAny expected) where
  steps s := by
    obtain ⟨-, h⟩ | ⟨-, -, -, -, h⟩ | ⟨-, -, -, h⟩ | ⟨-, -, h⟩ := expectAny_cases expected s
      <;> rw [h]
    · exact .single (.bump s)
    · exact (((Relation.ReflTransGen.single (.note s _)).tail (.report _ _)).tail
        (.skip _)).tail (.bump _)
    · exact (Relation.ReflTransGen.single (.note s _)).tail (.report _ _)
    · exact .single (.report s _)
  blames s hs h := by
    obtain ⟨-, h'⟩ | ⟨-, -, -, -, h'⟩ | ⟨-, -, -, h'⟩ | ⟨-, -, h'⟩ := expectAny_cases expected s
      <;> rw [h'] at h ⊢
    · simp at h
    · simp at h
    · simp at h
    · exact hs.diagnostics_report _

instance (kind : Kind) : Lawful recording (expect kind) := by unfold expect; infer_instance

instance (start : Nat) (expected : KindSet) : Lawful recording (noViable start expected : Rule α) := by
  unfold noViable blame; infer_instance

instance : Lawful recording (tooDeep : Rule α) := by unfold tooDeep blame; infer_instance

theorem Rule.Lawful.spanned {r : Rule (Span → α)} (h : Lawful recording r) :
    Lawful recording (Grammar.spanned r) := by
  unfold Grammar.spanned; infer_instance

instance (r : Rule (Span → α)) [Lawful recording r] : Lawful recording (spanned r) :=
  .spanned inferInstance

theorem upTo_succ (r : Rule (Option α)) (n : Nat) (values : List α) :
    upTo r (n + 1) values = r >>= fun a =>
      match a with
      | some a => upTo r n (a :: values)
      | none => pure values.reverse := by
  funext s
  simp only [upTo]
  change _ = Rule.run (r >>= _) s
  rw [run_bind]
  cases r.run s with
  | mk a t => rcases a with _ | _ | a <;> rfl

theorem lawful_upTo (recording : Bool) (r : Rule (Option α)) [hr : Lawful recording r] (n : Nat)
    (values : List α) : Lawful recording (upTo r n values) := by
  induction n generalizing values with
  | zero => unfold upTo; infer_instance
  | succ n ih =>
    rw [upTo_succ]
    refine .bind fun a => ?_
    cases a with
    | none => infer_instance
    | some a => exact ih (a :: values)

instance (r : Rule (Option α)) [hr : Lawful recording r] : Lawful recording (many r) where
  steps s := (lawful_upTo recording r s.stream.remaining []).steps s
  blames s := (lawful_upTo recording r s.stream.remaining []).blames s

instance (kind : Kind) (r : Rule α) [Lawful recording r] : Lawful recording (behind kind r) := by
  unfold behind
  refine .bind fun a => ?_
  cases a <;> infer_instance

instance (kind : Kind) (r : Rule α) [Lawful recording r] :
    Lawful recording (separated kind r) := by
  unfold separated; infer_instance

instance (r : Rule α) [Lawful recording r] : Lawful recording (parenthesised r) := by
  unfold parenthesised; infer_instance

instance (r : Rule α) [Lawful recording r] : Lawful recording (arguments r) := by
  unfold arguments; infer_instance

end PipeQuery.Grammar
