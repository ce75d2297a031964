import PipeQuery.Ast.SExpression
import PipeQuery.Parsed
import PipeQuery.Proofs.Regions

/-!
# Stage by stage

A query is read one stage after the other. `stageReadings` tells what each stage of a text was read
as and what was reported while it was read, what stands between its command and the next pipe
included. Together that is the statement that is read and all that is reported
(`inStages_parse`).
-/

namespace PipeQuery

/-- What a stage was read as, and what was reported in it. -/
structure StageReading where
  /-- The command of the stage. -/
  command : SourceCommand ⊕ ProcessingCommand
  /-- The diagnostics of the stage. -/
  reported : List Diagnostic

/-- The commands of a query, the source command first. -/
def Query.commands (q : Query) : List (SourceCommand ⊕ ProcessingCommand) :=
  .inl q.sourceCommand :: q.processingCommands.map .inr

namespace Grammar

namespace State

/-- Passes over what is left of a stage behind its command. -/
def settle (s : State) : State := if s.atBoundary then s else s.skipExtraneous

/-- What was reported since an earlier state. -/
def reportedSince (t s : State) : List Diagnostic := t.diagnostics.toList.drop s.diagnostics.size

/-- No step takes a diagnostic back. -/
theorem Steps.prefix_diagnostics {recording : Bool} {s t : State} (h : s.Steps recording t) :
    s.diagnostics.toList <+: t.diagnostics.toList := by
  induction h with
  | refl => exact List.prefix_rfl
  | tail _ hstep ih =>
    refine ih.trans ?_
    cases hstep with
    | bump | skip | note | record => exact List.prefix_rfl
    | report s d =>
      unfold State.report
      split
      · exact List.prefix_rfl
      · simp

theorem Steps.append_reportedSince {recording : Bool} {s t : State} (h : s.Steps recording t) :
    s.diagnostics.toList ++ t.reportedSince s = t.diagnostics.toList := by
  obtain ⟨ds, hds⟩ := h.prefix_diagnostics
  rw [reportedSince, ← hds, ← Array.length_toList, List.drop_left]

theorem steps_settle (s : State) : s.Steps true s.settle := by
  unfold settle
  split
  · exact .refl
  · exact steps_skipExtraneous s

theorem settle_of_atBoundary {s : State} (h : s.atBoundary = true) : s.settle = s := if_pos h

/-- Tokens are passed over up to a boundary. -/
theorem atBoundary_passOver {n : Nat} {s : State} (hs : s.stream.Valid)
    (hn : s.stream.remaining ≤ n) : (s.passOver n).atBoundary = true := by
  induction n generalizing s with
  | zero =>
    have hr : s.stream.rest = [] := List.length_eq_zero_iff.1 (Nat.le_zero.1 hn)
    exact atBoundary_iff.2 (.inr (.inl (hs.kind_eq_endOfInput_iff.2 hr)))
  | succ n ih =>
    rw [passOver]
    split
    · next h =>
      simp only [Bool.or_eq_true, Bool.and_eq_true] at h
      rcases h with h | h
      · have hr : s.stream.rest = [] := by simpa [TokenStream.atEnd] using h
        exact atBoundary_iff.2 (.inr (.inl (hs.kind_eq_endOfInput_iff.2 hr)))
      · exact h.2
    · have hnext : s.skip.stream.remaining = s.stream.remaining - 1 :=
        TokenStream.remaining_next s.stream
      exact ih (hs.reads s.stream.reads_next) (by omega)

/-- What is passed over holds no boundary. -/
theorem exists_reads_passOver {s : State} (hs : s.stream.Valid) (hh : s.halted = false) (n : Nat) :
    ∃ ps, s.stream.Reads ps (s.passOver n).stream ∧ ∀ x ∈ ps, x.1.kind ∉ s.boundaryKinds := by
  induction n generalizing s with
  | zero => exact ⟨[], .refl _, by simp⟩
  | succ n ih =>
    rw [passOver]
    split
    · exact ⟨[], .refl _, by simp⟩
    · next h =>
      simp only [hh, Bool.not_false, Bool.true_and, Bool.or_eq_true, not_or,
        Bool.not_eq_true] at h
      obtain ⟨hend, hboundary⟩ := h
      obtain ⟨ps, hps, hkinds⟩ := ih (s := s.skip) (hs.reads s.stream.reads_next) hh
      refine ⟨s.stream.rest.take 1 ++ ps, s.stream.reads_next.trans hps, fun x hx => ?_⟩
      rcases List.mem_append.1 hx with hx | hx
      · have hkind : x.1.kind = s.kind := by
          have hfront := hs.kind_eq
          cases hr : s.stream.rest with
          | nil => simp [hr] at hx
          | cons y rest =>
            rw [hr, frontKind_cons] at hfront
            obtain rfl : x = y := by simpa [hr] using hx
            exact hfront.symm
        rw [hkind]
        exact not_mem_boundaryKinds hboundary
      · exact hkinds x hx

theorem atBoundary_resync {s : State} (hs : s.stream.Valid) (start : Nat) :
    (s.resync start).2.atBoundary = true := atBoundary_passOver hs (Nat.le_refl _)

/-- A stage that is given up ends in front of the first boundary. In a query in brackets that is the
first `]` at the latest, even one that closes a list of the stage. -/
theorem exists_reads_resync {s : State} (hs : s.stream.Valid) (hh : s.halted = false)
    (start : Nat) : ∃ ps, s.stream.Reads ps (s.resync start).2.stream ∧
      (∀ x ∈ ps, x.1.kind ∉ s.boundaryKinds) ∧ (s.resync start).2.atBoundary = true := by
  obtain ⟨ps, hps, hkinds⟩ := exists_reads_passOver hs hh s.stream.remaining
  exact ⟨ps, hps, hkinds, atBoundary_resync hs start⟩

/-- The stage behind the list that is given up leaves the brackets. -/
example : (parseText "explain [row a = [, 1] | limit 2]").statement.sexpr
    = "(pipe (explain (error)) (limit 2))" := by decide +kernel

theorem atBoundary_settle {s : State} (hs : s.stream.Valid) : s.settle.atBoundary = true := by
  unfold settle
  split
  · assumption
  · exact atBoundary_resync (by rwa [blame, stream_report]) _

end State

/-! ## Readings -/

/-- How the first stage is read, and the state behind it. -/
def sourceReading (levels : Nat) (s : State) : StageReading × State :=
  let (command, t) := sourceStage (expressions levels) (innerQuery levels) s
  (⟨.inl command, t.settle.reportedSince s⟩, t.settle)

/-- How a stage behind a pipe is read, and the state behind it. -/
def pipedReading (inner : Expressions) (s : State) : StageReading × State :=
  let (command, t) := processingStage inner s
  (⟨.inr command, t.settle.reportedSince s⟩, t.settle)

/-- How the stages behind their pipes are read, `n` at most. -/
def pipedReadings (inner : Expressions) : Nat → State → List StageReading
  | 0, _ => []
  | n + 1, s =>
    if s.kind = .pipe then
      let (reading, t) := pipedReading inner s.bump
      reading :: pipedReadings inner n t
    else []

/-- How the stages of a query are read. -/
def readings (levels : Nat) (s : State) : List StageReading :=
  let (reading, t) := sourceReading levels s
  reading :: pipedReadings (expressions levels) t.stream.remaining t

section

variable {inner : Expressions} {s : State}

theorem pipedReadings_pipe (hk : s.kind = .pipe) (n : Nat) :
    pipedReadings inner (n + 1) s = (pipedReading inner s.bump).1
      :: pipedReadings inner n (pipedReading inner s.bump).2 := if_pos hk

theorem pipedReadings_of_ne (hk : s.kind ≠ .pipe) (n : Nat) : pipedReadings inner n s = [] := by
  cases n with
  | zero => rfl
  | succ n => exact if_neg hk

/-- The readings of the stages make up what is read and reported. -/
theorem stagesUpTo_readings [inner.Lawful true] (n m : Nat) (hs : s.Regular)
    (hn : s.stream.remaining ≤ n) (hm : s.settle.stream.remaining ≤ m)
    (stages : List (Token × ProcessingCommand)) :
    ∃ l, (stagesUpTo inner n stages s).1 = stages.reverse ++ l ∧
      (pipedReadings inner m s.settle).map StageReading.command = l.map (.inr ·.2) ∧
      (stagesUpTo inner n stages s).2.diagnostics.toList = s.settle.diagnostics.toList
        ++ (pipedReadings inner m s.settle).flatMap StageReading.reported := by
  induction n generalizing m stages s with
  | zero =>
    have hr : s.stream.rest = [] := List.length_eq_zero_iff.1 (Nat.le_zero.1 hn)
    have hk : s.kind = .endOfInput := hs.valid.kind_eq_endOfInput_iff.2 hr
    have hb : s.atBoundary = true := State.atBoundary_iff.2 (.inr (.inl hk))
    rw [State.settle_of_atBoundary hb, pipedReadings_of_ne (by simp [hk])]
    exact ⟨[], by simp [stagesUpTo]⟩
  | succ n ih =>
    by_cases hk : s.kind = .pipe
    · have hb : s.atBoundary = true := State.atBoundary_iff.2 (.inl hk)
      have hbump : s.Steps true s.bump := .single (.bump s)
      have hstage := steps_processingStage inner s.bump
      have hlt := remaining_bump_lt hs.valid (by simp [hk])
      rw [State.settle_of_atBoundary hb] at hm ⊢
      obtain ⟨m, rfl⟩ : ∃ k, m = k + 1 := Nat.exists_eq_succ_of_ne_zero (by omega)
      rw [stagesUpTo_pipe hk, pipedReadings_pipe hk, pipedReading]
      generalize processingStage inner s.bump = x at hstage ⊢
      obtain ⟨command, t⟩ := x
      have hstage : s.bump.Steps true t := hstage
      have hm : s.stream.remaining ≤ m + 1 := hm
      have hle := remaining_le_of_steps hstage
      have hle' := remaining_le_of_steps t.steps_settle
      obtain ⟨l, hl, hcommands, hreported⟩ := ih m (hstage.regular (hbump.regular hs)) (by omega)
        (by omega) ((s.current, command) :: stages)
      have happend := State.Steps.append_reportedSince (hstage.trans t.steps_settle)
      refine ⟨(s.current, command) :: l, ?_, ?_, ?_⟩
      · rw [hl, List.reverse_cons, List.append_assoc, List.singleton_append]
      · rw [List.map_cons, List.map_cons, hcommands]
      · rw [hreported, List.flatMap_cons, ← List.append_assoc]
        exact congrArg (· ++ _) happend.symm
    · cases hb : s.atBoundary with
      | true =>
        rw [stagesUpTo_boundary hk hb, State.settle_of_atBoundary hb, pipedReadings_of_ne hk]
        exact ⟨[], by simp⟩
      | false =>
        have hsettle : s.settle = s.skipExtraneous := if_neg (by simp [hb])
        have hregular := (steps_skipExtraneous s).regular hs
        have hboundary : s.skipExtraneous.atBoundary = true :=
          hsettle ▸ State.atBoundary_settle hs.valid
        have hlt := remaining_skipExtraneous hs hb
        rw [hsettle] at hm ⊢
        have hih := ih m hregular (by omega) (by rwa [State.settle_of_atBoundary hboundary]) stages
        rw [State.settle_of_atBoundary hboundary] at hih
        rw [stagesUpTo_extraneous hk hb]
        exact hih

end

theorem commands_ofStages (first : SourceCommand) (stages : List (Token × ProcessingCommand)) :
    (Query.ofStages first stages).commands = .inl first :: stages.map (.inr ·.2) := by
  rw [Query.commands, Query.processingCommands, Query.sourceCommand_ofStages,
    Query.stages_ofStages, List.map_map]
  rfl

theorem query_readings (levels : Nat) {s : State} (hs : s.Regular) :
    (readings levels s).map StageReading.command = (query levels s).1.commands ∧
      s.diagnostics.toList ++ (readings levels s).flatMap StageReading.reported
        = (query levels s).2.diagnostics.toList := by
  have hsource := steps_sourceStage (expressions levels) (innerQuery levels) s
  rw [query_eq, readings, sourceReading, pipeline]
  generalize sourceStage (expressions levels) (innerQuery levels) s = x at hsource ⊢
  obtain ⟨first, t⟩ := x
  have hsource : s.Steps true t := hsource
  obtain ⟨l, hl, hcommands, hreported⟩ := @stagesUpTo_readings (expressions levels) t _
    t.stream.remaining t.settle.stream.remaining (hsource.regular hs) (Nat.le_refl _)
    (Nat.le_refl _) []
  have happend := State.Steps.append_reportedSince (hsource.trans t.steps_settle)
  constructor
  · change _ = (Query.ofStages first (stagesUpTo _ t.stream.remaining [] t).1).commands
    rw [commands_ofStages, hl, List.map_cons, hcommands]
    rfl
  · change _ = (stagesUpTo _ t.stream.remaining [] t).2.diagnostics.toList
    rw [List.flatMap_cons, ← List.append_assoc, hreported]
    exact congrArg (· ++ _) happend

end Grammar

/-- How the stages of a text are read, one after the other. -/
def stageReadings (tokens : List Token) (config : Config) : List StageReading :=
  Grammar.readings config.maxDepth (.start config tokens)

/-- The stages make up what was read, and what was reported. -/
structure Parsed.InStages (p : Parsed) (stages : List StageReading) : Prop where
  /-- The commands are those of the statement. -/
  commands : stages.map StageReading.command = p.statement.query.commands
  /-- The diagnostics are all that was reported, in its order. -/
  reported : stages.flatMap StageReading.reported = p.diagnostics

theorem inStages_parse (tokens : List Token) (config : Config) :
    (parse tokens config).InStages (stageReadings tokens config) := by
  have h := Grammar.query_readings config.maxDepth (Grammar.State.regular_start config tokens)
  exact ⟨h.1, h.2⟩

end PipeQuery
