import PipeQuery.Proofs.StrictReading

/-!
# Readings that break off

A strict reading that reports something is over at once: it passes over all that is left. Where the
mistake is in a stage, the stage becomes an error that reaches to the end of the text, and it is the
last one (`Query.trailingError?`). But where the mistake is what stands behind a whole command of the
outermost query, the command is kept, and nothing in the query tells that tokens were passed over;
the diagnostic is the only sign of it.

## Main statement

* `exists_trailingError_parse`: a strict reading with a diagnostic ends in an error that reaches the
  last token, or the diagnostic blames a token behind a whole command.
-/

namespace PipeQuery

/-- The span of the last stage, where it is an error. -/
def Query.trailingError? : Query → Option Span
  | .source (.error span) => some span
  | .pipe _ _ (.error span) => some span
  | _ => none

/-- A span that goes on to the last token that the grammar sees, or has no tokens. -/
def Span.ReachesEnd (span : Span) (tokens : List Token) : Prop :=
  span.isEmpty = true ∨ ∃ x ∈ (TokenStream.significant tokens).getLast?, span.stop = x.2 + 1

namespace Grammar

open Rule State

variable {s t : State} {d : Diagnostic} {α : Type}

/-- What was read up to the end of a text reaches the end, wherever it began. -/
theorem State.reachesEnd_spanFrom (ht : t.stream.Valid) (hr : t.stream.rest = []) (start : Nat) :
    (t.spanFrom start).ReachesEnd t.stream.tokens := by
  obtain ⟨ps, hps, hprevious⟩ := ht.exists_append_eq_significant
  rw [hr, List.append_nil] at hps
  rw [Span.ReachesEnd, hps, State.spanFrom, hprevious]
  cases ps.getLast? with
  | none => exact .inl (by simp [Span.isEmpty])
  | some x =>
    by_cases hx : x.2 + 1 ≤ start
    · exact .inl (by simp [Span.isEmpty, Nat.max_eq_right hx])
    · exact .inr ⟨x, rfl, Nat.max_eq_left (by omega)⟩

/-- A strict run is over with the diagnostic `d`, and has come to the end of the text. -/
structure State.Halted (d : Diagnostic) (t : State) : Prop where
  /-- The run is over. -/
  reported : t.Over d
  /-- Nothing is left. -/
  rest : t.stream.rest = []

/-- What a stage comes to that is read strictly: a command without a mistake in it, or an error with
all that was left. -/
inductive StrictStage (error : Span → α) : α × State → Prop
  | command {command : α} {t : State} (clear : t.Clear) : StrictStage error (command, t.strict)
  | broken {d : Diagnostic} {t : State} (start : Nat) (halted : t.Halted d) :
    StrictStage error (error (t.spanFrom start), t)

theorem strictStage {r : Rule α} (hr : InStep r) (kind : Kind) (span : α → Span)
    (error : Span → α) (hs : s.Clear) : StrictStage error (stage r kind span error s.strict) := by
  have hagrees := hr.agrees hs
  rw [stage]
  generalize r.run s = x at hagrees
  generalize r.run s.strict = x' at hagrees ⊢
  cases hagrees with
  | same clear => exact .command (clear.reads_record kind _).clear'
  | apart first alike ended =>
    obtain ⟨hover, hrest⟩ := ended.resync s.strict.position
    exact .broken _ ⟨hover, hrest⟩

/-- What stands behind a whole command ends a strict reading. -/
theorem halted_skipExtraneous (hs : s.Clear) :
    s.strict.skipExtraneous.Halted ⟨.extraneous s.boundaryKinds, s.current⟩ := by
  obtain ⟨hover, hrest⟩ := (hs.over_report ⟨.extraneous s.boundaryKinds, s.current⟩).resync s.position
  exact ⟨hover, hrest⟩

/-- What the stages come to that are read strictly: commands without a mistake in them, the last one
an error with all that was left, or commands with a token behind them that is blamed. -/
inductive StrictStages (kinds : KindSet) : List (Token × ProcessingCommand) × State → Prop
  | commands {stages : List (Token × ProcessingCommand)} {t : State} (clear : t.Clear) :
    StrictStages kinds (stages, t.strict)
  | broken {before : List (Token × ProcessingCommand)} {bar : Token} {d : Diagnostic} {t : State}
    (start : Nat) (halted : t.Halted d) :
    StrictStages kinds (before ++ [(bar, .error (t.spanFrom start))], t)
  | extraneous {stages : List (Token × ProcessingCommand)} {token : Token} {t : State}
    (halted : t.Halted ⟨.extraneous kinds, token⟩) : StrictStages kinds (stages, t)

theorem strictStages (inner : Expressions) [inner.Lawful true] [inner.InStep] (n : Nat)
    (stages : List (Token × ProcessingCommand)) (hs : s.Clear) :
    StrictStages s.boundaryKinds (stagesUpTo inner n stages s.strict) := by
  induction n generalizing stages s with
  | zero => exact .commands hs
  | succ n ih =>
    by_cases hk : s.kind = .pipe
    · rw [stagesUpTo_pipe (s := s.strict) hk]
      have hbump : s.bump.Clear := hs.reads_bump.clear'
      have hsteps : s.bump.strict.Steps true (processingStage inner s.bump.strict).2 :=
        steps_processingStage inner s.bump.strict
      have hregular := hsteps.regular hbump.strict.toRegular
      have hscope := hsteps.scope
      have hstage : StrictStage .error (processingStage inner s.bump.strict) :=
        strictStage (inferInstanceAs (InStep (processingCommand inner))) .processingCommand
          ProcessingCommand.span .error hbump
      change StrictStages s.boundaryKinds (stagesUpTo inner n
        ((s.current, (processingStage inner s.bump.strict).1) :: stages)
        (processingStage inner s.bump.strict).2)
      generalize processingStage inner s.bump.strict = x at hstage hregular hscope ⊢
      cases hstage with
      | @command command t clear =>
        have hkinds : t.boundaryKinds = s.boundaryKinds := by
          rw [State.boundaryKinds, State.boundaryKinds, show t.scope = s.scope from hscope]
        rw [← hkinds]
        exact ih _ clear
      | broken start halted =>
        rw [stagesUpTo_of_rest_nil inner n _ halted.rest hregular, List.reverse_cons]
        exact .broken start halted
    · cases hb : s.atBoundary with
      | true =>
        rw [stagesUpTo_boundary (s := s.strict) hk hb]
        exact .commands hs
      | false =>
        rw [stagesUpTo_extraneous (s := s.strict) hk hb]
        have hhalted := halted_skipExtraneous hs
        have hregular := (steps_skipExtraneous s.strict).regular hs.strict.toRegular
        rw [stagesUpTo_of_rest_nil inner n stages hhalted.rest hregular]
        exact .extraneous hhalted

/-- What a query comes to that is read strictly. -/
inductive StrictQuery (kinds : KindSet) : Query × State → Prop
  | whole {q : Query} {t : State} (clear : t.Clear) : StrictQuery kinds (q, t.strict)
  | broken {q : Query} {d : Diagnostic} {t : State} (start : Nat) (halted : t.Halted d)
    (error : q.trailingError? = some (t.spanFrom start)) : StrictQuery kinds (q, t)
  | extraneous {q : Query} {token : Token} {t : State}
    (halted : t.Halted ⟨.extraneous kinds, token⟩) : StrictQuery kinds (q, t)

theorem strictQuery_pipeline (inner : Expressions) [inner.Lawful true] [inner.InStep]
    {query : Rule Query} (hq : QueryInStep query) (hs : s.Clear) :
    StrictQuery s.boundaryKinds (pipeline inner query s.strict) := by
  have := hq.lawful
  have hsteps : s.strict.Steps true (sourceStage inner query s.strict).2 :=
    steps_sourceStage inner query s.strict
  have hregular := hsteps.regular hs.strict.toRegular
  have hscope := hsteps.scope
  have hsource : StrictStage .error (sourceStage inner query s.strict) :=
    strictStage (inStep_sourceCommand inner hq) .sourceCommand SourceCommand.span .error hs
  rw [pipeline]
  generalize sourceStage inner query s.strict = x at hsource hregular hscope ⊢
  cases hsource with
  | @command first t clear =>
    have hkinds : t.boundaryKinds = s.boundaryKinds := by
      rw [State.boundaryKinds, State.boundaryKinds, show t.scope = s.scope from hscope]
    have hstages := strictStages inner t.stream.remaining [] clear
    rw [hkinds] at hstages
    change StrictQuery s.boundaryKinds
      (.ofStages first (stagesUpTo inner t.stream.remaining [] t.strict).1,
        (stagesUpTo inner t.stream.remaining [] t.strict).2)
    generalize stagesUpTo inner t.stream.remaining [] t.strict = y at hstages ⊢
    cases hstages with
    | commands clear => exact .whole clear
    | broken start halted =>
      exact .broken start halted (by rw [Query.ofStages_append_singleton, Query.trailingError?])
    | extraneous halted => exact .extraneous halted
  | @broken d t start halted =>
    dsimp only
    rw [stagesUpTo_of_rest_nil inner t.stream.remaining [] halted.rest hregular]
    exact .broken start halted rfl

theorem queryInStep_innerQuery (levels : Nat) : QueryInStep (innerQuery levels) := by
  cases levels with
  | zero =>
    have htooDeep : InStep (tooDeep : Rule Query) := inferInstance
    exact ⟨htooDeep.lawful, fun h => .inl (htooDeep.agrees h)⟩
  | succ levels => exact Settles.queryInStep (steps_query levels) fun _ => settles_query levels

end Grammar

open Grammar

/-- A strict reading that reports something reports one thing. Either the last stage is an error that
reaches the last token, or has no tokens where none was left; or the diagnostic blames a token for
standing behind a whole command of the outermost query, and the query does not show it. -/
theorem exists_trailingError_parse {tokens : List Token} {maxDepth : Nat}
    (h : (parse tokens ⟨maxDepth, false⟩).isOk = false) :
    ∃ d, (parse tokens ⟨maxDepth, false⟩).diagnostics = [d] ∧
      ((∃ span, (parse tokens ⟨maxDepth, false⟩).statement.query.trailingError? = some span ∧
          span.ReachesEnd tokens) ∨
        d.cause = .extraneous (.ofList [.pipe, .endOfInput])) := by
  let start : State := .start ⟨maxDepth, true⟩ tokens
  have hclear : start.Clear := State.clear_start ⟨maxDepth, true⟩ tokens
  have hsteps : start.strict.Steps true (query maxDepth start.strict).2 :=
    steps_query maxDepth start.strict
  have hregular := hsteps.regular hclear.strict.toRegular
  obtain ⟨ps, hread⟩ := hsteps.reads
  have htokens : (query maxDepth start.strict).2.stream.tokens = tokens := hread.tokens
  have hquery : StrictQuery start.boundaryKinds (query maxDepth start.strict) := by
    rw [query_eq]
    exact strictQuery_pipeline (expressions maxDepth) (queryInStep_innerQuery maxDepth) hclear
  rw [Bool.eq_false_iff, ne_eq, isOk_parse] at h
  change (query maxDepth start.strict).2.diagnostics ≠ #[] at h
  change ∃ d, (query maxDepth start.strict).2.diagnostics.toList = [d] ∧
    ((∃ span, (query maxDepth start.strict).1.trailingError? = some span ∧ _) ∨ _)
  generalize query maxDepth start.strict = x at hquery hregular htokens h ⊢
  cases hquery with
  | whole clear => exact absurd clear.diagnostics h
  | @broken q d t first halted error =>
    refine ⟨d, congrArg Array.toList halted.reported.diagnostics, .inl ⟨_, error, ?_⟩⟩
    have hreaches := State.reachesEnd_spanFrom hregular.valid halted.rest first
    rwa [show t.stream.tokens = tokens from htokens] at hreaches
  | extraneous halted =>
    exact ⟨_, congrArg Array.toList halted.reported.diagnostics, .inr rfl⟩

/-- The tokens of `SHOW INFO INFO`. -/
def showInfoTwice : List Token :=
  [⟨.kwShow, "SHOW", 0, 4, 1, 0⟩, ⟨.whitespace, " ", 4, 5, 1, 4⟩, ⟨.kwInfo, "INFO", 5, 9, 1, 5⟩,
    ⟨.whitespace, " ", 9, 10, 1, 9⟩, ⟨.kwInfo, "INFO", 10, 14, 1, 10⟩, .endOfInput 14 1 14]

/-- The second target stands behind a whole command, which is read as if nothing were wrong. -/
example : (parse showInfoTwice ⟨128, false⟩).isOk = false ∧
    (parse showInfoTwice ⟨128, false⟩).statement.query.trailingError? = none := by decide

end PipeQuery
