import PipeQuery.Parsed
import PipeQuery.Proofs.LimitedRules
import PipeQuery.Proofs.SoundQuery

/-!
# The limit of nesting

The limit is exact. Under whatever limit a text is read, and whatever is wrong with it, its statement
is no higher than the limit. And a text that is read without a diagnostic under some limit is read
so, and to the same statement, under just those limits that this statement is no higher than. Under
any other limit the first diagnostic is that the text nests too deep.

## Main statement

* `nesting_parse`
-/

namespace PipeQuery

namespace Grammar

open Rule State Limits

variable {α : Type} {L : Limits}

/-! ## Stages -/

section

variable (kind : Kind) (span : α → Span) (error : Span → α)

/-- What becomes of a run at the end of its stage. -/
def endStage (start : Nat) : Option α × State → α × State
  | (some a, t) => (a, t.record kind (span a))
  | (none, t) => (error (t.resync start).1, (t.resync start).2)

theorem stage_eq_endStage (r : Rule α) (s : State) :
    stage r kind span error s = endStage kind span error s.position (r.run s) := by
  rw [stage]
  obtain ⟨_ | a, t⟩ := r.run s <;> rfl

theorem steps_endStage (start : Nat) (x : Option α × State) :
    x.2.Steps true (endStage kind span error start x).2 := by
  obtain ⟨_ | a, t⟩ := x
  · exact steps_resync t start
  · exact .single (.record rfl t kind (span a))

/-- A stage that cannot be read nests nothing. -/
theorem Limits.Measures.stage {height : α → Nat} {r r' : Rule α} (hr : L.Measures 0 height r r')
    (herror : ∀ span, height (error span) = 0) :
    L.Measures 0 height (total (stage r kind span error)) (total (stage r' kind span error)) where
  lawful := by
    have := hr.lawful
    exact lawful_total (steps_stage r kind span error)
  lawful' := by
    have := hr.lawful'
    exact lawful_total (steps_stage r' kind span error)
  known_le _ := Nat.zero_le _
  height_le {s t a} hrun _ := by
    have hle (b : α) (u : State) (h : r.run s = (some b, u)) : height b ≤ L.levels :=
      hr.height_le h (Nat.zero_le _)
    rw [run_total, stage_eq_endStage] at hrun
    generalize r.run s = x at hle hrun
    obtain ⟨_ | b, u⟩ := x <;> cases hrun
    · exact Nat.le_trans (Nat.le_of_eq (herror _)) (Nat.zero_le _)
    · exact hle b u rfl
  outcome {s} hs hk := by
    have h := hr.outcome hs hk
    rw [run_total, run_total, stage_eq_endStage, stage_eq_endStage]
    generalize r.run s = x at h ⊢
    generalize r'.run (s.limited L.limit) = x' at h ⊢
    cases h with
    | within fits clear => exact .within fits (clear.reads_record kind _).clear'
    | beyond exceeds first =>
      exact .beyond exceeds (first.steps (steps_endStage kind span error _ x'))
    | faulty diagnostics =>
      exact .faulty fun hd => diagnostics ((steps_endStage kind span error _ x).diagnostics hd)

end

/-- The next stage, if there is one, and then those behind it. -/
theorem total_stagesUpTo_succ (inner : Expressions) (n : Nat)
    (stages : List (Token × ProcessingCommand)) :
    total (stagesUpTo inner (n + 1) stages) = (do
      if ← at? .pipe then
        let bar ← take
        let command ← total (processingStage inner)
        total (stagesUpTo inner n ((bar, command) :: stages))
      else if ← ask (·.atBoundary) then return stages.reverse
      else
        change (·.skipExtraneous)
        total (stagesUpTo inner n stages)) := by
  funext s
  change (some _, _) = Rule.run (if (s.kind == .pipe) = true then _ else _) s
  by_cases hk : s.kind = .pipe
  · rw [if_pos (by simp [hk]), stagesUpTo_pipe hk]
    rfl
  · rw [if_neg (by simp [hk])]
    change _ = Rule.run (if s.atBoundary = true then _ else _) s
    cases hb : s.atBoundary with
    | true =>
      rw [if_pos rfl, stagesUpTo_boundary hk hb]
      rfl
    | false =>
      rw [if_neg Bool.false_ne_true, stagesUpTo_extraneous hk hb]
      rfl

/-- What stands behind a whole command is blamed. -/
theorem measures_skipExtraneous (k : Nat) :
    L.Measures k (fun _ => k) (change (·.skipExtraneous)) (change (·.skipExtraneous)) where
  lawful := lawful_change steps_skipExtraneous
  lawful' := lawful_change steps_skipExtraneous
  known_le _ := Nat.le_refl k
  height_le _ hk := hk
  outcome hs _ := .faulty fun hd =>
    hs.diagnostics_report _ ((steps_resync _ _).diagnostics hd)

theorem measures_stagesUpTo {inner inner' : Expressions} [inner.Lawful true] [inner'.Lawful true]
    (h : L.MeasuresExpressions inner inner') (n : Nat)
    (stages : List (Token × ProcessingCommand)) :
    L.Measures (tallest (·.2.height) stages) (tallest (·.2.height))
      (total (stagesUpTo inner n stages)) (total (stagesUpTo inner' n stages)) := by
  induction n generalizing stages with
  | zero => exact .pure (tallest_reverse _ stages)
  | succ n ih =>
    rw [total_stagesUpTo_succ, total_stagesUpTo_succ]
    refine .after fun piped => ?_
    split
    · have hstage : L.Measures 0 ProcessingCommand.height (total (processingStage inner))
          (total (processingStage inner')) :=
        h.processingCommand.stage .processingCommand ProcessingCommand.span .error fun _ => rfl
      refine .after fun bar => hstage.next fun command => ?_
      have hrest := ih ((bar, command) :: stages)
      rwa [tallest_cons, Nat.max_comm] at hrest
    · refine .after fun ended => ?_
      split
      · exact .pure (tallest_reverse _ stages)
      · exact (measures_skipExtraneous _).bind fun skipped => ih stages

/-! ## Queries -/

/-- The stages behind the first one. -/
def laterStages (inner : Expressions) : State → List (Token × ProcessingCommand) × State :=
  fun s => stagesUpTo inner s.stream.remaining [] s

theorem total_pipeline (inner : Expressions) (query : Rule Query) :
    total (pipeline inner query) = (do
      let first ← total (sourceStage inner query)
      return .ofStages first (← total (laterStages inner))) := rfl

theorem measures_laterStages {inner inner' : Expressions} [inner.Lawful true] [inner'.Lawful true]
    (h : L.MeasuresExpressions inner inner') :
    L.Measures 0 (tallest (·.2.height)) (total (laterStages inner))
      (total (laterStages inner')) where
  lawful := lawful_total fun s => steps_stagesUpTo inner _ _ s
  lawful' := lawful_total fun s => steps_stagesUpTo inner' _ _ s
  known_le _ := Nat.zero_le _
  height_le {s _ _} hrun := (measures_stagesUpTo h s.stream.remaining []).height_le hrun
  outcome {s} hs := (measures_stagesUpTo h s.stream.remaining []).outcome hs

theorem measures_pipeline {inner inner' : Expressions} [inner.Lawful true] [inner'.Lawful true]
    (h : L.MeasuresExpressions inner inner') {query query' : Rule Query}
    (hquery : L.Measures 0 (·.height + 1) query query') :
    L.Measures 0 Query.height (total (pipeline inner query)) (total (pipeline inner' query')) := by
  have hsource : L.Measures 0 SourceCommand.height (total (sourceStage inner query))
      (total (sourceStage inner' query')) :=
    (h.sourceCommand hquery).stage .sourceCommand SourceCommand.span .error fun _ => by
      simp [SourceCommand.height]
  rw [total_pipeline, total_pipeline]
  exact hsource.bind fun first => (measures_laterStages h).next fun stages =>
    .pure (Query.height_ofStages first stages)

/-- The queries that are read on one level are those that are read on another one, as far as they
are not too high. -/
theorem measures_query (n m limit : Nat) :
    (Limits.mk n m limit).Measures 0 Query.height (total (query n)) (total (query m)) := by
  have h (n : Nat) (hinner : ∀ m, (Limits.mk n m limit).Measures 0 (·.height + 1) (innerQuery n)
      (innerQuery m)) (m : Nat) :
      (Limits.mk n m limit).Measures 0 Query.height (total (query n)) (total (query m)) := by
    rw [query_eq, query_eq]
    exact measures_pipeline (measuresExpressions n m limit) (hinner m)
  induction n generalizing m with
  | zero => exact h 0 (fun m => .stopped fun _ => rfl) m
  | succ n ih => exact h (n + 1) (.of_levels (R := innerQuery) rfl ih) m

/-- A query that is read without a diagnostic is read under another limit, unless it is too high. -/
theorem query_limited {n : Nat} {s : State} (hs : s.Clear) (hd : (query n s).2.diagnostics = #[])
    (limit : Nat) :
    (query n s).1.height ≤ limit ∧
        query limit (s.limited limit) = ((query n s).1, (query n s).2.limited limit) ∨
      limit < (query n s).1.height ∧ (query limit (s.limited limit)).2.TooDeep limit := by
  have h := (measures_query n limit limit).outcome hs (Nat.zero_le _)
  rw [run_total, run_total] at h
  generalize query n s = x at hd h ⊢
  generalize query limit (s.limited limit) = x' at h ⊢
  obtain ⟨q, t⟩ := x
  obtain ⟨q', t'⟩ := x'
  cases h with
  | within fits clear => exact .inl ⟨fits, rfl⟩
  | beyond exceeds first => exact .inr ⟨exceeds, first⟩
  | faulty diagnostics => exact absurd hd diagnostics

end Grammar

open Grammar

/-- The limit of nesting is exact, and the height of a statement is within it. Where a text is read
without a diagnostic under some limit, it is read so under another one just when the height of its
statement is within that one too, and then to the same statement and the same tree; else the first
diagnostic is that the text nests too deep. -/
theorem nesting_parse (tokens : List Token) (config : Config) :
    (parse tokens config).statement.height ≤ config.maxDepth ∧
      ((parse tokens config).isOk = true → ∀ limit : Nat,
        ((parse tokens { config with maxDepth := limit }).isOk = true ↔
          (parse tokens config).statement.height ≤ limit) ∧
        ((parse tokens config).statement.height ≤ limit →
          (parse tokens { config with maxDepth := limit }).statement
              = (parse tokens config).statement ∧
            (parse tokens { config with maxDepth := limit }).tree = (parse tokens config).tree) ∧
        (limit < (parse tokens config).statement.height →
          ∃ token rest, (parse tokens { config with maxDepth := limit }).diagnostics
            = ⟨.nestingTooDeep limit, token⟩ :: rest)) := by
  refine ⟨(measures_query config.maxDepth 0 0).height_le (Rule.run_total _ _) (Nat.zero_le _),
    fun hok limit => ?_⟩
  have hd : (query config.maxDepth (.start config tokens)).2.diagnostics = #[] :=
    isOk_parse.1 hok
  obtain ⟨hle, hquery⟩ | ⟨hlt, token, hfirst⟩ :=
    query_limited (State.clear_start config tokens) hd limit
  · have hsame : Grammar.statement limit ((State.start config tokens).limited limit)
        = ((Grammar.statement config.maxDepth (.start config tokens)).1,
          (Grammar.statement config.maxDepth (.start config tokens)).2.limited limit) := by
      rw [Grammar.statement, hquery]
      rfl
    have hok' : (parse tokens { config with maxDepth := limit }).isOk = true :=
      isOk_parse.2 ((congrArg (·.2.diagnostics) hsame).trans hd)
    have htree : (parse tokens { config with maxDepth := limit }).tree
        = (parse tokens config).tree :=
      congrArg (fun x : Statement × State =>
        (ConcreteTree.ofRegions tokens x.2.regions.toList).1) hsame
    exact ⟨iff_of_true hok' hle, fun _ => ⟨congrArg Prod.fst hsame, htree⟩,
      fun hlt => absurd hle (Nat.not_le.2 hlt)⟩
  · rw [← Array.getElem?_toList, ← List.head?_eq_getElem?, List.head?_eq_some_iff] at hfirst
    obtain ⟨rest, hfirst⟩ := hfirst
    have hdiagnostics : (parse tokens { config with maxDepth := limit }).diagnostics
        = ⟨.nestingTooDeep limit, token⟩ :: rest := hfirst
    have hnot : (parse tokens { config with maxDepth := limit }).isOk = false := by
      rw [Parsed.isOk, hdiagnostics]
      rfl
    exact ⟨iff_of_false (by simp [hnot]) (Nat.not_le.2 hlt),
      fun hle => absurd hlt (Nat.not_lt.2 hle), fun _ => ⟨token, rest, hdiagnostics⟩⟩

/-- The tokens of `EXPLAIN[ROW(1)]`. -/
def explainRow : List Token :=
  [⟨.kwExplain, "EXPLAIN", 0, 7, 1, 0⟩, ⟨.leftBracket, "[", 7, 8, 1, 7⟩,
    ⟨.kwRow, "ROW", 8, 11, 1, 8⟩, ⟨.leftParen, "(", 11, 12, 1, 11⟩,
    ⟨.integer, "1", 12, 13, 1, 12⟩, ⟨.rightParen, ")", 13, 14, 1, 13⟩,
    ⟨.rightBracket, "]", 14, 15, 1, 14⟩]

/-- The query in brackets is a level, and so are the two conditions and the two arithmetic
expressions, in front of the parenthesis and behind it. -/
theorem nesting_parse_explainRow :
    (parse explainRow {}).isOk = true ∧ (parse explainRow {}).statement.height = 5 ∧
      (parse explainRow { maxDepth := 5 }).statement = (parse explainRow {}).statement ∧
      ∃ token rest, (parse explainRow { maxDepth := 4 }).diagnostics
        = ⟨.nestingTooDeep 4, token⟩ :: rest := by
  have hok : (parse explainRow {}).isOk = true := by decide
  have hheight : (parse explainRow {}).statement.height = 5 := by decide
  exact ⟨hok, hheight, (((nesting_parse explainRow {}).2 hok 5).2.1 (Nat.le_of_eq hheight)).1,
    ((nesting_parse explainRow {}).2 hok 4).2.2 (by rw [hheight]; decide)⟩

end PipeQuery
