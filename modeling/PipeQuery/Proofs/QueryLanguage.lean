import PipeQuery.Proofs.RuleLanguages

/-!
# Queries keep to the grammar

A query is followed by what closes it: the end of the input, or the bracket of an `EXPLAIN`. With
that kind behind it, its words warrant what a pipeline reports first (`warranted_query`). The
invariant along the stages is that what was read begins the words of the stages; a stage that gives
up has reported something, and nothing behind it changes what was reported first.
-/

open scoped Computability

namespace PipeQuery.Grammar

open Rule State
open Words hiding separated behind parenthesised arguments elements

variable {f : Bool} {K : State → Prop} {s t u : State} {ps : List Placed} {L : Language Kind}

/-- The kind that closes the query around a rule. -/
def State.closer (s : State) : Kind :=
  if 0 < s.scope.subqueries then .rightBracket else .endOfInput

theorem State.boundaryKinds_eq (s : State) : s.boundaryKinds = .ofList [.pipe, s.closer] := by
  unfold State.boundaryKinds State.closer
  split <;> rfl

theorem State.closer_eq (h : t.scope = s.scope) : t.closer = s.closer := by
  rw [State.closer, State.closer, h]

/-! ## Source commands -/

/-- Queries in brackets that keep to the grammar. -/
structure QueryKeepsTo (query : Rule Query) : Prop where
  /-- The rule is lawful. -/
  lawful : Lawful true query
  /-- What is read without a diagnostic is a word. -/
  accepts {f : Bool} {s t : State} {ps : List Placed} {q : Query} (hs : s.Ready f)
    (h : query.Accepts s ps q t) : kindsOf ps ∈ phrases f .query
  /-- With the closing bracket behind them, the words warrant what is reported first. -/
  warranted {f : Bool} {s : State} (hc : s.Clear) (hs : s.Ready f) (hsub : 0 < s.scope.subqueries) :
    s.Warranted (phrases f .query * letter .rightBracket) (query.run s).2

theorem mem_rows (f : Bool) : [.kwRow, .kwNull] ∈ phrases f .sourceCommand :=
  rows_le (Language.append_mem_mul (mem_letter _) (mem_separated (mem_fields f)))

theorem mem_subqueries (f : Bool) :
    [.leftBracket, .kwRow, .kwNull, .rightBracket] ∈ subqueries f :=
  Language.append_mem_mul (mem_letter _)
    (Language.append_mem_mul (sourceCommands_le (mem_rows f)) (mem_letter _))

/-- What stands behind the opening bracket. -/
theorem keepsTo_bracketed {query : Rule Query} (hq : QueryKeepsTo query) (start : Nat) :
    KeepsTo f K (phrases f .query * letter .rightBracket) (do
      let inner ← within (fun scope => { scope with subqueries := scope.subqueries + 1 }) query
      let _ ← expect .rightBracket
      change fun s => s.record .subquery (s.spanFrom start)
      return inner) := by
  have hclose (q : Query) : KeepsTo f Anywhere (letter .rightBracket) (do
      let _ ← expect .rightBracket
      change fun s => s.record .subquery (s.spanFrom start)
      return q) := by
    rw [← mul_one (letter _)]
    exact (keepsTo_expect (by decide)).bind (fun _ => KeepsTo.change_bind
      (fun s hs => hs.reads_record _ _) inferInstance (keepsTo_pure q)) ⟨[], rfl⟩
  have hl := hq.lawful
  constructor
  · exact .bind fun q => (hclose q).lawful
  · intro s t ps q hs _ h
    obtain ⟨q', u, qs, rs, rfl, hquery, hrest⟩ := h.of_bind fun q => (hclose q).lawful
    obtain ⟨v, hv, -⟩ := accepts_within.1 hquery
    have hs' : State.Ready f { s with scope := { s.scope with subqueries := s.scope.subqueries + 1 } } :=
      ⟨hs.predicates, hs.comparisons⟩
    rw [kindsOf_append]
    exact Language.append_mem_mul (hq.accepts hs' hv)
      ((hclose q').accepts (hs.reads hquery.reads) trivial hrest)
  · intro s hc hs _
    have hs' : State.Ready f { s with scope := { s.scope with subqueries := s.scope.subqueries + 1 } } :=
      ⟨hs.predicates, hs.comparisons⟩
    refine warranted_bind inferInstance (fun q => (hclose q).lawful) hc
      (hq.warranted (hc.inScope _) hs' (Nat.succ_pos _)) fun q ps u hquery => ?_
    obtain ⟨v, hv, -⟩ := accepts_within.1 hquery
    exact ((hclose q).warranted hquery.clear' (hs.reads hquery.reads) trivial).behind hquery.reads
      (hq.accepts hs' hv)

theorem keepsTo_subquery {query : Rule Query} (hq : QueryKeepsTo query) :
    KeepsTo f K (subqueries f) (subquery query) := by
  have hclose := Language.append_mem_mul (sourceCommands_le (mem_rows f)) (mem_letter .rightBracket)
  unfold subquery
  exact keepsTo_ask_bind fun start => (keepsTo_expect (by decide)).bind
    (fun _ => keepsTo_bracketed hq start) ⟨_, hclose⟩

theorem listings_of_mem : letter .kwShow * showTargets.letters ≤ phrases f .sourceCommand := by
  rintro _ ⟨_, hl, _, ⟨k, hk, rfl⟩, rfl⟩
  have hk : k = .kwInfo ∨ k = .kwFunctions := by simpa [showTargets] using hk
  obtain rfl | rfl := hk
  · exact listings_le .info (Language.append_mem_mul hl (mem_letter _))
  · exact listings_le .functions (Language.append_mem_mul hl (mem_letter _))

/-- What `SHOW` lists. -/
theorem keepsTo_listing (start : Nat) (hk : ∀ s, K s → s.kind = .kwShow) :
    KeepsTo f K (phrases f .sourceCommand) (do
      match ShowTarget.ofKind? (← ask (·.kindAfter)) with
      | some target =>
        let keyword ← take
        let _ ← take
        return SourceCommand.command keyword (.listing target)
      | none =>
        change (·.skip)
        noViable start showTargets : Rule (Span → SourceCommand)) := by
  refine keepsTo_ask_bind fun next => ?_
  have hafter {s : State} (hc : s.Clear) (hs : K s ∧ s.kindAfter = next) : s.skip.kind = next := by
    have hlook : s.skip.kind = s.kindAfter := by
      rw [State.kindAfter, TokenStream.lookahead_succ]
      rfl
    exact hlook.trans hs.2
  split
  · next target htarget =>
    obtain rfl := ShowTarget.ofKind?_eq_some_iff.1 htarget
    have hkeyword : KeepsTo f (fun s => K s ∧ s.kindAfter = target.kind) (letter .kwShow) take :=
      keepsTo_take (by decide) fun s hs => by simpa using hk s hs.1
    have hshown : ∀ token : Token, KeepsTo f (fun t => t.kind = target.kind) (letter target.kind)
        (do let _ ← take; return SourceCommand.command token (.listing target)) := fun token =>
      (keepsTo_take (by cases target <;> decide) fun t ht => by simpa using ht).map _
    refine (hkeyword.bind_of (Q := fun _ t => t.kind = target.kind) ?_ hshown
      ⟨_, mem_letter _⟩).mono (listings_le target)
    intro s ps token t _ hs h
    obtain ⟨x, rfl, -, -, rfl⟩ := h.of_take (by simp [hk s hs.1])
    exact hafter h.clear hs
  · next hnone =>
    refine (KeepsTo.skip_bind .kwShow (Q := fun t => t.kind = next)
      (by decide) (fun s hs => hk s hs.1) (fun s hc hs => hafter hc hs)
      (keepsTo_noViable ?_ ⟨.kwInfo, by decide⟩ (starts_letters _))).mono listings_of_mem
    rintro s rfl hmem
    have hmem : s.kind = .kwInfo ∨ s.kind = .kwFunctions := by simpa [showTargets] using hmem
    obtain hmem | hmem := hmem <;> simp [hmem, ShowTarget.ofKind?] at hnone

section

variable {inner : Expressions} {query : Rule Query}

theorem keepsTo_sourceCommand (hi : inner.KeepTo) (hq : QueryKeepsTo query) :
    KeepsTo f K (phrases f .sourceCommand) (sourceCommand inner query) := by
  have hkeyword (start : Nat) (kind : Kind) (hend : kind ≠ .endOfInput) :
      KeepsTo f (fun s => (Anywhere s ∧ s.position = start) ∧ s.kind = kind) (letter kind) take :=
    keepsTo_take (by simpa using hend.symm) fun s hs => by simpa using hs.2
  have hsource : KeepsTo f Anywhere sourceNames.letters (identifierOf sourceNames) :=
    keepsTo_identifierOf names_sourceNames ⟨.sourceIdentifier, by decide⟩
  have hsources : [.sourceIdentifier] ∈ sourceNames.letters :=
    KindSet.singleton_mem_letters (by decide)
  unfold sourceCommand
  refine KeepsTo.spanned (KeepsTo.change_bind (fun s hs => hs.reads_note _) inferInstance
    (keepsTo_ask_bind fun start => keepsTo_ask_bind fun kind => ?_))
  split
  · exact ((hkeyword start _ (by decide)).bind (fun keyword => (keepsTo_subquery hq).map _)
      ⟨_, mem_subqueries f⟩).mono explains_le
  · exact ((hkeyword start _ (by decide)).bind
      (fun keyword => (hsource.separated (by decide) hsource).map _)
      ⟨_, mem_separated hsources⟩).mono indices_le
  · exact ((hkeyword start _ (by decide)).bind (fun keyword => (keepsTo_fields hi).map _)
      ⟨_, mem_separated (mem_fields f)⟩).mono rows_le
  · exact keepsTo_listing start fun s hs => hs.2
  · refine keepsTo_noViable ?_ ⟨.kwRow, by decide⟩ starts_sourceCommands
    rintro s ⟨-, rfl⟩
    simp_all [sourceKeywords]

/-! ## Stages -/

/-- A stage whose command gives up has reported something. -/
theorem warranted_stage {α : Type} {r : Rule α} (hr : KeepsTo f Anywhere L r) (kind : Kind)
    (span : α → Span) (error : Span → α) (hc : s.Clear) (hs : s.Ready f) :
    s.Warranted L (stage r kind span error s).2 := by
  have hwarranted := hr.warranted hc hs trivial
  have hblames := hr.lawful.blames s hc.toRegular
  obtain ⟨a, u, hrun, hstage⟩ | ⟨u, hrun, hstage⟩ := stage_cases r kind span error s
  · rw [hrun] at hwarranted
    rw [hstage]
    exact hwarranted
  · rw [hrun] at hwarranted hblames
    rw [hstage]
    exact hwarranted.steps (hblames rfl) (steps_resync u s.position)

/-- A stage without a diagnostic is a word. -/
theorem mem_of_stage {α : Type} {r : Rule α} (hr : KeepsTo f Anywhere L r) (kind : Kind)
    (span : α → Span) (error : Span → α) (hs : s.Ready f)
    (h : s.Reads ps (stage r kind span error s).2) : kindsOf ps ∈ L := by
  have := hr.lawful
  obtain ⟨u, hu, -⟩ := of_stage (accepts_total.2 ⟨rfl, h⟩)
  exact hr.accepts hs trivial hu

theorem mul_stages_le : letter .pipe * phrases f .processingCommand * Words.stages f ≤ Words.stages f :=
  mul_kstar_le_kstar

/-- What stands behind a pipe. -/
theorem exists_reads_bump (hc : s.Clear) (hk : s.kind = .pipe) :
    ∃ x : Placed, s.Reads [x] s.bump ∧ kindsOf [x] ∈ letter .pipe := by
  obtain ⟨x, rest, hr, -, hx⟩ := hc.exists_rest (by simp [hk])
  have hbump := hc.reads_bump
  rw [hr] at hbump
  exact ⟨x, hbump, .pipe, by simp, congrArg (fun k => [k]) (hx.symm.trans hk)⟩

/-- The stages that are read without a diagnostic are words. -/
theorem mem_stages [inner.Lawful true] (hi : inner.KeepTo) (n : Nat)
    (stages : List (Token × ProcessingCommand)) (hs : s.Ready f)
    (h : s.Reads ps (stagesUpTo inner n stages s).2) : kindsOf ps ∈ Words.stages f := by
  induction n generalizing stages s ps with
  | zero =>
    obtain rfl := h.stream.unique (.refl _)
    exact Language.nil_mem_kstar _
  | succ n ih =>
    by_cases hk : s.kind = .pipe
    · rw [stagesUpTo_pipe hk] at h
      obtain ⟨qs, rs, rfl, hqs, hrs⟩ := h.split
        (.head (.bump s) (steps_processingStage inner s.bump)) (steps_stagesUpTo inner n _ _)
      obtain ⟨qs, qs', rfl, hbar, hstage⟩ := hqs.split (.single (.bump s))
        (steps_processingStage inner s.bump)
      obtain ⟨x, hx, hpipe⟩ := exists_reads_bump hqs.clear hk
      obtain rfl := hbar.stream.unique hx.stream
      have hcommand : kindsOf qs' ∈ phrases f .processingCommand :=
        mem_of_stage (keepsTo_processingCommand hi) _ _ _ (hs.reads hbar) hstage
      have hstages := ih _ (hs.reads hqs) hrs
      rw [kindsOf_append, kindsOf_append]
      exact mul_stages_le (Language.append_mem_mul (Language.append_mem_mul hpipe hcommand) hstages)
    · cases hb : s.atBoundary with
      | true =>
        rw [stagesUpTo_boundary hk hb] at h
        obtain rfl := h.stream.unique (.refl _)
        exact Language.nil_mem_kstar _
      | false =>
        rw [stagesUpTo_extraneous hk hb] at h
        obtain ⟨qs, rs, rfl, hqs, -⟩ := h.split (steps_skipExtraneous s) (steps_stagesUpTo inner n _ _)
        have hd := (steps_resync (s.blame (.extraneous s.boundaryKinds)) s.position).diagnostics
          hqs.clear'.diagnostics
        exact absurd hd (hqs.clear.toRegular.diagnostics_report _)

/-- A pipe or what closes the query may stand behind a command. -/
theorem starts_boundary (s : State) :
    Starts s.boundaryKinds (Words.stages f * letter s.closer) := by
  rw [State.boundaryKinds_eq]
  intro k hk
  have hk : k = .pipe ∨ k = s.closer := by simpa using hk
  obtain rfl | rfl := hk
  · obtain ⟨w, hw⟩ := starts_processingCommands (f := f) .kwLimit (by decide)
    have hstage := Language.append_mem_mul (mem_letter .pipe) hw
    exact ⟨_, Language.append_mem_mul (mul_stages_le (Language.append_mem_mul hstage
      (Language.nil_mem_kstar _))) (mem_letter _)⟩
  · exact ⟨[], Language.append_mem_mul (a := []) (Language.nil_mem_kstar _) (mem_letter _)⟩

/-- What is reported first along the stages is warranted by them, with what closes the query behind
them. -/
theorem warranted_stages [inner.Lawful true] (hi : inner.KeepTo) (n : Nat)
    (stages : List (Token × ProcessingCommand)) (hc : s.Clear) (hs : s.Ready f) :
    s.Warranted (Words.stages f * letter s.closer) (stagesUpTo inner n stages s).2 := by
  induction n generalizing stages s with
  | zero => exact hc.warranted
  | succ n ih =>
    by_cases hk : s.kind = .pipe
    · rw [stagesUpTo_pipe hk]
      obtain ⟨x, hx, hpipe⟩ := exists_reads_bump hc hk
      have hsteps := steps_processingStage inner s.bump
      have hle : letter .pipe * phrases f .processingCommand * (Words.stages f * letter s.closer)
          ≤ Words.stages f * letter s.closer := by
        rw [← mul_assoc]
        exact mul_le_mul_left mul_stages_le _
      by_cases hd : (processingStage inner s.bump).2.diagnostics = #[]
      · -- the stage was read, and something behind it is reported
        obtain ⟨ps, hps⟩ := hsteps.exists_reads hx.clear'.toRegular hd
        have hcommand : kindsOf ps ∈ phrases f .processingCommand :=
          mem_of_stage (keepsTo_processingCommand hi) _ _ _ (hs.reads hx) hps
        have hread := hx.trans hps
        have hrest := ih ((s.current, (processingStage inner s.bump).1) :: stages) hps.clear'
          (hs.reads hread)
        rw [State.closer_eq hread.scope] at hrest
        refine (hrest.behind hread ?_).mono hle
        exact Language.append_mem_mul hpipe hcommand
      · -- the stage was not read
        have hstage : s.bump.Warranted (phrases f .processingCommand) (processingStage inner s.bump).2 :=
          warranted_stage (keepsTo_processingCommand hi) _ _ _ hx.clear' (hs.reads hx)
        have hclose : ∃ ks, ks ∈ Words.stages f * letter s.closer :=
          ⟨_, Language.append_mem_mul (Language.nil_mem_kstar _) (mem_letter _)⟩
        have hwarranted := (hstage.followed hclose).behind hx hpipe
        rw [← mul_assoc] at hwarranted
        exact (hwarranted.mono hle).steps hd (steps_stagesUpTo inner n _ _)
    · cases hb : s.atBoundary with
      | true =>
        rw [stagesUpTo_boundary hk hb]
        exact hc.warranted
      | false =>
        rw [stagesUpTo_extraneous hk hb]
        have hwarrants : s.Warrants (Words.stages f * letter s.closer)
            ⟨.extraneous s.boundaryKinds, s.current⟩ :=
          Clear.warrants (.extraneous s.boundaryKinds) (State.not_mem_boundaryKinds hb)
            ⟨.pipe, by rw [Diagnostic.Cause.expected, State.boundaryKinds_eq]; simp⟩
            (starts_boundary s)
        refine .of_first hwarrants ((steps_stagesUpTo inner n stages _).first ?_)
        exact (steps_resync _ s.position).first (hc.first_report _)

/-! ## Queries -/

theorem mem_pipeline [inner.Lawful true] (hi : inner.KeepTo) (hq : QueryKeepsTo query)
    (hs : s.Ready f) (h : s.Reads ps (pipeline inner query s).2) : kindsOf ps ∈ phrases f .query := by
  have := hq.lawful
  obtain ⟨qs, rs, rfl, hqs, hrs⟩ := h.split (steps_sourceStage inner query s)
    (steps_stagesUpTo inner _ [] _)
  rw [kindsOf_append]
  exact pipelines_le (Language.append_mem_mul (mem_of_stage (keepsTo_sourceCommand hi hq) _ _ _ hs hqs)
    (mem_stages hi _ _ (hs.reads hqs) hrs))

theorem warranted_pipeline [inner.Lawful true] (hi : inner.KeepTo) (hq : QueryKeepsTo query)
    (hc : s.Clear) (hs : s.Ready f) :
    s.Warranted (phrases f .query * letter s.closer) (pipeline inner query s).2 := by
  have := hq.lawful
  have hsteps := steps_sourceStage inner query s
  have hle : phrases f .sourceCommand * (Words.stages f * letter s.closer)
      ≤ phrases f .query * letter s.closer := by
    rw [← mul_assoc]
    exact mul_le_mul_left pipelines_le _
  change s.Warranted _ (stagesUpTo inner (sourceStage inner query s).2.stream.remaining []
    (sourceStage inner query s).2).2
  by_cases hd : (sourceStage inner query s).2.diagnostics = #[]
  · obtain ⟨ps, hps⟩ := hsteps.exists_reads hc.toRegular hd
    have hsource : kindsOf ps ∈ phrases f .sourceCommand :=
      mem_of_stage (keepsTo_sourceCommand hi hq) _ _ _ hs hps
    have hrest := warranted_stages hi (sourceStage inner query s).2.stream.remaining [] hps.clear'
      (hs.reads hps)
    rw [State.closer_eq hps.scope] at hrest
    exact (hrest.behind hps hsource).mono hle
  · have hsource : s.Warranted (phrases f .sourceCommand) (sourceStage inner query s).2 :=
      warranted_stage (keepsTo_sourceCommand hi hq) _ _ _ hc hs
    have hclose : ∃ ks, ks ∈ Words.stages f * letter s.closer :=
      ⟨_, Language.append_mem_mul (Language.nil_mem_kstar _) (mem_letter _)⟩
    exact ((hsource.followed hclose).mono hle).steps hd (steps_stagesUpTo inner _ _ _)

end

/-- Queries in brackets keep to the grammar, if pipelines do. -/
theorem queryKeepsTo_total {r : State → Query × State} (hsteps : ∀ s : State, s.Steps true (r s).2)
    (haccepts : ∀ {f : Bool} {s : State} {ps : List Placed}, s.Ready f → s.Reads ps (r s).2 →
      kindsOf ps ∈ phrases f .query)
    (hwarranted : ∀ {f : Bool} {s : State}, s.Clear → s.Ready f →
      s.Warranted (phrases f .query * letter s.closer) (r s).2) : QueryKeepsTo (.total r) where
  lawful := lawful_total hsteps
  accepts {f s t ps q} hs h := by
    obtain ⟨hr, hreads⟩ := accepts_total.1 h
    refine haccepts hs ?_
    rw [hr]
    exact hreads
  warranted {f s} hc hs hsub := by
    have hcloser : s.closer = .rightBracket := if_pos hsub
    rw [← hcloser]
    exact hwarranted hc hs

theorem queryKeepsTo_tooDeep : QueryKeepsTo (tooDeep : Rule Query) where
  lawful := inferInstance
  accepts _ h := absurd h not_accepts_tooDeep
  warranted hc hs _ := (keepsTo_tooDeep (K := Anywhere)).warranted hc hs trivial

/-- Queries keep to the grammar on all levels of nesting. -/
theorem queryKeepsTo_query (levels : Nat) : QueryKeepsTo (.total (query levels)) := by
  induction levels with
  | zero =>
    rw [query_zero]
    exact queryKeepsTo_total (steps_pipeline _ _)
      (mem_pipeline (keepTo_expressions 0) queryKeepsTo_tooDeep)
      (warranted_pipeline (keepTo_expressions 0) queryKeepsTo_tooDeep)
  | succ levels ih =>
    rw [query_succ]
    exact queryKeepsTo_total (steps_pipeline _ _)
      (mem_pipeline (keepTo_expressions (levels + 1)) ih)
      (warranted_pipeline (keepTo_expressions (levels + 1)) ih)

/-- What a query reports first is warranted by the queries with what closes them behind them. -/
theorem warranted_query (levels : Nat) (hc : s.Clear) (hs : s.Ready f) :
    s.Warranted (phrases f .query * letter s.closer) (query levels s).2 := by
  cases levels with
  | zero => exact warranted_pipeline (keepTo_expressions 0) queryKeepsTo_tooDeep hc hs
  | succ levels =>
    exact warranted_pipeline (keepTo_expressions (levels + 1)) (queryKeepsTo_query levels) hc hs

end PipeQuery.Grammar
