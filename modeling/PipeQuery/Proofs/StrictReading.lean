import PipeQuery.Parsed
import PipeQuery.Proofs.SoundQuery
import PipeQuery.Proofs.StrictRules

/-!
# Strict reading

Reading strictly and reading on behind mistakes come to the same as long as there is no mistake. At
the first one a strict reading is over: it passes over all that is left, so that its query has what
the other query has, stage for stage, and an error behind that (`Query.Follows`).

A query in brackets never gives up. But where a mistake in it has ended a strict reading, nothing is
left for the bracket that closes it, and the command around it gives up after all.

## Main statement

* `strict_parse`: a text is read without a diagnostic strictly just when it is read so otherwise,
  and then to the same statement and the same tree. Else the strict reading has the first diagnostic
  of the other one only, and its stages follow those of the other one.
-/

namespace PipeQuery

/-- The first query has what the second one has, stage for stage, where it has no error. -/
structure Query.Follows (q' q : Query) : Prop where
  /-- The first stage. -/
  source : (∃ span, q'.sourceCommand = .error span) ∨ q'.sourceCommand = q.sourceCommand
  /-- The stages behind it, with their pipes. -/
  stage (n : Nat) (bar : Token) (command : ProcessingCommand)
    (h : q'.stages[n]? = some (bar, command)) :
    (∃ span, command = .error span) ∨ q.stages[n]? = some (bar, command)

/-- A query that breaks off behind some stages, perhaps with an error, follows. -/
theorem Query.follows_of_prefix {first : SourceCommand}
    {before l l' : List (Token × ProcessingCommand)} (hl : before <+: l)
    (hl' : l' = before ∨ ∃ bar span, l' = before ++ [(bar, .error span)]) :
    (Query.ofStages first l').Follows (.ofStages first l) where
  source := .inr (by rw [Query.sourceCommand_ofStages, Query.sourceCommand_ofStages])
  stage n bar command h := by
    rw [stages_ofStages] at h
    rw [stages_ofStages]
    obtain ⟨rest, rfl⟩ := hl
    have hkept (h : before[n]? = some (bar, command)) :
        (before ++ rest)[n]? = some (bar, command) := by
      obtain ⟨hn, -⟩ := List.getElem?_eq_some_iff.1 h
      rw [List.getElem?_append_left hn, h]
    obtain rfl | ⟨bar', span, rfl⟩ := hl'
    · exact .inr (hkept h)
    · by_cases hn : n < before.length
      · rw [List.getElem?_append_left hn] at h
        exact .inr (hkept h)
      · rw [List.getElem?_append_right (Nat.le_of_not_lt hn)] at h
        have hmem := List.mem_of_getElem? h
        simp only [List.mem_singleton, Prod.mk.injEq] at hmem
        exact .inl ⟨span, hmem.2⟩

namespace Grammar

open Rule State

variable {α : Type} {s t t' : State} {d d' : Diagnostic}

/-! ## Readings that are over -/

theorem State.Over.passOver (h : s.Over d) (n : Nat) : (s.passOver n).Over d := by
  induction n generalizing s with
  | zero => exact h
  | succ n ih =>
    rw [State.passOver]
    split
    · exact h
    · exact ih ⟨h.diagnostics, h.recovering, h.halted⟩

/-- A reading that is over passes over all the tokens that are left. -/
theorem State.Over.rest_passOver (h : s.Over d) (n : Nat) (hn : s.stream.remaining ≤ n) :
    (s.passOver n).stream.rest = [] := by
  induction n generalizing s with
  | zero => exact List.length_eq_zero_iff.1 (Nat.le_zero.1 hn)
  | succ n ih =>
    rw [State.passOver]
    split
    · next hend =>
      rw [h.halted] at hend
      simpa [TokenStream.atEnd] using hend
    · have hskip : s.skip.Over d := ⟨h.diagnostics, h.recovering, h.halted⟩
      have hnext : s.skip.stream.remaining = s.stream.remaining - 1 :=
        TokenStream.remaining_next s.stream
      exact ih hskip (by omega)

theorem State.Over.resync (h : s.Over d) (start : Nat) :
    (s.resync start).2.Over d ∧ (s.resync start).2.stream.rest = [] := by
  have hover := h.passOver s.stream.remaining
  exact ⟨⟨hover.diagnostics, hover.recovering, hover.halted⟩,
    h.rest_passOver s.stream.remaining (Nat.le_refl _)⟩

/-- A strict run has come to the end of the text behind the first diagnostic of another run. -/
structure Ended (t t' : State) : Prop where
  /-- The first diagnostics are alike. -/
  alike : ∃ d d', t.diagnostics[0]? = some d ∧ d.Alike d' ∧ t'.Over d'
  /-- Nothing is left. -/
  rest : t'.stream.rest = []

/-! ## Queries in brackets -/

/-- A rule for a query in brackets, which need not give up at the end of a text. -/
structure QueryInStep (query : Rule Query) : Prop where
  /-- The rule is lawful. -/
  lawful : Lawful true query
  /-- The two runs agree, or the strict one has come to the end. -/
  agrees {s : State} (h : s.Clear) :
    Agrees (query.run s) (query.run s.strict) ∨ Ended (query.run s).2 (query.run s.strict).2

/-- At the end of a text no bracket closes a query. -/
theorem run_expect_of_ended {kind : Kind} (ht : t'.Regular) (h : Ended t t')
    (hk : kind ≠ .endOfInput) (hr : t'.config.recover = false) :
    ∃ d d' u, t.diagnostics[0]? = some d ∧ d.Alike d' ∧ u.Over d' ∧
      (expect kind).run t' = (none, u) := by
  obtain ⟨d, d', hd, halike, hover⟩ := h.alike
  have hend : t'.kind = .endOfInput := ht.valid.kind_eq_endOfInput_iff.2 h.rest
  obtain ⟨hmem, -⟩ | ⟨-, hrec, -⟩ | ⟨-, hrec, -⟩ | ⟨-, -, hrun⟩ := expectAny_cases {kind} t'
  · rw [KindSet.mem_singleton, hend] at hmem
    exact absurd hmem.symm hk
  · rw [hr] at hrec
    simp at hrec
  · rw [hr] at hrec
    simp at hrec
  · exact ⟨d, d', _, hd, halike, hover.report _, hrun⟩

/-- What goes on behind a rule that has come to the end must ask for more, and gives up. -/
theorem agrees_bind_of_ended {r : Rule Query} {f : Query → Rule α} {s s' : State} {kind : Kind}
    {g : Query → Token → Rule α} (hended : Ended (r.run s).2 (r.run s').2)
    (hregular : (r.run s').2.Regular) (hr : (r.run s').2.config.recover = false)
    (hk : kind ≠ .endOfInput) (hf : ∀ q, f q = expect kind >>= g q)
    (hl : ∀ q, Lawful true (f q)) : Agrees ((r >>= f).run s) ((r >>= f).run s') := by
  obtain ⟨d, d', u, hd, halike, hover, hrun⟩ := run_expect_of_ended hregular hended hk hr
  obtain ⟨e, e', he, halike', hover'⟩ := hended.alike
  have hfirst : ((r >>= f).run s).2.diagnostics[0]? = some d := by
    rw [run_bind]
    generalize r.run s = x at hd ⊢
    obtain ⟨_ | q, t⟩ := x
    · exact hd
    · exact ((hl q).steps t).first hd
  obtain ⟨v, hstrict, hv⟩ : ∃ v, (r >>= f).run s' = (none, v) ∧ ∃ d', d.Alike d' ∧ v.Over d' := by
    rw [run_bind]
    generalize r.run s' = x' at hrun hover' ⊢
    obtain ⟨_ | q, t'⟩ := x'
    · exact ⟨t', rfl, e', Option.some.inj (hd.symm.trans he) ▸ halike', hover'⟩
    · refine ⟨u, ?_, d', halike, hover⟩
      change (f q).run t' = _
      rw [hf, run_bind, hrun]
  obtain ⟨d', halike, hover⟩ := hv
  rw [hstrict]
  exact .apart hfirst halike hover

/-- A query and the bracket behind it. -/
theorem inStep_closed {query : Rule Query} (hq : QueryInStep query) (scope : Scope → Scope)
    {f : Query → Token → Rule α} (hf : ∀ q token, InStep (f q token)) :
    InStep (do
      let q ← within scope query
      let token ← expect .rightBracket
      f q token) := by
  have := hq.lawful
  have hclosing (q : Query) : InStep (expect .rightBracket >>= f q) := .bind (hf q)
  have (q : Query) : Lawful true (expect .rightBracket >>= f q) := (hclosing q).lawful
  refine ⟨inferInstance, fun {s} hs => ?_⟩
  have hin : Lawful true (within scope query) := inferInstance
  obtain h | h := hq.agrees (hs.inScope (scope s.scope))
  · exact agrees_bind (h.inScope s.scope) hclosing
  · have hended : Ended ((within scope query).run s).2 ((within scope query).run s.strict).2 := by
      obtain ⟨d, d', hd, halike, hover⟩ := h.alike
      exact ⟨⟨d, d', hd, halike, hover.diagnostics, hover.recovering, hover.halted⟩, h.rest⟩
    refine agrees_bind_of_ended hended (Lawful.regular true _ hs.strict.toRegular) ?_
      (by decide) (fun _ => rfl) inferInstance
    rw [(hin.steps s.strict).config]
    rfl

theorem inStep_subquery {query : Rule Query} (hq : QueryInStep query) :
    InStep (subquery query) := by
  have hrecord (start : Nat) : InStep (change fun s => s.record .subquery (s.spanFrom start)) :=
    inStep_change (fun s => .single (.record rfl s _ _)) (fun _ => rfl) fun _ => rfl
  unfold subquery
  exact .bind fun start => .bind fun opening => inStep_closed hq _ fun q closing => inferInstance

theorem inStep_sourceCommand (inner : Expressions) [inner.InStep] {query : Rule Query}
    (hq : QueryInStep query) : InStep (sourceCommand inner query) := by
  have := inStep_subquery hq
  have : InStep (change fun s => s.note (.sourceCommand s.current)) := inStep_note fun _ => rfl
  unfold sourceCommand
  refine .spanned (.bind fun noted => .bind fun start => .bind fun kind => ?_)
  split
  · infer_instance
  · infer_instance
  · infer_instance
  · refine .bind fun next => ?_
    split <;> infer_instance
  · infer_instance

/-! ## Stages -/

/-- What a run and the strict run beside it come to where neither gives up: they are in the same
state with the same answer, or the strict one has come to the end, and its answer is as good as
`P` says. -/
inductive Settles (P : α → α → Prop) : α × State → α × State → Prop
  | same {a : α} {t : State} (clear : t.Clear) : Settles P (a, t) (a, t.strict)
  | ended {a a' : α} {t t' : State} (answers : P a' a) (ended : Ended t t') :
    Settles P (a, t) (a', t')

theorem settles_stage {r : Rule α} (hr : InStep r) (kind : Kind) (span : α → Span)
    (error : Span → α) (hs : s.Clear) :
    Settles (fun a' _ => ∃ span, a' = error span) (stage r kind span error s)
      (stage r kind span error s.strict) := by
  have hagrees := hr.agrees hs
  have := hr.lawful
  have hsteps := steps_stage r kind span error s
  have hfirst (d : Diagnostic) (hd : (r.run s).2.diagnostics[0]? = some d) :
      (stage r kind span error s).2.diagnostics[0]? = some d := by
    obtain ⟨a, t, hrun, hstage⟩ | ⟨t, hrun, hstage⟩ := stage_cases r kind span error s
    · rw [hrun] at hd
      rw [hstage]
      exact hd
    · rw [hrun] at hd
      rw [hstage]
      exact (steps_resync t s.position).first hd
  rw [stage] at hfirst ⊢
  rw [stage]
  generalize r.run s = x at hagrees hfirst ⊢
  generalize r.run s.strict = x' at hagrees ⊢
  cases hagrees with
  | same clear => exact .same (clear.reads_record kind _).clear'
  | apart first alike ended =>
    obtain ⟨hover, hrest⟩ := ended.resync s.strict.position
    exact .ended ⟨_, rfl⟩ ⟨⟨_, _, hfirst _ first, alike, hover⟩, hrest⟩

theorem ended_skipExtraneous (hs : s.Clear) : Ended s.skipExtraneous s.strict.skipExtraneous := by
  obtain ⟨hover, hrest⟩ := (hs.over_report ⟨.extraneous s.boundaryKinds, s.current⟩).resync s.position
  exact ⟨⟨_, _, (steps_resync _ _).first (hs.first_report _), .same _, hover⟩, hrest⟩

/-- Where nothing is left there are no stages. -/
theorem stagesUpTo_of_rest_nil (inner : Expressions) (n : Nat)
    (stages : List (Token × ProcessingCommand)) (hr : t.stream.rest = []) (ht : t.Regular) :
    stagesUpTo inner n stages t = (stages.reverse, t) := by
  have hend : t.kind = .endOfInput := ht.valid.kind_eq_endOfInput_iff.2 hr
  exact stagesUpTo_boundary (by simp [hend]) (State.atBoundary_iff.2 (.inr (.inl hend)))

theorem Ended.steps {recording : Bool} {u : State} (h : Ended t t') (hu : t.Steps recording u) :
    Ended u t' := by
  obtain ⟨d, d', hd, halike, hover⟩ := h.alike
  exact ⟨⟨d, d', hu.first hd, halike, hover⟩, h.rest⟩

/-- The stages in front of the place where a strict reading ends are those of the other reading. -/
def BreaksOff (l' l : List (Token × ProcessingCommand)) : Prop :=
  ∃ before, before <+: l ∧ (l' = before ∨ ∃ bar span, l' = before ++ [(bar, .error span)])

/-- The stages that were given are in front of those that are read. -/
theorem prefix_stagesUpTo (inner : Expressions) (n : Nat)
    (stages : List (Token × ProcessingCommand)) (s : State) :
    stages.reverse <+: (stagesUpTo inner n stages s).1 := by
  induction n generalizing stages s with
  | zero => exact List.prefix_rfl
  | succ n ih =>
    rw [stagesUpTo]
    split
    · refine .trans ?_ (ih _ _)
      rw [List.reverse_cons]
      exact List.prefix_append _ _
    · split
      · exact List.prefix_rfl
      · exact ih _ _

theorem settles_stagesUpTo (inner : Expressions) [inner.Lawful true] [inner.InStep] (n : Nat)
    (stages : List (Token × ProcessingCommand)) (hs : s.Clear) :
    Settles BreaksOff (stagesUpTo inner n stages s) (stagesUpTo inner n stages s.strict) := by
  induction n generalizing stages s with
  | zero => exact .same hs
  | succ n ih =>
    by_cases hk : s.kind = .pipe
    · rw [stagesUpTo_pipe hk, stagesUpTo_pipe (s := s.strict) hk]
      have hbump : s.bump.Clear := hs.reads_bump.clear'
      have hstage : Settles (fun a' _ => ∃ span, a' = .error span) (processingStage inner s.bump)
          (processingStage inner s.bump.strict) :=
        settles_stage (inferInstanceAs (InStep (processingCommand inner))) _ _ _ hbump
      have hstrict : (processingStage inner s.bump.strict).2.Regular :=
        (steps_processingStage inner s.bump.strict).regular hbump.strict.toRegular
      change Settles BreaksOff _ (stagesUpTo inner n
        ((s.current, (processingStage inner s.bump.strict).1) :: stages)
        (processingStage inner s.bump.strict).2)
      generalize processingStage inner s.bump = x at hstage ⊢
      generalize processingStage inner s.bump.strict = x' at hstage hstrict ⊢
      cases hstage with
      | same clear => exact ih _ clear
      | @ended a a' t t' error ended =>
        obtain ⟨span, rfl⟩ := error
        rw [stagesUpTo_of_rest_nil inner n _ ended.rest hstrict]
        refine .ended ⟨stages.reverse, ?_, .inr ⟨s.current, span, ?_⟩⟩
          (ended.steps (steps_stagesUpTo inner n _ t))
        · refine .trans ?_ (prefix_stagesUpTo inner n ((s.current, a) :: stages) t)
          rw [List.reverse_cons]
          exact List.prefix_append _ _
        · rw [List.reverse_cons]
    · cases hb : s.atBoundary with
      | true =>
        rw [stagesUpTo_boundary hk hb, stagesUpTo_boundary (s := s.strict) hk hb]
        exact .same hs
      | false =>
        rw [stagesUpTo_extraneous hk hb, stagesUpTo_extraneous (s := s.strict) hk hb]
        have hended := ended_skipExtraneous hs
        have hregular := (steps_skipExtraneous s.strict).regular hs.strict.toRegular
        rw [stagesUpTo_of_rest_nil inner n stages hended.rest hregular]
        exact .ended ⟨stages.reverse, prefix_stagesUpTo inner n stages s.skipExtraneous, .inl rfl⟩
          (hended.steps (steps_stagesUpTo inner n stages s.skipExtraneous))

/-! ## Queries -/

theorem settles_pipeline (inner : Expressions) [inner.Lawful true] [inner.InStep]
    {query : Rule Query} (hq : QueryInStep query) (hs : s.Clear) :
    Settles Query.Follows (pipeline inner query s) (pipeline inner query s.strict) := by
  have := hq.lawful
  have hsource : Settles (fun a' _ => ∃ span, a' = .error span) (sourceStage inner query s)
      (sourceStage inner query s.strict) :=
    settles_stage (inStep_sourceCommand inner hq) _ _ _ hs
  have hstrict : (sourceStage inner query s.strict).2.Regular :=
    (steps_sourceStage inner query s.strict).regular hs.strict.toRegular
  rw [pipeline, pipeline]
  generalize sourceStage inner query s = x at hsource ⊢
  generalize sourceStage inner query s.strict = x' at hsource hstrict ⊢
  cases hsource with
  | @same first t clear =>
    have hstages := settles_stagesUpTo inner t.stream.remaining [] clear
    change Settles Query.Follows
      (.ofStages first (stagesUpTo inner t.stream.remaining [] t).1,
        (stagesUpTo inner t.stream.remaining [] t).2)
      (.ofStages first (stagesUpTo inner t.stream.remaining [] t.strict).1,
        (stagesUpTo inner t.stream.remaining [] t.strict).2)
    generalize stagesUpTo inner t.stream.remaining [] t = y at hstages ⊢
    generalize stagesUpTo inner t.stream.remaining [] t.strict = y' at hstages ⊢
    cases hstages with
    | same clear => exact .same clear
    | ended breaks ended =>
      obtain ⟨before, hprefix, h⟩ := breaks
      exact .ended (Query.follows_of_prefix hprefix h) ended
  | @ended a a' t t' error ended =>
    obtain ⟨span, rfl⟩ := error
    dsimp only
    rw [stagesUpTo_of_rest_nil inner t'.stream.remaining [] ended.rest hstrict]
    refine .ended ⟨.inl ⟨span, rfl⟩, ?_⟩ (ended.steps (steps_stagesUpTo inner _ [] t))
    intro n bar command h
    simp [Query.ofStages, Query.stages, Query.stages.go] at h

theorem Settles.queryInStep {f : State → Query × State}
    (hf : ∀ s : State, s.Steps true (f s).2)
    (h : ∀ s : State, s.Clear → Settles Query.Follows (f s) (f s.strict)) :
    QueryInStep (.total f) where
  lawful := lawful_total hf
  agrees {s} hs := by
    have hsettles := h s hs
    rw [run_total, run_total]
    generalize f s = x at hsettles ⊢
    generalize f s.strict = x' at hsettles ⊢
    cases hsettles with
    | same clear => exact .inl (.same clear)
    | ended _ ended => exact .inr ended

theorem settles_query (levels : Nat) (hs : s.Clear) :
    Settles Query.Follows (query levels s) (query levels s.strict) := by
  induction levels generalizing s with
  | zero =>
    have htooDeep : InStep (tooDeep : Rule Query) := inferInstance
    exact settles_pipeline (expressions 0) ⟨htooDeep.lawful, fun h => .inl (htooDeep.agrees h)⟩ hs
  | succ levels ih =>
    rw [query_succ]
    exact settles_pipeline (expressions (levels + 1))
      (Settles.queryInStep (steps_query levels) fun _ => ih) hs

end Grammar

/-! ## Texts -/

/-- How the readings of a text settle. -/
theorem settles_parse (tokens : List Token) (maxDepth : Nat) :
    Grammar.Settles Query.Follows (Grammar.query maxDepth (.start ⟨maxDepth, true⟩ tokens))
      (Grammar.query maxDepth (.start ⟨maxDepth, false⟩ tokens)) :=
  Grammar.settles_query maxDepth (Grammar.State.clear_start ⟨maxDepth, true⟩ tokens)

/-- Strictly and otherwise the same texts are read without a diagnostic, and then as the same
statements and trees. For any other text there is one diagnostic strictly, which blames the token
that is blamed first otherwise and expects the same; and the stages are the same, but for errors. -/
theorem strict_parse (tokens : List Token) (maxDepth : Nat) :
    ((parse tokens ⟨maxDepth, false⟩).isOk = true ↔ (parse tokens ⟨maxDepth, true⟩).isOk = true) ∧
      ((parse tokens ⟨maxDepth, true⟩).isOk = true →
        (parse tokens ⟨maxDepth, false⟩).statement = (parse tokens ⟨maxDepth, true⟩).statement ∧
        (parse tokens ⟨maxDepth, false⟩).tree = (parse tokens ⟨maxDepth, true⟩).tree) ∧
      ((parse tokens ⟨maxDepth, false⟩).isOk = false →
        (∃ d d' rest, (parse tokens ⟨maxDepth, false⟩).diagnostics = [d] ∧
          (parse tokens ⟨maxDepth, true⟩).diagnostics = d' :: rest ∧
          d.token = d'.token ∧ d.expected = d'.expected) ∧
        (parse tokens ⟨maxDepth, false⟩).statement.query.Follows
          (parse tokens ⟨maxDepth, true⟩).statement.query) := by
  have hsettles := settles_parse tokens maxDepth
  rw [isOk_parse, isOk_parse, Bool.eq_false_iff, ne_eq, isOk_parse]
  unfold parse Grammar.statement
  generalize Grammar.query maxDepth (.start ⟨maxDepth, true⟩ tokens) = x at hsettles ⊢
  generalize Grammar.query maxDepth (.start ⟨maxDepth, false⟩ tokens) = x' at hsettles ⊢
  cases hsettles with
  | @same q t clear =>
    exact ⟨Iff.rfl, fun _ => ⟨rfl, rfl⟩, fun h => absurd clear.diagnostics h⟩
  | @ended q q' t t' follows ended =>
    obtain ⟨d, d', hd, halike, hover⟩ := ended.alike
    have hne : t.diagnostics ≠ #[] := by
      intro h
      rw [h] at hd
      simp at hd
    have hne' : t'.diagnostics ≠ #[] := by
      rw [hover.diagnostics]
      simp
    refine ⟨⟨fun h => absurd h hne', fun h => absurd h hne⟩, fun h => absurd h hne,
      fun _ => ⟨⟨d', d, t.diagnostics.toList.tail, ?_, ?_, halike.token, halike.expected⟩,
        follows⟩⟩
    · exact congrArg Array.toList hover.diagnostics
    · rw [← Array.getElem?_toList, ← List.head?_eq_getElem?, List.head?_eq_some_iff] at hd
      obtain ⟨rest, hrest⟩ := hd
      change t.diagnostics.toList = _
      rw [hrest, List.tail_cons]

end PipeQuery
