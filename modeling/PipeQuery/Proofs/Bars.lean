import PipeQuery.Proofs.StageRuns

/-!
# No pipe is lost

However broken a text is, each pipe in front of the end of the input is the pipe of one stage of the
statement, and the stages stand in the order of their pipes (`bars_parse`). A query in brackets comes
in front of the stages of the query around it.

A rule that reads within a stage reads no pipe, since it does the same in all texts that have the
stage in common (`Passes.of_own`). A query in brackets ends in front of its bracket or at the end of
the input, and both close it: it is never given up once it has been read.
-/

namespace PipeQuery

mutual

/-- The pipes of a query, those of a query in brackets first. -/
def Query.bars : Query → List Token
  | .source command => command.bars
  | .pipe query bar _ => query.bars ++ [bar]

/-- The pipes of a source command. -/
def SourceCommand.bars : SourceCommand → List Token
  | .command _ clause _ => clause.bars
  | .error _ => []

/-- The pipes of what a source command asks for. -/
def SourceClause.bars : SourceClause → List Token
  | .explain query => query.bars
  | .indices _ | .row _ | .listing _ => []

end

theorem Query.bars_ofStages (first : SourceCommand) (stages : List (Token × ProcessingCommand)) :
    (Query.ofStages first stages).bars = first.bars ++ stages.map Prod.fst := by
  have h (q : Query) :
      (stages.foldl (fun query stage => .pipe query stage.1 stage.2) q).bars
        = q.bars ++ stages.map Prod.fst := by
    induction stages generalizing q with
    | nil => exact (List.append_nil _).symm
    | cons stage stages ih =>
      rw [List.foldl_cons, ih, Query.bars, List.append_assoc]
      rfl
  rw [Query.ofStages, h, Query.bars]

namespace Grammar

open Rule

variable {α : Type} {s t u : State} {bs bs' : List Token}

/-- The pipes that were read from one state to another. -/
def State.Passes (s : State) (bs : List Token) (t : State) : Prop :=
  ∃ ps, s.stream.Reads ps t.stream ∧ (ps.filter Placed.isBar).map Prod.fst = bs

namespace State.Passes

theorem of_stream (h : t.stream = s.stream) : s.Passes [] t := by
  refine ⟨[], ?_, rfl⟩
  rw [h]
  exact .refl _

theorem trans (h : s.Passes bs t) (k : t.Passes bs' u) : s.Passes (bs ++ bs') u := by
  obtain ⟨ps, hps, rfl⟩ := h
  obtain ⟨qs, hqs, rfl⟩ := k
  exact ⟨ps ++ qs, hps.trans hqs, by rw [List.filter_append, List.map_append]⟩

/-- Within a stage no pipe is read. -/
theorem of_own (h : (Pairing.own s).States t t) (hsteps : s.Steps true t) : s.Passes [] t := by
  obtain ⟨ps, hps⟩ := hsteps.reads
  obtain ⟨c, c', hc, -, -, -⟩ := h.streams.stage
  have hbehind : (Pairing.own s).behind = s.stream.rest.dropWhile (!Placed.isBar ·) :=
    List.append_nil _
  have hread : ps ++ c = s.stream.rest.takeWhile (!Placed.isBar ·) := by
    have hsplit : (ps ++ c) ++ s.stream.rest.dropWhile (!Placed.isBar ·)
        = s.stream.rest.takeWhile (!Placed.isBar ·)
          ++ s.stream.rest.dropWhile (!Placed.isBar ·) := by
      rw [List.takeWhile_append_dropWhile, List.append_assoc, ← hbehind, ← hc, ← hps.rest]
    exact List.append_cancel_right hsplit
  refine ⟨ps, hps, ?_⟩
  have hnone : ps.filter Placed.isBar = [] := by
    refine List.filter_eq_nil_iff.2 fun x hx => ?_
    have hmem : x ∈ s.stream.rest.takeWhile (!Placed.isBar ·) :=
      hread ▸ List.mem_append_left _ hx
    simpa using List.mem_takeWhile_imp hmem
  rw [hnone]
  rfl

end State.Passes

/-- A state of a reading that goes on behind mistakes. -/
structure State.Good (s : State) : Prop extends s.Regular where
  /-- Reading goes on behind mistakes. -/
  recover : s.config.recover = true

namespace State.Good

theorem not_halted (h : s.Good) : s.halted = false := by
  cases hh : s.halted with
  | false => rfl
  | true =>
    have hstrict := (h.halted hh).1
    rw [h.recover] at hstrict
    exact Bool.noConfusion hstrict

theorem own (h : s.Good) : (Pairing.own s).States s s :=
  Pairing.states_own h.valid h.recover h.not_halted

theorem steps {recording : Bool} (h : s.Good) (hsteps : s.Steps recording t) : t.Good :=
  ⟨hsteps.regular h.toRegular, hsteps.config ▸ h.recover⟩

theorem inScope (h : s.Good) (scope : Scope) : ({ s with scope := scope } : State).Good :=
  ⟨⟨h.valid, h.recovering, h.halted⟩, h.recover⟩

theorem passes_bump (h : s.Good) (hk : s.kind = .pipe) : s.Passes [s.current] s.bump := by
  have hkind := h.valid.kind_eq
  cases hr : s.stream.rest with
  | nil =>
    rw [hr] at hkind
    exact absurd (hk.symm.trans hkind) (by simp [frontKind])
  | cons x xs =>
    have hcurrent : s.current = x.1 := by
      rw [State.current, TokenStream.current, hr]
    have hnext : s.stream.Reads [x] s.bump.stream := by
      have hreads := s.stream.reads_next
      rw [hr] at hreads
      exact hreads
    have hbar : Placed.isBar x = true := by
      have hk : s.current.kind = .pipe := hk
      rw [Placed.isBar, ← hcurrent, hk]
      rfl
    refine ⟨[x], hnext, ?_⟩
    rw [List.filter_cons_of_pos hbar, hcurrent]
    rfl

/-- What is passed over up to a boundary holds no pipe. -/
theorem passes_resync (h : s.Good) (start : Nat) : s.Passes [] (s.resync start).2 := by
  obtain ⟨ps, hps, hkinds, -⟩ := State.exists_reads_resync h.valid h.not_halted start
  have hpipe : Kind.pipe ∈ s.boundaryKinds := by
    unfold State.boundaryKinds
    split <;> simp
  have hnone : ps.filter Placed.isBar = [] := by
    refine List.filter_eq_nil_iff.2 fun x hx hbar => hkinds x hx ?_
    rw [of_decide_eq_true hbar]
    exact hpipe
  exact ⟨ps, hps, by rw [hnone]; rfl⟩

theorem passes_skipExtraneous (h : s.Good) : s.Passes [] s.skipExtraneous := by
  let blamed := s.blame (.extraneous s.boundaryKinds)
  have hblamed : blamed.Good :=
    h.steps (Relation.ReflTransGen.single (State.Step.report s _) : s.Steps true blamed)
  have hstream : s.Passes [] blamed := .of_stream (State.stream_report s _)
  exact hstream.trans (hblamed.passes_resync _)

end State.Good

/-! ## Rules -/

/-- Where a rule answers a value, the pipes that it reads are as `P` says; where it gives up, it
reads none. -/
def Rule.Bars (r : Rule α) (P : α → List Token → Prop) (s : State) : Prop :=
  ∃ bs, s.Passes bs (r.run s).2 ∧
    match (r.run s).1 with
    | some a => P a bs
    | none => bs = []

namespace Rule.Bars

variable {β : Type} {r : Rule α} {f : α → Rule β} {P : β → List Token → Prop}

/-- A rule that reads no pipe, and then another one. -/
theorem bind (hr : s.Passes [] (r.run s).2)
    (hf : ∀ a t, r.run s = (some a, t) → (f a).Bars P t) : (r >>= f).Bars P s := by
  unfold Rule.Bars
  rw [run_bind]
  cases hrun : r.run s with
  | mk o t =>
    rw [hrun] at hr
    cases o with
    | none => exact ⟨[], hr, rfl⟩
    | some a =>
      obtain ⟨bs, hpasses, hvalue⟩ := hf a t hrun
      exact ⟨bs, hr.trans hpasses, hvalue⟩

/-- A rule, and then one that reads no pipe and does not give up. -/
theorem bind_total {Q : α → List Token → Prop} (hr : r.Bars Q s)
    (hf : ∀ a t bs, r.run s = (some a, t) → Q a bs →
      ∃ b u, (f a).run t = (some b, u) ∧ t.Passes [] u ∧ P b bs) : (r >>= f).Bars P s := by
  obtain ⟨bs, hpasses, hvalue⟩ := hr
  unfold Rule.Bars
  rw [run_bind]
  cases hrun : r.run s with
  | mk o t =>
    rw [hrun] at hpasses hvalue
    cases o with
    | none => exact ⟨bs, hpasses, hvalue⟩
    | some a =>
      obtain ⟨b, u, hfrun, hnone, hP⟩ := hf a t bs hrun hvalue
      dsimp only
      rw [hfrun]
      refine ⟨bs, ?_, hP⟩
      have hall := hpasses.trans hnone
      rwa [List.append_nil] at hall

theorem spanned {r : Rule (Span → α)} {P : α → List Token → Prop}
    (h : r.Bars (fun f bs => ∀ i, P (f i) bs) s) : (spanned r).Bars P s :=
  bind (.of_stream rfl) fun start t ht => by
    obtain ⟨rfl, rfl⟩ : s.position = start ∧ s = t := by simpa using ht
    exact bind_total h fun f t bs _ hf => ⟨_, t, rfl, .of_stream rfl, hf _⟩

/-- A rule that reads no pipe answers as `P` says. -/
theorem of_passes {P : α → List Token → Prop} (h : s.Passes [] (r.run s).2)
    (hP : ∀ a t, r.run s = (some a, t) → P a []) : r.Bars P s := by
  refine ⟨[], h, ?_⟩
  cases hrun : r.run s with
  | mk o t =>
    cases o with
    | none => rfl
    | some a => exact hP a t hrun

end Rule.Bars

theorem passes_stage {r : Rule α} [hl : Lawful true r] {P : α → List Token → Prop} (hs : s.Good)
    (h : r.Bars P s) (kind : Kind) (span : α → Span) (error : Span → α)
    (herror : ∀ i, P (error i) []) :
    ∃ bs, s.Passes bs (stage r kind span error s).2 ∧ P (stage r kind span error s).1 bs := by
  have hsteps := hl.steps s
  obtain ⟨bs, hpasses, hvalue⟩ := h
  obtain ⟨a, t, hrun, hstage⟩ | ⟨t, hrun, hstage⟩ := stage_cases r kind span error s
  · rw [hrun] at hpasses hvalue
    rw [hstage]
    exact ⟨bs, hpasses, hvalue⟩
  · rw [hrun] at hsteps hpasses hvalue
    rw [hstage]
    obtain rfl : bs = [] := hvalue
    exact ⟨[], hpasses.trans ((hs.steps hsteps).passes_resync _), herror _⟩

/-! ## Stages -/

theorem passes_processingCommand (levels : Nat) (hs : s.Good) :
    s.Passes [] ((processingCommand (expressions levels)).run s).2 := by
  have hlink : (Pairing.own s).link.Rules Link.Any _ _ _ :=
    Link.Rules.processingCommand (Link.Rules.expressions levels)
  exact .of_own (Pairing.states_of_outcome (hlink s s hs.own trivial)) (Lawful.steps s)

theorem passes_processingStage (levels : Nat) (hs : s.Good) :
    s.Passes [] (processingStage (expressions levels) s).2 := by
  have hstates := hs.own.stage (P := Link.Any)
    (Link.Rules.processingCommand (Link.Rules.expressions levels)) trivial .processingCommand
    ProcessingCommand.span .error fun _ _ => rfl
  exact .of_own hstates.2 (steps_processingStage _ s)

/-- Behind the first stage there is one stage for each pipe that is read. -/
theorem passes_stagesUpTo (levels n : Nat) (stages : List (Token × ProcessingCommand))
    (hs : s.Good) :
    ∃ l, (stagesUpTo (expressions levels) n stages s).1 = stages.reverse ++ l ∧
      s.Passes (l.map Prod.fst) (stagesUpTo (expressions levels) n stages s).2 := by
  induction n generalizing stages s with
  | zero => exact ⟨[], (List.append_nil _).symm, .of_stream rfl⟩
  | succ n ih =>
    by_cases hk : s.kind = .pipe
    · rw [stagesUpTo_pipe hk]
      have hbump := hs.steps (Relation.ReflTransGen.single (State.Step.bump s) : s.Steps true _)
      have hstage := passes_processingStage levels hbump
      have hgood := hbump.steps (steps_processingStage (expressions levels) s.bump)
      obtain ⟨l, hl, hpasses⟩ := ih
        ((s.current, (processingStage (expressions levels) s.bump).1) :: stages) hgood
      refine ⟨(s.current, (processingStage (expressions levels) s.bump).1) :: l, ?_, ?_⟩
      · rw [hl, List.reverse_cons, List.append_assoc]
        rfl
      · exact ((hs.passes_bump hk).trans hstage).trans hpasses
    · cases hb : s.atBoundary with
      | true =>
        rw [stagesUpTo_boundary hk hb]
        exact ⟨[], (List.append_nil _).symm, .of_stream rfl⟩
      | false =>
        rw [stagesUpTo_extraneous hk hb]
        obtain ⟨l, hl, hpasses⟩ := ih stages (hs.steps (steps_skipExtraneous s))
        exact ⟨l, hl, hs.passes_skipExtraneous.trans hpasses⟩

/-! ## Queries in brackets -/

/-- A rule that reads the pipes of its query, up to the end of the query; where it gives up, it
reads none. -/
structure QueryBars (query : Rule Query) : Prop where
  /-- The rule is lawful. -/
  lawful : Lawful true query
  /-- The pipes are those of the query. -/
  bars {s : State} (hs : s.Good) : query.Bars (fun q bs => bs = q.bars) s
  /-- The query ends at a boundary that is no pipe. -/
  ends {s t : State} {q : Query} (hs : s.Good) (h : query.run s = (some q, t)) :
    t.atBoundary = true ∧ t.kind ≠ .pipe

theorem passes_expect {kind : Kind} (hk : Inside kind) (hs : s.Good) :
    s.Passes [] ((expect kind).run s).2 :=
  .of_own (Pairing.states_of_outcome
    ((Link.Rules.expect hk : (Pairing.own s).link.Rules Link.Any _ _ _) s s hs.own trivial))
    (Lawful.steps s)

/-- At the end of a query in brackets its bracket is found, or taken for granted. -/
theorem exists_run_expect_rightBracket (hs : s.Good)
    (hk : s.kind = .rightBracket ∨ s.kind = .endOfInput) :
    ∃ token u, (expect .rightBracket).run s = (some token, u) ∧ s.Passes [] u := by
  have hpasses : s.Passes [] ((expect .rightBracket).run s).2 :=
    passes_expect ⟨by decide, by decide⟩ hs
  obtain ⟨token, htoken⟩ : ∃ token, ((expect .rightBracket).run s).1 = some token := by
    rcases hk with hk | hk
    · refine ⟨s.current, ?_⟩
      rw [expect, Link.Rules.run_expectAny, if_pos (by simp [hk])]
      rfl
    · have hb : s.atBoundary = true := State.atBoundary_iff.2 (.inr (.inl hk))
      refine ⟨Token.conjured {.rightBracket} s.current, ?_⟩
      rw [expect, Link.Rules.run_expectAny, if_neg (by simp [hk]), if_neg (by simp [hb]),
        if_pos (by simp [hb, hs.recover])]
  exact ⟨token, _, Prod.ext htoken rfl, hpasses⟩

theorem QueryBars.subquery {query : Rule Query} (hq : QueryBars query) (hs : s.Good) :
    (subquery query).Bars (fun q bs => bs = q.bars) s := by
  unfold Grammar.subquery
  refine .bind (.of_stream rfl) fun start u hu => ?_
  obtain ⟨rfl, rfl⟩ : s.position = start ∧ s = u := by simpa using hu
  refine .bind (passes_expect ⟨by decide, by decide⟩ hs) fun token u hu => ?_
  have hopen : s.Steps true ((expect .leftBracket).run s).2 := Lawful.steps s
  rw [hu] at hopen
  have hgood : u.Good := hs.steps hopen
  have hdeeper := hgood.inScope { u.scope with subqueries := u.scope.subqueries + 1 }
  have hbars := hq.bars hdeeper
  refine .bind_total (Q := fun q bs => bs = q.bars) ?_ fun q t bs hrun hbs => ?_
  · obtain ⟨bs, hpasses, hvalue⟩ := hbars
    exact ⟨bs, hpasses, hvalue⟩
  · rw [run_within, Prod.mk.injEq] at hrun
    obtain ⟨hrun, rfl⟩ := hrun
    obtain ⟨hb, hne⟩ := hq.ends hdeeper (Prod.ext hrun rfl)
    have hsteps := hq.lawful.steps
      { u with scope := { u.scope with subqueries := u.scope.subqueries + 1 } }
    generalize query.run { u with scope := { u.scope with subqueries := u.scope.subqueries + 1 } } = x
      at hb hne hsteps ⊢
    have hclose : ({ x.2 with scope := u.scope } : State).Good :=
      (hdeeper.steps hsteps).inScope u.scope
    have hk : x.2.kind = .rightBracket ∨ x.2.kind = .endOfInput := by
      rcases State.atBoundary_iff.1 hb with h | h | h
      · exact absurd h hne
      · exact .inr h
      · exact .inl h.1
    obtain ⟨token, v, hv, hpasses⟩ := exists_run_expect_rightBracket hclose hk
    refine ⟨q, v.record .subquery (v.spanFrom s.position), ?_, hpasses, hbs⟩
    rw [run_bind, hv]
    rfl

/-- Only `EXPLAIN` has pipes of its own. -/
theorem bars_of_run_sourceCommand {inner : Expressions} [inner.Lawful true] {query : Rule Query}
    [Lawful true query] (hs : s.Regular) (hk : s.kind ≠ .kwExplain) {command : SourceCommand}
    (h : (sourceCommand inner query).run s = (some command, t)) : command.bars = [] := by
  let noted := s.note (.sourceCommand s.current)
  have hnoted : noted.Regular := (State.Step.note s _ : State.Step true s noted).regular hs
  obtain ⟨f, hf, rfl⟩ := run_spanned_eq_some.1 h
  generalize t.spanFrom s.position = i
  rw [run_bind, run_change] at hf
  simp only [run_bind, run_ask] at hf
  have hshape {r : Rule (Span → SourceCommand)}
      (hr : r.Ensures noted.stream.tokens.length fun f => ∀ i, SourceCommand.bars (f i) = [])
      (hrun : r.run noted = (some f, t)) : (f i).bars = [] := hr noted t f hnoted rfl hrun i
  split at hf
  · next hkind => exact absurd hkind hk
  · exact hshape (Ensures.next fun _ => Ensures.next fun _ => Ensures.pure fun _ => by
      rw [SourceCommand.bars, SourceClause.bars]) hf
  · exact hshape (Ensures.next fun _ => Ensures.next fun _ => Ensures.pure fun _ => by
      rw [SourceCommand.bars, SourceClause.bars]) hf
  · rw [run_bind, run_ask] at hf
    dsimp only at hf
    split at hf
    · exact hshape (Ensures.next fun _ => Ensures.next fun _ => Ensures.pure fun _ => by
        rw [SourceCommand.bars, SourceClause.bars]) hf
    · exact hshape (Ensures.next fun _ => Ensures.giveUp) hf
  · exact hshape Ensures.giveUp hf

theorem passes_sourceCommand_of_ne (levels : Nat) (query : Rule Query) [Lawful true query]
    (hs : s.Good) (hk : s.kind ≠ .kwExplain) :
    s.Passes [] ((sourceCommand (expressions levels) query).run s).2 := by
  have hlink : (Pairing.own s).link.Rules _ _ _ _ :=
    Link.Rules.sourceCommand_of_ne (Link.Rules.expressions levels) query
  exact .of_own (Pairing.states_of_outcome (hlink s s hs.own hk)) (Lawful.steps s)

theorem bars_sourceCommand (levels : Nat) {query : Rule Query} (hq : QueryBars query)
    (hs : s.Good) :
    (sourceCommand (expressions levels) query).Bars (fun command bs => bs = command.bars) s := by
  have := hq.lawful
  by_cases hk : s.kind = .kwExplain
  · let noted := s.note (.sourceCommand s.current)
    have hnoted : noted.Good := hs.steps (Relation.ReflTransGen.single (State.Step.note s _) :
      s.Steps true noted)
    have hbump : noted.bump.Good :=
      hnoted.steps (Relation.ReflTransGen.single (State.Step.bump noted) : noted.Steps true _)
    unfold sourceCommand
    refine .spanned (.bind (.of_stream rfl) fun _ t ht => ?_)
    obtain rfl : noted = t := by simpa using ht
    refine .bind (.of_stream rfl) fun _ t ht => .bind (.of_stream rfl) fun kind u hu => ?_
    obtain ⟨-, rfl⟩ : noted.position = _ ∧ noted = t := by simpa using ht
    obtain ⟨rfl, rfl⟩ : noted.kind = kind ∧ noted = u := by simpa using hu
    have hkind : noted.kind = .kwExplain := hk
    have htake : noted.Passes [] noted.bump :=
      .of_own (hnoted.own.bump (hkind ▸ ⟨by decide, by decide⟩))
        (Relation.ReflTransGen.single (State.Step.bump noted))
    rw [hkind]
    refine .bind htake fun keyword v hv => ?_
    obtain ⟨rfl, rfl⟩ : noted.current = keyword ∧ noted.bump = v := by simpa using hv
    refine .bind_total (hq.subquery hbump) fun q w bs _ hbs => ⟨_, w, rfl, .of_stream rfl, fun i => ?_⟩
    rw [SourceCommand.bars, SourceClause.bars, hbs]
  · exact .of_passes (passes_sourceCommand_of_ne levels query hs hk) fun a t hrun =>
      (bars_of_run_sourceCommand hs.toRegular hk hrun).symm

/-! ## Queries -/

theorem bars_sourceStage (levels : Nat) {query : Rule Query} (hq : QueryBars query) (hs : s.Good) :
    s.Passes (sourceStage (expressions levels) query s).1.bars
      (sourceStage (expressions levels) query s).2 := by
  have := hq.lawful
  obtain ⟨bs, hpasses, hbars⟩ := passes_stage hs (bars_sourceCommand levels hq hs) .sourceCommand
    SourceCommand.span .error fun i => by rw [SourceCommand.bars]
  rw [hbars] at hpasses
  exact hpasses

theorem passes_pipeline (levels : Nat) {query : Rule Query} (hq : QueryBars query) (hs : s.Good) :
    s.Passes (pipeline (expressions levels) query s).1.bars
        (pipeline (expressions levels) query s).2 ∧
      (pipeline (expressions levels) query s).2.atBoundary = true ∧
      (pipeline (expressions levels) query s).2.kind ≠ .pipe := by
  have := hq.lawful
  have hsource := bars_sourceStage levels hq hs
  have hgood := hs.steps (steps_sourceStage (expressions levels) query s)
  unfold pipeline
  generalize sourceStage (expressions levels) query s = x at hsource hgood ⊢
  obtain ⟨first, t⟩ := x
  obtain ⟨l, hl, hpasses⟩ := passes_stagesUpTo levels t.stream.remaining [] hgood
  obtain ⟨hne, hb⟩ := atBoundary_stagesUpTo (expressions levels) t.stream.remaining []
    hgood.toRegular (Nat.le_refl _)
  refine ⟨?_, hb, hne⟩
  change s.Passes (Query.ofStages first (stagesUpTo _ t.stream.remaining [] t).1).bars
    (stagesUpTo _ t.stream.remaining [] t).2
  rw [hl, Query.bars_ofStages]
  exact hsource.trans hpasses

theorem queryBars_innerQuery (levels : Nat) : QueryBars (innerQuery levels) := by
  induction levels with
  | zero =>
    refine ⟨inferInstance, fun {s} hs => ⟨[], .of_stream (State.stream_report s _), rfl⟩, ?_⟩
    intro s t q hs h
    have hnone : ((innerQuery 0).run s).1 = none := rfl
    rw [h] at hnone
    exact absurd hnone (by simp)
  | succ levels ih =>
    have hquery {s : State} (hs : s.Good) := passes_pipeline levels ih hs
    rw [← query_eq] at hquery
    refine ⟨inferInstance, fun {s} hs => ⟨_, (hquery hs).1, rfl⟩, ?_⟩
    intro s t q hs h
    obtain ⟨-, hb, hne⟩ := hquery hs
    have ht : (query levels s).2 = t := congrArg Prod.snd h
    exact ht ▸ ⟨hb, hne⟩

end Grammar

/-! ## Texts -/

open Grammar

theorem bars_significant (tokens : List Token) :
    ((TokenStream.significant tokens).filter Placed.isBar).map Prod.fst
      = (tokens.takeWhile (!·.isEnd)).filter (·.kind == .pipe) := by
  have hpipe (k : Kind) (hk : (k == .pipe) = true) : k.isTrivia = false := by
    rw [eq_of_beq hk]
    rfl
  have hbars := TokenStream.filter_significant tokens hpipe
  change (TokenStream.significant tokens).filter Placed.isBar = _ at hbars
  rw [hbars]
  exact map_fst_filter_zipIdx (·.kind == .pipe) _

/-- The pipes of the statement are the pipes in front of the end of the input, each of them once and
in their order, whatever is reported. -/
theorem bars_parse (tokens : List Token) (maxDepth : Nat) :
    (parse tokens ⟨maxDepth, true⟩).statement.query.bars
      = (tokens.takeWhile (!·.isEnd)).filter (·.kind == .pipe) := by
  let start : State := .start ⟨maxDepth, true⟩ tokens
  have hgood : start.Good := ⟨State.regular_start _ tokens, rfl⟩
  have hsteps : start.Steps true (query maxDepth start).2 := steps_query maxDepth start
  obtain ⟨hpasses, hb, hne⟩ := passes_pipeline maxDepth (queryBars_innerQuery maxDepth) hgood
  rw [← query_eq] at hpasses hb hne
  obtain ⟨ps, hps, hbars⟩ := hpasses
  -- the query is not in brackets, so it ends with the input
  have hrest : (query maxDepth start).2.stream.rest = [] :=
    (hgood.steps hsteps).rest_eq_nil hsteps.scope hb hne
  have hall : TokenStream.significant tokens = ps := by
    have hread := hps.rest
    rw [hrest, List.append_nil] at hread
    exact hread
  rw [← bars_significant, hall, hbars]
  rfl

end PipeQuery
