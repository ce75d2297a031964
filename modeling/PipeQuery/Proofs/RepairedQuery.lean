import PipeQuery.Proofs.Bars
import PipeQuery.Proofs.RepairedCommand
import PipeQuery.Proofs.Spans

/-!
# Queries with repairs

A query may hold stages that were not read, and leaves that were taken for granted. One that holds
none of them is `Phrase.Intact`. Such a query is derived by the grammar, whatever was reported, from
tokens of which the module also shows where they come from (`Stems`): a token that has not the one
text of its kind stands in a stage behind the keyword of that stage, with no pipe in between, or it
stands in for a missing one.
-/

namespace PipeQuery

/-! ## What is missing in a tree -/

/-- The text of a token of a kind that was taken for granted. -/
def Kind.placeholder (k : Kind) : String := "<missing " ++ k.wording ++ ">"

/-- Whether a text is that of a token that was taken for granted. -/
def IsPlaceholder (text : String) : Prop := ∃ k : Kind, text = k.placeholder

instance (text : String) : Decidable (IsPlaceholder text) :=
  decidable_of_iff (∃ k ∈ Kind.all, text = k.placeholder)
    ⟨fun ⟨k, _, h⟩ => ⟨k, h⟩, fun ⟨k, h⟩ => ⟨k, k.mem_all, h⟩⟩

namespace Phrase

/-- Whether a phrase is a command that was not read. -/
def isError : Phrase → Bool
  | sourceCommand (.error _) | processingCommand (.error _) => true
  | _ => false

/-- The kind and the text of a phrase that is a leaf of the tree: a name, a number or a string. -/
def leaf? : Phrase → Option (Kind × String)
  | identifier i => some (i.kind, i.raw)
  | number n => some (n.kind.kind, n.raw)
  | string s => some (.string, s.raw)
  | _ => none

/-- The phrase is neither a command that was not read, nor a leaf that was taken for granted. -/
def Filled (p : Phrase) : Prop := p.isError = false ∧ ∀ leaf ∈ p.leaf?, ¬ IsPlaceholder leaf.2

instance (p : Phrase) : Decidable p.Filled := inferInstanceAs (Decidable (_ ∧ _))

/-- Nothing is missing in a phrase. -/
def Intact (p : Phrase) : Prop := ∀ q, p.Below q → q.Filled

theorem Intact.child {p q : Phrase} (h : p.Intact) (hq : q ∈ p.children) : q.Intact :=
  fun r hr => h r (.head hq hr)

theorem not_intact_error (span : Span) :
    ¬ (sourceCommand (.error span)).Intact ∧ ¬ (processingCommand (.error span)).Intact :=
  ⟨fun h => Bool.noConfusion (h _ .refl).1, fun h => Bool.noConfusion (h _ .refl).1⟩

/-- Whether a phrase of a given height at most is intact. -/
def isIntact : Nat → Phrase → Bool
  | 0, _ => false
  | n + 1, p => decide p.Filled && p.children.all (isIntact n)

theorem intact_of_isIntact {n : Nat} {p : Phrase} (h : p.isIntact n = true) : p.Intact := by
  induction n generalizing p with
  | zero => cases h
  | succ n ih =>
    simp only [isIntact, Bool.and_eq_true, decide_eq_true_eq, List.all_eq_true] at h
    intro q hq
    obtain rfl | ⟨r, hr, hq⟩ := Relation.ReflTransGen.cases_head hq
    · exact h.1
    · exact ih (h.2 r hr) q hq

end Phrase

namespace Grammar

open Rule

/-! ## Where the tokens come from -/

/-- The keywords of stages but for `EXPLAIN`. -/
def stageKinds : List Kind :=
  [.kwFrom, .kwRow, .kwShow] ++
    [.kwEval, .kwLimit, .kwKeep, .kwProject, .kwRename, .kwDrop, .kwDissect, .kwGrok, .kwSort,
     .kwStats, .kwWhere, .kwMvExpand, .kwEnrich]

theorem mem_stageKinds_of_processing {k : Kind} (h : k ∈ processingKeywords) : k ∈ stageKinds :=
  List.mem_append_right _ (KindSet.mem_ofList.1 h)

theorem mem_stageKinds_of_source {k : Kind} (h : k ∈ sourceKeywords) (hk : k ≠ .kwExplain) :
    k ∈ stageKinds :=
  List.mem_append_left _ (List.mem_of_ne_of_mem hk (KindSet.mem_ofList.1 h))

/-- A token stands in a stage behind the keyword of the stage. -/
def InStage (tokens : List Placed) (x : Placed) : Prop :=
  ∃ before keyword stage behind, tokens = before ++ keyword :: (stage ++ behind) ∧
    keyword.1.kind ∈ stageKinds ∧ (∀ y ∈ stage, y.isBar = false) ∧ x ∈ stage

/-- Where a token that a query is made of comes from. -/
inductive Stems (tokens : List Placed) (x : Placed) : Prop
  | stage (h : InStage tokens x)
  | fixed (hx : x ∈ tokens) {text : String} (h : x.1.kind.fixedText? = some text)
  | spare (h : x.1.Spare)

variable {α : Type} {s t u : State} {us vs : List Placed} {c : Context} {n : Nat} {p : Phrase}
  {r : Rule α} {Q : α → List Placed → Prop} {tokens : List Placed}

/-- All that the grammar sees of the tokens of a run. -/
def State.seen (s : State) : List Placed := TokenStream.significant s.stream.tokens

theorem State.Gives.seen (h : s.Gives us t) : t.seen = s.seen := by
  obtain ⟨ps, hps, -⟩ := h.tokens
  rw [State.seen, hps.tokens, State.seen]

theorem State.Gives.recover (h : s.Gives us t) (hs : s.config.recover = true) :
    t.config.recover = true := h.steps.config ▸ hs

theorem State.Gives.good (h : s.Gives us t) (hs : s.Good) : t.Good := hs.steps h.steps

/-- A token with the one text of its kind. -/
theorem State.Gives.stems_fixed (h : s.Gives us t) (hs : s.Regular) {x : Placed} (hx : x ∈ us)
    {text : String} (hfixed : x.1.kind.fixedText? = some text) : Stems s.seen x := by
  obtain ⟨ps, hps, hus⟩ := h.tokens
  rcases hus x hx with hx | hx
  · exact .fixed (hs.valid.mem_significant (hps.rest ▸ List.mem_append_left _ hx)) hfixed
  · exact .spare hx

/-- Tokens of a run that begins with the keyword of a stage and reads no pipe. -/
theorem State.Gives.stems (h : s.Gives us t) (hs : s.Regular) (hk : s.kind ∈ stageKinds)
    (hbars : s.Passes [] t) : ∀ x ∈ us, Stems s.seen x := by
  obtain ⟨ps, hps, hus⟩ := h.tokens
  obtain ⟨ps', hps', hnone⟩ := hbars
  obtain rfl := hps.unique hps'
  have hbar : ∀ y ∈ ps, y.isBar = false := by
    rw [List.map_eq_nil_iff, List.filter_eq_nil_iff] at hnone
    simpa using hnone
  obtain ⟨before, hsig, -⟩ := hs.valid.exists_append_eq_significant
  intro x hx
  rcases hus x hx with hx | hx
  · obtain ⟨keyword, stage, rfl⟩ := List.exists_cons_of_ne_nil (List.ne_nil_of_mem hx)
    have hkind : keyword.1.kind ∈ stageKinds := by
      rw [State.kind, hs.valid.kind_eq, hps.rest] at hk
      exact hk
    rcases List.mem_cons.1 hx with rfl | hx
    · have hfixed : ∀ k ∈ stageKinds, (k.fixedText?).isSome = true := by decide
      obtain ⟨text, htext⟩ := Option.isSome_iff_exists.1 (hfixed _ hkind)
      exact h.stems_fixed hs ‹_› htext
    · refine .stage ⟨before, keyword, stage, t.stream.rest, ?_, hkind,
        fun y hy => hbar y (List.mem_cons_of_mem _ hy), hx⟩
      rw [State.seen, hsig, hps.rest]
      rfl
  · exact .spare hx

/-- A phrase in which nothing is missing is derived from tokens that stem from a text. -/
def Grows (tokens : List Placed) (c : Context) (p : Phrase) (us : List Placed) : Prop :=
  p.Intact → Builds c p us ∧ ∀ x ∈ us, Stems tokens x

/-! ## Queries in brackets -/

/-- Queries one level deeper are derived as such, if nothing is missing in them. -/
def QueryRepairs (query : Rule Query) (n : Nat) : Prop :=
  ∀ s : State, s.config.recover = true → query.Makes s fun q us _ => (Phrase.query q).Intact →
    Yields id false (s.context n) [.deeper (.query q)] us ∧ ∀ x ∈ us, Stems s.seen x

section

variable {query : Rule Query}

theorem makes_subquery (hq : QueryRepairs query n) (hrec : s.config.recover = true) :
    (subquery query).Makes s fun q us _ => (Phrase.query q).Intact →
      Yields id false (s.context n) [.kind .leftBracket, .deeper (.query q), .kind .rightBracket] us ∧
        ∀ x ∈ us, Stems s.seen x := by
  refine .of_regular fun hs => ?_
  unfold subquery
  refine .ask_bind ((makes_expect rfl).bind fun _ us t ht hopen => ?_)
  obtain ⟨x, rfl, hx⟩ := hopen
  have hstems := ht.stems_fixed hs (List.mem_singleton_self x) (hx ▸ rfl : _ = some "[")
  let inside : State := { t with scope := { t.scope with subqueries := t.scope.subqueries + 1 } }
  have hcontext : inside.context n = s.context n := State.context_eq (s := s) (u := t) ht.scope n
  have hinner := hq inside (ht.recover hrec)
  have hseen : inside.seen = s.seen := ht.seen
  rw [hcontext, hseen] at hinner
  refine Makes.bind (Makes.within (Q := fun q us _ => (Phrase.query q).Intact →
    Yields id false (s.context n) [.deeper (.query q)] us ∧ ∀ x ∈ us, Stems s.seen x) hinner)
      fun q vs u hu hqy => ?_
  refine .of_regular fun hreg => (makes_expect rfl).bind fun _ ws v hv hclose => ?_
  obtain ⟨y, rfl, hy⟩ := hclose
  have hstems' := hv.stems_fixed hreg (List.mem_singleton_self y) (hy ▸ rfl : _ = some "]")
  rw [hu.seen, ht.seen] at hstems'
  refine (Makes.change (Q := fun _ us _ => us = []) (.single (.record rfl v _ _)) rfl).bind ?_
  rintro - us w - rfl
  refine .pure fun hintact => ?_
  obtain ⟨hy', hvs⟩ := hqy hintact
  have hl : (Terminal.kind .leftBracket).Matches id x.1 := hx
  have hr : (Terminal.kind .rightBracket).Matches id y.1 := hy
  refine ⟨.terminal hl (hy'.append (.terminal hr (.nil _))), fun z hz => ?_⟩
  simp only [List.singleton_append, List.append_nil, List.mem_cons, List.mem_append,
    List.not_mem_nil, or_false] at hz
  obtain rfl | hz | rfl := hz
  · exact hstems
  · exact hvs z hz
  · exact hstems'

/-! ## Stages -/

theorem makes_sourceCommand (levels : Nat) [Lawful true query] (hi : (expressions levels).Repairs n)
    (hq : QueryRepairs query n) (hrec : s.config.recover = true) :
    (sourceCommand (expressions levels) query).Makes s fun a us _ =>
      Grows s.seen (s.context n) (.sourceCommand a) us := by
  by_cases hk : s.kind = .kwExplain
  · refine .of_regular fun hs => ?_
    unfold sourceCommand
    refine .spanned ((Makes.change (Q := fun _ us t => us = [] ∧ t = s.note _)
      (.single (.note s _)) ⟨rfl, rfl⟩).bind fun _ us t ht hnote => .ask_bind (.ask_bind ?_))
    obtain ⟨rfl, rfl⟩ := hnote
    rw [show (s.note (.sourceCommand s.current)).kind = .kwExplain from hk]
    have hkind : (s.note (.sourceCommand s.current)).kind = .kwExplain := hk
    refine .of_regular fun hreg => (makes_take (by rw [hkind]; decide)).bind ?_
    rintro keyword us u hu ⟨hkeyword, -, x, rfl, rfl⟩
    have hx : x.1.kind = .kwExplain := hkeyword ▸ hk
    have hstems := hu.stems_fixed hreg (List.mem_singleton_self x) (hx ▸ rfl : _ = some "EXPLAIN")
    refine .bind_pure ((makes_subquery hq (hu.recover (ht.recover hrec))).mono
      fun q vs v _ hqy span hintact => ?_)
    have hchild : (Phrase.query q).Intact := hintact.child (by
      simp [Phrase.children, Phrase.items, SourceClause.items, Item.phrase?])
    obtain ⟨hy, hvs⟩ := hqy hchild
    rw [State.context_eq (hu.scope.trans ht.scope)] at hy
    rw [hu.seen, ht.seen] at hvs
    rw [ht.seen] at hstems
    have hm : (Terminal.kept [.kwExplain] x.1).Matches id x.1 := ⟨by simp [hx], rfl⟩
    refine ⟨.of_items trivial (.terminal hm hy), fun z hz => ?_⟩
    rcases List.mem_cons.1 hz with rfl | hz
    · exact hstems
    · exact hvs z hz
  · intro hs a t hrun
    obtain ⟨us, hus, hkind, hy⟩ := makes_sourceCommand_of_ne hi hk hs a t hrun
    have hbars := passes_sourceCommand_of_ne levels query ⟨hs, hrec⟩ hk
    rw [hrun] at hbars
    exact ⟨us, hus, fun _ => ⟨hy, hus.stems hs (mem_stageKinds_of_source hkind hk) hbars⟩⟩

theorem makes_processingCommand_stems (levels : Nat) (hi : (expressions levels).Repairs n)
    (hrec : s.config.recover = true) : (processingCommand (expressions levels)).Makes s fun a us _ =>
      Grows s.seen (s.context n) (.processingCommand a) us := by
  intro hs a t hrun
  obtain ⟨us, hus, hkind, hy⟩ := makes_processingCommand hi hs a t hrun
  have hbars := passes_processingCommand levels ⟨hs, hrec⟩
  rw [hrun] at hbars
  exact ⟨us, hus, fun _ => ⟨hy, hus.stems hs (mem_stageKinds_of_processing hkind) hbars⟩⟩

/-- A stage is made as its command is. One that was not read is made of nothing. -/
theorem exists_gives_stage {kind : Kind} {span : α → Span} {error : Span → α} {a : α}
    [Lawful true r] (hr : r.Makes s fun a us _ => Q a us) (hs : s.Regular)
    (herror : ∀ i, Q (error i) []) (h : stage r kind span error s = (a, t)) :
    ∃ us, s.Gives us t ∧ Q a us := by
  have hsteps := steps_stage r kind span error s
  obtain ⟨b, u, hrun, hstage⟩ | ⟨u, hrun, hstage⟩ := stage_cases r kind span error s
  · obtain ⟨rfl, rfl⟩ := Prod.mk.inj (hstage.symm.trans h)
    obtain ⟨us, hus, hQ⟩ := hr hs b u hrun
    have hall := hus.trans (.of_steps (.single (.record rfl u kind (span b))))
    rw [List.append_nil] at hall
    exact ⟨us, hall, hQ⟩
  · obtain ⟨rfl, rfl⟩ := Prod.mk.inj (hstage.symm.trans h)
    rw [hstage] at hsteps
    exact ⟨[], .of_steps hsteps, herror _⟩

theorem Grows.pipe {q : Query} {bar : Placed} {command : ProcessingCommand}
    (hq : Grows tokens c (.query q) us) (hbar : bar.1.kind = .pipe) (hstems : Stems tokens bar)
    (hcommand : Grows tokens c (.processingCommand command) vs) :
    Grows tokens c (.query (.pipe q bar.1 command)) (us ++ bar :: vs) := by
  intro hintact
  obtain ⟨hqy, hus⟩ := hq (hintact.child (by simp [Phrase.children, Phrase.items, Item.phrase?]))
  obtain ⟨hcy, hvs⟩ := hcommand (hintact.child (by
    simp [Phrase.children, Phrase.items, Item.phrase?]))
  have hm : (Terminal.kept [.pipe] bar.1).Matches id bar.1 := ⟨by simp [hbar], rfl⟩
  refine ⟨.of_items trivial (Yields.append hqy (.terminal hm hcy)), fun z hz => ?_⟩
  simp only [List.mem_append, List.mem_cons] at hz
  obtain hz | rfl | hz := hz
  · exact hus z hz
  · exact hstems
  · exact hvs z hz

/-- The stages behind the first one join it, each with its pipe. -/
theorem exists_gives_stagesUpTo (levels : Nat) (hi : (expressions levels).Repairs n)
    {start : State} {first : SourceCommand} (m : Nat) {stages l : List (Token × ProcessingCommand)}
    (hstart : start.Good) (hus : start.Gives us s)
    (hq : Grows start.seen (start.context n) (.query (Query.ofStages first stages.reverse)) us)
    (h : stagesUpTo (expressions levels) m stages s = (l, t)) :
    ∃ vs, start.Gives vs t ∧
      Grows start.seen (start.context n) (.query (Query.ofStages first l)) vs := by
  induction m generalizing stages us s with
  | zero =>
    obtain ⟨rfl, rfl⟩ := Prod.mk.inj h
    exact ⟨us, hus, hq⟩
  | succ m ih =>
    have hs := hus.good hstart
    by_cases hk : s.kind = .pipe
    · rw [stagesUpTo_pipe hk] at h
      obtain ⟨bar, hbar, hbump⟩ := State.Gives.bump hs.toRegular (by rw [hk]; decide)
      have hbarkind : bar.1.kind = .pipe := hbar ▸ hk
      have hstems := hbump.stems_fixed hs.toRegular (List.mem_singleton_self bar)
        (hbarkind ▸ rfl : _ = some "|")
      have hgood := hbump.good hs
      generalize hstage : processingStage (expressions levels) s.bump = x at h
      obtain ⟨command, u⟩ := x
      obtain ⟨vs, hvs, hcommand⟩ := exists_gives_stage
        (makes_processingCommand_stems levels hi hgood.recover) hgood.toRegular
        (fun i hintact => absurd hintact (Phrase.not_intact_error i).2) hstage
      rw [hbump.seen, hus.seen, State.context_eq (hbump.scope.trans hus.scope)] at hcommand
      rw [hus.seen] at hstems
      have hall := hus.trans (hbump.trans hvs)
      refine ih hall ?_ h
      rw [List.reverse_cons, Query.ofStages_append_singleton, ← hbar]
      exact hq.pipe hbarkind hstems hcommand
    · cases hb : s.atBoundary with
      | true =>
        rw [stagesUpTo_boundary hk hb] at h
        obtain ⟨rfl, rfl⟩ := Prod.mk.inj h
        exact ⟨us, hus, hq⟩
      | false =>
        rw [stagesUpTo_extraneous hk hb] at h
        have hskip := hus.trans (.of_steps (steps_skipExtraneous s))
        rw [List.append_nil] at hskip
        exact ih hskip hq h

theorem exists_gives_pipeline (levels : Nat) [Lawful true query]
    (hi : (expressions levels).Repairs n) (hq : QueryRepairs query n) (hs : s.Good) {q : Query}
    (h : pipeline (expressions levels) query s = (q, t)) :
    ∃ us, s.Gives us t ∧ Grows s.seen (s.context n) (.query q) us := by
  rw [pipeline] at h
  generalize hstage : sourceStage (expressions levels) query s = x at h
  obtain ⟨first, u⟩ := x
  obtain ⟨us, hus, hfirst⟩ := exists_gives_stage (makes_sourceCommand levels hi hq hs.recover)
    hs.toRegular (fun i hintact => absurd hintact (Phrase.not_intact_error i).1) hstage
  have hquery : Grows s.seen (s.context n) (.query (Query.ofStages first [].reverse)) us := by
    intro hintact
    obtain ⟨hy, hstems⟩ := hfirst (hintact.child (by
      simp [Query.ofStages, Phrase.children, Phrase.items, Item.phrase?]))
    exact ⟨hy.alone trivial rfl, hstems⟩
  cases hl : stagesUpTo (expressions levels) u.stream.remaining [] u with
  | mk l v =>
    simp only [hl, Prod.mk.injEq] at h
    obtain ⟨rfl, rfl⟩ := h
    exact exists_gives_stagesUpTo levels hi u.stream.remaining hs hus hquery hl

end

/-- On all levels of nesting a query in which nothing is missing is derived by the grammar, whatever
was reported. -/
theorem exists_gives_query (levels : Nat) (hs : s.Good) {q : Query} (h : query levels s = (q, t)) :
    ∃ us, s.Gives us t ∧ Grows s.seen (s.context levels) (.query q) us := by
  induction levels generalizing s t q with
  | zero =>
    rw [query_zero] at h
    refine exists_gives_pipeline 0 (expressions_repairs 0) (fun s _ => ?_) hs h
    exact .giveUp
  | succ levels ih =>
    rw [query_succ] at h
    refine exists_gives_pipeline (levels + 1) (expressions_repairs (levels + 1))
      (fun s hrec hs q t hrun => ?_) hs h
    have hrun : query levels s = (q, t) := by
      rw [run_total, Prod.mk.injEq, Option.some.injEq] at hrun
      exact Prod.ext hrun.1 hrun.2
    obtain ⟨us, hus, hgrows⟩ := ih ⟨hs, hrec⟩ hrun
    refine ⟨us, hus, fun hintact => ?_⟩
    obtain ⟨hy, hstems⟩ := hgrows hintact
    exact ⟨Yields.deeper_succ_iff.2 hy, hstems⟩

/-- A statement in which nothing is missing is derived by the grammar, whatever was reported, from
tokens that stem from the text. -/
theorem exists_builds_parse {config : Config} (hrec : config.recover = true) (tokens : List Token)
    (h : (Phrase.query (parse tokens config).statement.query).Intact) :
    ∃ us, Builds ⟨false, config.maxDepth⟩ (.query (parse tokens config).statement.query) us ∧
      ∀ x ∈ us, Stems (TokenStream.significant tokens) x := by
  obtain ⟨us, -, hgrows⟩ := exists_gives_query config.maxDepth (s := .start config tokens)
    ⟨State.regular_start config tokens, hrec⟩ rfl
  exact ⟨us, hgrows h⟩

end Grammar

end PipeQuery
