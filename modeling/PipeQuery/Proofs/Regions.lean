import PipeQuery.Proofs.SpanBounds

/-!
# Regions are nested

Whatever is read, with diagnostics or without, of two regions that have tokens one lies inside the
other or they have no token in common, and they are not over the same tokens (`Region.Apart`).

A run reads a stretch of tokens and lays down regions (`State.Lays`). `Laid ps rs` says that the
regions lie in the stretch and are nested in this sense. A stage lays its own region around all that
it has read, so that it covers its tokens; this is well as long as the regions inside begin behind
its first token (`Behind`). They do: a query in brackets begins behind the word `EXPLAIN`, and behind
its bracket. If the bracket was only taken for granted, then the query stands at the end of a stage,
and its first region with tokens begins behind a pipe.
-/

namespace PipeQuery

/-! ## Regions in a stretch -/

/-- Every token of a span is one of another span. -/
def Span.Inside (s t : Span) : Prop := t.start ≤ s.start ∧ s.stop ≤ t.stop

/-- A region that is not over the tokens of another one, and lies inside it, around it, in front of
it or behind it. -/
def Region.Apart (r r' : Region) : Prop :=
  r.span ≠ r'.span ∧ (r.span.Inside r'.span ∨ r'.span.Inside r.span ∨
    r.span.stop ≤ r'.span.start ∨ r'.span.stop ≤ r.span.start)

theorem Region.Apart.symm {r r' : Region} (h : r.Apart r') : r'.Apart r := by
  obtain ⟨hne, h⟩ := h
  refine ⟨hne.symm, ?_⟩
  rcases h with h | h | h | h
  · exact .inr (.inl h)
  · exact .inl h
  · exact .inr (.inr (.inr h))
  · exact .inr (.inr (.inl h))

/-- A region that has tokens. -/
def Region.HasTokens (r : Region) : Prop := r.span.start < r.span.stop

/-- The regions that have tokens lie in the stretch, and any two of them are apart. -/
structure Laid (ps : List Placed) (rs : List Region) : Prop where
  /-- Regions with tokens lie in the stretch. -/
  inside : ∀ r ∈ rs, r.HasTokens → ps ≠ [] ∧ r.span.Inside (Span.around ps)
  /-- Any two of them are apart. -/
  apart : rs.Pairwise fun r r' => r.HasTokens → r'.HasTokens → r.Apart r'

/-- The regions that have tokens begin behind the first token of the stretch. -/
def Behind (ps : List Placed) (rs : List Region) : Prop :=
  ∀ r ∈ rs, r.HasTokens → (Span.around ps).start < r.span.start

/-- Every token of the stretch is in a region, but for pipes. -/
def Covered (ps : List Placed) (rs : List Region) : Prop :=
  ∀ x ∈ ps, x.1.kind = .pipe ∨ ∃ r ∈ rs, r.span.start ≤ x.2 ∧ x.2 < r.span.stop

variable {ps qs : List Placed} {rs rs' : List Region}

theorem Behind.nil (ps : List Placed) : Behind ps [] := by
  intro r hr
  simp at hr

theorem Covered.append (h : Covered ps rs) (h' : Covered qs rs') : Covered (ps ++ qs) (rs ++ rs') := by
  intro x hx
  rcases List.mem_append.1 hx with hx | hx
  · rcases h x hx with hk | ⟨r, hr, hxr⟩
    · exact .inl hk
    · exact .inr ⟨r, List.mem_append_left _ hr, hxr⟩
  · rcases h' x hx with hk | ⟨r, hr, hxr⟩
    · exact .inl hk
    · exact .inr ⟨r, List.mem_append_right _ hr, hxr⟩

namespace Laid

theorem nil (ps : List Placed) : Laid ps [] := ⟨by simp, .nil⟩

/-- What lies in a part of a stretch lies in the stretch. -/
theorem of_part (h : Laid qs rs) (hasc : Ascending ps) (hq : qs <:+: ps) : Laid ps rs := by
  refine ⟨fun r hr ht => ?_, h.apart⟩
  obtain ⟨hne, hstart, hstop⟩ := h.inside r hr ht
  obtain ⟨hstart', hstop'⟩ := hasc.around_part hq hne
  refine ⟨?_, by omega, by omega⟩
  rintro rfl
  exact hne (List.eq_nil_of_infix_nil hq)

/-- Two stretches in a row. -/
theorem append (h : Laid ps rs) (h' : Laid qs rs') (hasc : Ascending (ps ++ qs)) :
    Laid (ps ++ qs) (rs ++ rs') := by
  have hleft := h.of_part hasc (List.prefix_append ps qs).isInfix
  have hright := h'.of_part hasc (List.suffix_append ps qs).isInfix
  refine ⟨fun r hr => ?_, List.pairwise_append.2 ⟨h.apart, h'.apart, fun r hr r' hr' ht ht' => ?_⟩⟩
  · rcases List.mem_append.1 hr with hr | hr
    · exact hleft.inside r hr
    · exact hright.inside r hr
  · obtain ⟨hps, hstart, hstop⟩ := h.inside r hr ht
    obtain ⟨hqs, hstart', hstop'⟩ := h'.inside r' hr' ht'
    have hle := hasc.stop_le_start hps hqs
    unfold Region.HasTokens at ht ht'
    refine ⟨fun heq => ?_, .inr (.inr (.inl (by omega)))⟩
    rw [heq] at ht hstop
    omega

/-- A region around the whole stretch. -/
theorem enclose (h : Laid ps rs) (hb : Behind ps rs) (kind : Kind) (hps : ps ≠ []) :
    Laid ps (rs ++ [⟨kind, Span.around ps⟩]) := by
  refine ⟨fun r hr ht => ?_, List.pairwise_append.2 ⟨h.apart, .cons (by simp) .nil, ?_⟩⟩
  · rcases List.mem_append.1 hr with hr | hr
    · exact h.inside r hr ht
    · rw [List.mem_singleton.1 hr]
      exact ⟨hps, Nat.le_refl _, Nat.le_refl _⟩
  · intro r hr r' hr' ht ht'
    obtain rfl := List.mem_singleton.1 hr'
    have hlt := hb r hr ht
    refine ⟨fun heq => ?_, .inl (h.inside r hr ht).2⟩
    rw [heq] at hlt
    exact absurd hlt (Nat.lt_irrefl _)

/-- A region without tokens does not matter. -/
theorem append_empty (h : Laid ps rs) {r : Region} (hr : ¬ r.HasTokens) : Laid ps (rs ++ [r]) := by
  refine ⟨fun r' hr' ht => ?_, List.pairwise_append.2 ⟨h.apart, .cons (by simp) .nil, ?_⟩⟩
  · rcases List.mem_append.1 hr' with hr' | hr'
    · exact h.inside r' hr' ht
    · rw [List.mem_singleton.1 hr'] at ht
      exact absurd ht hr
  · intro r' _ r'' hr'' _ ht
    rw [List.mem_singleton.1 hr''] at ht
    exact absurd ht hr

/-- In a stretch behind a token regions begin behind the token. -/
theorem behind (h : Laid qs rs) (hps : ps ≠ []) (hasc : Ascending (ps ++ qs)) :
    Behind (ps ++ qs) rs := by
  intro r hr ht
  obtain ⟨hqs, hstart, -⟩ := h.inside r hr ht
  have hlt := hasc.left.start_lt_stop hps
  have hle := hasc.stop_le_start hps hqs
  rw [Span.around_append hps hqs]
  change (Span.around ps).start < r.span.start
  omega

/-- Regions that begin behind the first token of a part begin behind that of the whole, if the part
is at the front. -/
theorem behind_append (h : Laid ps rs) (hb : Behind ps rs) (qs : List Placed) :
    Behind (ps ++ qs) rs := by
  intro r hr ht
  obtain ⟨hps, -, -⟩ := h.inside r hr ht
  have hlt := hb r hr ht
  by_cases hqs : qs = []
  · rwa [hqs, List.append_nil]
  · rwa [Span.around_append hps hqs]

end Laid

namespace Grammar

open Rule State

variable {α β : Type} {s t u : State}

/-! ## Runs -/

/-- A run reads a stretch and lays down regions. -/
structure State.Lays (s : State) (ps : List Placed) (rs : List Region) (t : State) : Prop where
  /-- The stretch is read off the stream. -/
  stream : s.stream.Reads ps t.stream
  /-- The regions are laid down behind the others. -/
  regions : t.regions.toList = s.regions.toList ++ rs

namespace State

theorem Lays.refl (s : State) : s.Lays [] [] s := ⟨.refl _, (List.append_nil _).symm⟩

theorem Lays.trans (h : s.Lays ps rs t) (k : t.Lays qs rs' u) :
    s.Lays (ps ++ qs) (rs ++ rs') u := by
  refine ⟨h.stream.trans k.stream, ?_⟩
  rw [k.regions, h.regions, List.append_assoc]

theorem Lays.ascending (h : s.Lays ps rs t) (hs : s.Regular) : Ascending ps := by
  have hrest := hs.valid.ascending_rest
  rw [h.stream.rest] at hrest
  exact hrest.left

/-- Steps that lay down no region only read. -/
theorem Steps.exists_lays (h : Steps false s t) : ∃ ps, s.Lays ps [] t := by
  obtain ⟨ps, hps⟩ := h.reads
  refine ⟨ps, hps, ?_⟩
  rw [h.regions, List.append_nil]

theorem lays_bump (h : s.kind ≠ .endOfInput) (hs : s.Regular) :
    ∃ x : Placed, x.1.kind = s.kind ∧ s.Lays [x] [] s.bump := by
  have hreads := s.stream.reads_next
  cases hr : s.stream.rest with
  | nil => exact absurd (hs.valid.kind_eq_endOfInput_iff.2 hr) h
  | cons x rest =>
    rw [hr] at hreads
    refine ⟨x, ?_, hreads, (List.append_nil _).symm⟩
    change _ = s.stream.kind
    rw [hs.valid.kind_eq, hr, frontKind_cons]

/-- The span of what was read since a position. -/
theorem Lays.spanFrom (h : s.Lays ps rs t) (hs : s.Regular) :
    t.spanFrom s.position = if ps = [] then ⟨s.position, s.position⟩ else Span.around ps := by
  split
  · next hps =>
    obtain rfl := hps
    have hstream : t.stream = s.stream := h.stream.eq_of_nil
    rw [State.spanFrom, hstream]
    cases hprev : s.stream.previous with
    | none => rfl
    | some i =>
      have hlt := hs.valid.previous_lt_position hprev
      have hlt : i < s.position := hlt
      change Span.mk s.position (max (i + 1) s.position) = _
      rw [Nat.max_eq_right (by omega)]
  · next hps => exact spanFrom_of_reads hs h.stream hps

/-- A region around all that was read. -/
theorem Lays.record (h : s.Lays ps rs t) (hs : s.Regular) (hl : Laid ps rs) (hb : Behind ps rs)
    (kind : Kind) :
    ∃ rs', s.Lays ps rs' (t.record kind (t.spanFrom s.position)) ∧ Laid ps rs' ∧ Covered ps rs' := by
  have hlays : s.Lays ps (rs ++ [⟨kind, t.spanFrom s.position⟩])
      (t.record kind (t.spanFrom s.position)) := by
    refine ⟨h.stream, ?_⟩
    rw [← List.append_assoc, ← h.regions]
    exact Array.toList_push
  refine ⟨_, hlays, ?_⟩
  rw [h.spanFrom hs]
  split
  · next hps =>
    obtain rfl := hps
    refine ⟨hl.append_empty (Nat.lt_irrefl _), fun x hx => ?_⟩
    simp at hx
  · next hps =>
    refine ⟨hl.enclose hb kind hps, fun x hx => .inr ⟨⟨kind, Span.around ps⟩, by simp, ?_⟩⟩
    exact ⟨(h.ascending hs).start_le hx, (h.ascending hs).lt_stop hx⟩

end State

/-! ## Queries in brackets -/

/-- A sequence of rules, which ends with the first one if that gives up. -/
theorem Rule.exists_lays_bind {r : Rule α} {f : α → Rule β} {P : List Placed → List Region → Prop}
    (hnone : ∀ u, r.run t = (none, u) → ∃ ps rs, s.Lays ps rs u ∧ P ps rs)
    (hsome : ∀ a u, r.run t = (some a, u) → ∃ ps rs, s.Lays ps rs ((f a).run u).2 ∧ P ps rs) :
    ∃ ps rs, s.Lays ps rs ((r >>= f).run t).2 ∧ P ps rs := by
  rw [run_bind]
  cases h : r.run t with
  | mk a u =>
    cases a with
    | none => exact hnone u h
    | some a => exact hsome a u h

/-- Where a token is found, it was read, or it was taken for granted at the end of a stage. -/
theorem run_expect_some {kind : Kind} (hk : kind ≠ .endOfInput) (hs : s.Regular) {token : Token}
    (h : (expect kind).run s = (some token, u)) :
    (∃ as, as ≠ [] ∧ s.Lays as [] u) ∨
      s.Lays [] [] u ∧ s.config.recover = true ∧ s.atBoundary = true := by
  have hsteps : s.Steps false u := by
    have hsteps : s.Steps false ((expect kind).run s).2 := Lawful.steps s
    rwa [h] at hsteps
  obtain ⟨as, has⟩ := hsteps.exists_lays
  have hread (hlt : u.stream.remaining < s.stream.remaining) : as ≠ [] := by
    rintro rfl
    rw [has.stream.eq_of_nil] at hlt
    exact absurd hlt (Nat.lt_irrefl _)
  have hpos (hne : s.kind ≠ .endOfInput) : 0 < s.stream.remaining := by
    refine List.length_pos_iff.2 fun hr => hne ?_
    exact hs.valid.kind_eq_endOfInput_iff.2 hr
  obtain ⟨hmem, hrun⟩ | ⟨-, -, hb, -, hrun⟩ | ⟨-, hr, hb, hrun⟩ | ⟨-, -, hrun⟩ :=
    expectAny_cases {kind} s
  · have hkind : s.kind = kind := by simpa using hmem
    have hu : u = s.bump := (congrArg Prod.snd (h.symm.trans hrun))
    have hremaining := TokenStream.remaining_next s.stream
    have hp := hpos (by rwa [hkind])
    refine .inl ⟨as, hread ?_, has⟩
    rw [hu]
    change s.stream.next.remaining < _
    omega
  · have hne : s.kind ≠ .endOfInput := by
      intro hend
      simp [State.atBoundary, hend] at hb
    have hu : u.stream = s.stream.next.next := by
      have hu := congrArg (·.2.stream) (h.symm.trans hrun)
      simpa [State.bump, State.skip, State.blame, State.note] using hu
    have hremaining := TokenStream.remaining_next s.stream
    have hremaining' := TokenStream.remaining_next s.stream.next
    have hp := hpos hne
    refine .inl ⟨as, hread ?_, has⟩
    rw [hu]
    omega
  · have hu : u.stream = s.stream := by
      have hu := congrArg (·.2.stream) (h.symm.trans hrun)
      simpa [State.blame, State.note] using hu
    have has' : s.Lays [] [] u := by
      refine ⟨?_, has.regions⟩
      rw [hu]
      exact .refl _
    exact .inr ⟨has', hr, hb⟩
  · have hnone := congrArg Prod.fst (h.symm.trans hrun)
    simp at hnone

/-- A rule for queries that lays down nested regions; at the end of a stage the regions begin behind
a pipe. -/
def QueryLays (query : Rule Query) : Prop :=
  ∀ s : State, s.Regular → ∃ ps rs, s.Lays ps rs (query.run s).2 ∧ Laid ps rs ∧
    (s.config.recover = true → s.atBoundary = true → Behind ps rs)

/-- What ends a stage ends one of a query in brackets. -/
theorem atBoundary_deeper (h : s.atBoundary = true) (hu : u.stream = s.stream) :
    ({ u with scope := { u.scope with subqueries := u.scope.subqueries + 1 } } : State).atBoundary
      = true := by
  have hk : u.kind = s.kind := by rw [State.kind, hu, State.kind]
  rw [State.atBoundary_iff] at h ⊢
  change u.kind = .pipe ∨ u.kind = .endOfInput ∨ u.kind = .rightBracket ∧ 0 < u.scope.subqueries + 1
  rw [hk]
  rcases h with h | h | ⟨h, -⟩
  · exact .inl h
  · exact .inr (.inl h)
  · exact .inr (.inr ⟨h, Nat.succ_pos _⟩)

/-- Reading on without a further region. -/
theorem State.Lays.read (h : s.Lays ps rs t) (hs : s.Regular) (hl : Laid ps rs) (hb : Behind ps rs)
    (hsteps : t.Steps false u) : ∃ qs, s.Lays (ps ++ qs) rs u ∧ Laid (ps ++ qs) rs ∧
      Behind (ps ++ qs) rs := by
  obtain ⟨qs, hqs⟩ := hsteps.exists_lays
  have hread := h.trans hqs
  rw [List.append_nil] at hread
  exact ⟨qs, hread, hl.of_part (hread.ascending hs) (List.prefix_append ps qs).isInfix,
    hl.behind_append hb qs⟩

/-- A query in brackets is closed, and its region is laid down. -/
theorem exists_lays_close (h : s.Lays ps rs t) (hs : s.Regular) (hl : Laid ps rs)
    (hb : Behind ps rs) (q : Query) :
    ∃ ps rs, s.Lays ps rs ((expect .rightBracket >>= fun _ =>
      change (fun u => u.record .subquery (u.spanFrom s.position)) >>= fun _ =>
        (pure q : Rule Query)).run t).2 ∧ Laid ps rs := by
  have hclose : t.Steps false ((expect .rightBracket).run t).2 := Lawful.steps t
  obtain ⟨qs, hread, hl, hb⟩ := h.read hs hl hb hclose
  refine exists_lays_bind (fun u hu => ?_) fun token u hu => ?_ <;> rw [hu] at hread
  · exact ⟨_, _, hread, hl⟩
  · obtain ⟨rs', hrecord, hlaid, -⟩ := hread.record hs hl hb .subquery
    exact ⟨_, rs', hrecord, hlaid⟩

theorem exists_lays_subquery {query : Rule Query} (hq : QueryLays query) (hs : s.Regular) :
    ∃ ps rs, s.Lays ps rs ((subquery query).run s).2 ∧ Laid ps rs := by
  unfold subquery
  change ∃ ps rs, s.Lays ps rs ((expect .leftBracket >>= _).run s).2 ∧ _
  have hopen : s.Steps false ((expect .leftBracket).run s).2 := Lawful.steps s
  refine exists_lays_bind (fun u hu => ?_) fun token u hu => ?_ <;> rw [hu] at hopen
  · obtain ⟨as, has⟩ := hopen.exists_lays
    exact ⟨as, [], has, .nil as⟩
  let deeper (scope : Scope) : Scope := { scope with subqueries := scope.subqueries + 1 }
  have hur := hopen.regular hs
  obtain ⟨qs, rs, hquery, hlaid, hbehind⟩ :=
    hq { u with scope := deeper u.scope } ⟨hur.valid, hur.recovering, hur.halted⟩
  have hquery : u.Lays qs rs ((within deeper query).run u).2 := ⟨hquery.stream, hquery.regions⟩
  -- what was read for the bracket, if anything, stands in front of the query
  obtain ⟨as, has, hfront⟩ :
      ∃ as, s.Lays as [] u ∧ (Ascending (as ++ qs) → Behind (as ++ qs) rs) := by
    rcases run_expect_some (by decide) hs hu with ⟨as, hne, has⟩ | ⟨has, hrecover, hb⟩
    · exact ⟨as, has, hlaid.behind hne⟩
    · refine ⟨[], has, fun _ => hbehind ?_ (atBoundary_deeper hb has.stream.eq_of_nil)⟩
      change u.config.recover = true
      rw [hopen.config, hrecover]
  have hread : s.Lays (as ++ qs) rs ((within deeper query).run u).2 := has.trans hquery
  have hasc := hread.ascending hs
  have hlaid : Laid (as ++ qs) rs := hlaid.of_part hasc (List.suffix_append as qs).isInfix
  change ∃ ps rs, s.Lays ps rs ((within deeper query >>= _).run u).2 ∧ _
  refine exists_lays_bind (fun v hv => ?_) fun q v hv => ?_ <;> rw [hv] at hread
  · exact ⟨_, _, hread, hlaid⟩
  · exact exists_lays_close hread hs hlaid (hfront hasc) q

/-! ## Commands -/

/-- A value that takes the span of its tokens has that span. -/
theorem span_of_spanned {r : Rule (Span → α)} {span : α → Span} (hs : s.Regular)
    (hr : r.Ensures s.stream.tokens.length fun f => ∀ i, span (f i) = i) {a : α}
    (h : (spanned r).run s = (some a, t)) : span a = t.spanFrom s.position := by
  obtain ⟨f, hrun, rfl⟩ := run_spanned_eq_some.1 h
  exact hr s t f hs rfl hrun _

/-- A rule for commands lays down nested regions behind its first token, and its command has the
span of what was read. -/
structure CommandLays (r : Rule α) (span : α → Span) (s : State) : Prop where
  /-- The regions are nested, and begin behind the first token. -/
  lays : ∃ ps rs, s.Lays ps rs (r.run s).2 ∧ Laid ps rs ∧ Behind ps rs
  /-- The command has the span of what was read. -/
  span_eq : ∀ a t, r.run s = (some a, t) → span a = t.spanFrom s.position

/-- A rule that lays down no region. -/
theorem exists_lays_of_lawful (r : Rule α) [hl : Lawful false r] (s : State) :
    ∃ ps rs, s.Lays ps rs (r.run s).2 ∧ Laid ps rs ∧ Behind ps rs := by
  obtain ⟨ps, hps⟩ := (hl.steps s).exists_lays
  exact ⟨ps, [], hps, .nil ps, .nil ps⟩

section

variable (inner : Expressions) [∀ recording, inner.Lawful recording]

theorem commandLays_processingCommand (hs : s.Regular) :
    CommandLays (processingCommand inner) ProcessingCommand.span s where
  lays := exists_lays_of_lawful _ s
  span_eq := by
    intro a t hrun
    refine span_of_spanned hs ?_ hrun
    refine Ensures.next fun _ => Ensures.next fun kind => ?_
    split
    · next clause hclause =>
      have := lawful_processingClause inner true hclause
      exact Ensures.next fun keyword => Ensures.next fun clause => Ensures.pure fun _ => rfl
    · exact Ensures.giveUp

/-- The word `EXPLAIN` stands in front of a query in brackets. -/
theorem exists_lays_explain {query : Rule Query} (hq : QueryLays query) (hs : s.Regular)
    (hk : s.kind = .kwExplain) (f : Token → Query → α) :
    ∃ ps rs, s.Lays ps rs ((take >>= fun keyword => subquery query >>= fun q =>
      (pure (f keyword q) : Rule α)).run s).2 ∧ Laid ps rs ∧ Behind ps rs := by
  obtain ⟨x, -, hx⟩ := lays_bump (by simp [hk]) hs
  have hbump : s.bump.Regular := (State.Step.bump s : State.Step true s s.bump).regular hs
  obtain ⟨ps, rs, hsub, hlaid⟩ := exists_lays_subquery hq hbump
  have hread := hx.trans hsub
  have hasc := hread.ascending hs
  have hlaid' := hlaid.of_part hasc (List.suffix_append [x] ps).isInfix
  have hbehind := hlaid.behind (List.cons_ne_nil x []) hasc
  change ∃ ps rs, s.Lays ps rs ((subquery query >>= _).run s.bump).2 ∧ _
  refine exists_lays_bind (fun u hu => ?_) fun q u hu => ?_ <;> rw [hu] at hread
  · exact ⟨_, _, hread, hlaid', hbehind⟩
  · exact ⟨_, _, hread, hlaid', hbehind⟩

theorem commandLays_sourceCommand {query : Rule Query} [Lawful true query] (hq : QueryLays query)
    (hs : s.Regular) : CommandLays (sourceCommand inner query) SourceCommand.span s where
  lays := by
    unfold sourceCommand
    rw [run_spanned_snd]
    let noted := s.note (.sourceCommand s.current)
    have hnoted : s.Lays [] [] noted := ⟨.refl _, (List.append_nil _).symm⟩
    have hnr : noted.Regular := (State.Step.note s _ : State.Step true s noted).regular hs
    suffices h : ∃ ps rs, noted.Lays ps rs _ ∧ Laid ps rs ∧ Behind ps rs by
      obtain ⟨ps, rs, hlays, h⟩ := h
      exact ⟨ps, rs, hnoted.trans hlays, h⟩
    rw [run_bind, run_change]
    simp only [run_bind, run_ask]
    split
    · next hk => exact exists_lays_explain hq hnr hk _
    · exact exists_lays_of_lawful _ noted
    · exact exists_lays_of_lawful _ noted
    · rw [run_bind, run_ask]
      dsimp only
      split <;> exact exists_lays_of_lawful _ noted
    · exact exists_lays_of_lawful _ noted
  span_eq := by
    intro a t hrun
    refine span_of_spanned hs ?_ hrun
    refine Ensures.next fun _ => Ensures.next fun start => Ensures.next fun kind => ?_
    split
    · exact Ensures.next fun keyword => Ensures.next fun _ => Ensures.pure fun _ => rfl
    · exact Ensures.next fun keyword => Ensures.next fun _ => Ensures.pure fun _ => rfl
    · exact Ensures.next fun keyword => Ensures.next fun _ => Ensures.pure fun _ => rfl
    · refine Ensures.next fun next => ?_
      split
      · exact Ensures.next fun keyword => Ensures.next fun _ => Ensures.pure fun _ => rfl
      · exact Ensures.next fun _ => Ensures.giveUp
    · exact Ensures.giveUp

/-! ## Stages -/

/-- What is passed over up to the next boundary is in the region of an error. -/
theorem State.Lays.resync (h : s.Lays ps rs t) (hs : s.Regular) (hl : Laid ps rs)
    (hb : Behind ps rs) :
    ∃ ps rs, s.Lays ps rs (t.resync s.position).2 ∧ Laid ps rs ∧ Covered ps rs := by
  let passed := t.passOver t.stream.remaining
  have hpass : t.Steps false passed := steps_passOver _ t
  have hnote : t.Steps false (passed.note (.resynchronised passed.current
    (passed.spanFrom s.position))) := hpass.tail (.note _ _)
  obtain ⟨qs, hread, hl, hb⟩ := h.read hs hl hb hnote
  obtain ⟨rs', hrecord⟩ := hread.record hs hl hb .error
  exact ⟨_, rs', hrecord⟩

/-- A stage lays down nested regions that cover its tokens. -/
theorem exists_lays_stage {r : Rule α} [hl : Lawful true r] {span : α → Span} (kind : Kind)
    (error : Span → α) (hr : CommandLays r span s) (hs : s.Regular) :
    ∃ ps rs, s.Lays ps rs (stage r kind span error s).2 ∧ Laid ps rs ∧ Covered ps rs := by
  obtain ⟨ps, rs, hread, hlaid, hbehind⟩ := hr.lays
  have hsteps := hl.steps s
  obtain ⟨a, t, hrun, hstage⟩ | ⟨t, hrun, hstage⟩ := stage_cases r kind span error s
  · rw [hrun] at hread hsteps
    rw [hstage]
    obtain ⟨rs', hrecord⟩ := hread.record hs hlaid hbehind kind
    rw [← hr.span_eq a t hrun] at hrecord
    exact ⟨ps, rs', hrecord⟩
  · rw [hrun] at hread hsteps
    rw [hstage]
    exact hread.resync hs hlaid hbehind

/-- What is passed over behind a command is an error. -/
theorem exists_lays_skipExtraneous (hs : s.Regular) :
    ∃ ps rs, s.Lays ps rs s.skipExtraneous ∧ Laid ps rs ∧ Covered ps rs := by
  have hsteps : s.Steps false (s.blame (.extraneous s.boundaryKinds)) := .single (.report s _)
  obtain ⟨ps, hread⟩ := hsteps.exists_lays
  have hblame : s.Lays [] [] (s.blame (.extraneous s.boundaryKinds)) := by
    refine ⟨?_, hread.regions⟩
    rw [State.blame, stream_report]
    exact .refl _
  exact hblame.resync hs (.nil []) (.nil [])

/-- A run that goes on after mistakes is not ended by a report. -/
theorem halted_report (hs : s.Regular) (hr : s.config.recover = true) (d : Diagnostic) :
    (s.report d).halted = false := by
  have hh : s.halted = false := by
    cases hh : s.halted with
    | false => rfl
    | true =>
      have hf := (hs.halted hh).1
      rw [hr] at hf
      simp at hf
  unfold State.report
  split
  · exact hh
  · simp [hh, hr]

theorem passOver_boundary (hb : s.atBoundary = true) (hh : s.halted = false) (n : Nat) :
    s.passOver n = s := by
  cases n with
  | zero => rfl
  | succ n => simp [State.passOver, hb, hh]

omit [∀ recording, inner.Lawful recording] in
/-- At the end of a stage no source command is read, and nothing is passed over. -/
theorem stream_sourceStage (query : Rule Query) (hs : s.Regular) (hr : s.config.recover = true)
    (hb : s.atBoundary = true) : (sourceStage inner query s).2.stream = s.stream := by
  let noted := s.note (.sourceCommand s.current)
  obtain ⟨cause, hrun⟩ :
      ∃ cause, (sourceCommand inner query).run s = (none, noted.blame cause) := by
    have hk : noted.kind = .pipe ∨ noted.kind = .endOfInput ∨ noted.kind = .rightBracket := by
      rcases State.atBoundary_iff.1 hb with h | h | ⟨h, -⟩
      · exact .inl h
      · exact .inr (.inl h)
      · exact .inr (.inr h)
    refine ⟨.noViableAlternative (s.stream.textBetween s.position s.position) sourceKeywords, ?_⟩
    unfold sourceCommand spanned
    simp only [run_bind, run_ask, run_change]
    rcases hk with hk | hk | hk <;> rw [hk] <;> rfl
  have hnr : noted.Regular := (State.Step.note s _ : State.Step true s noted).regular hs
  have hh : (noted.blame cause).halted = false := halted_report hnr hr _
  have hstream : (noted.blame cause).stream = s.stream := stream_report noted _
  have hscope : (noted.blame cause).scope = s.scope := scope_report noted _
  have hb' : (noted.blame cause).atBoundary = true := by
    rw [State.atBoundary_iff, State.kind, hstream, hscope]
    exact State.atBoundary_iff.1 hb
  rw [sourceStage, stage, hrun]
  change ((noted.blame cause).passOver _).stream = _
  rw [passOver_boundary hb' hh, hstream]

/-! ## Queries -/

/-- Away from the end of a stage a token is passed over. -/
theorem remaining_skipExtraneous (hs : s.Regular) (hb : s.atBoundary = false) :
    s.skipExtraneous.stream.remaining < s.stream.remaining := by
  let blamed := s.blame (.extraneous s.boundaryKinds)
  have hstream : blamed.stream = s.stream := stream_report s _
  have hscope : blamed.scope = s.scope := scope_report s _
  have hrest : s.stream.rest ≠ [] := by
    intro hr
    have hk : s.kind = .endOfInput := hs.valid.kind_eq_endOfInput_iff.2 hr
    rw [State.atBoundary_iff.2 (.inr (.inl hk))] at hb
    simp at hb
  have hboundary : blamed.atBoundary = false := by
    rw [Bool.eq_false_iff, ne_eq, State.atBoundary_iff, State.kind, hstream, hscope]
    rw [Bool.eq_false_iff, ne_eq, State.atBoundary_iff, State.kind] at hb
    exact hb
  have hend : blamed.stream.atEnd = false := by
    rw [hstream, TokenStream.atEnd]
    simpa using hrest
  obtain ⟨n, hn⟩ : ∃ n, blamed.stream.remaining = n + 1 := by
    rw [hstream]
    exact Nat.exists_eq_succ_of_ne_zero fun h => hrest (List.length_eq_zero_iff.1 h)
  have hpass : blamed.passOver blamed.stream.remaining = blamed.skip.passOver n := by
    rw [hn, State.passOver, if_neg (by simp [hend, hboundary])]
  obtain ⟨ps, hps⟩ := (steps_passOver n blamed.skip : Steps false _ _).reads
  have hremaining := hps.remaining
  have hnext := TokenStream.remaining_next blamed.stream
  change (blamed.passOver blamed.stream.remaining).stream.remaining < _
  have hskip : blamed.skip.stream.remaining = blamed.stream.next.remaining := rfl
  rw [hpass, ← hstream]
  omega

/-- Behind the stages there is the end of the query. -/
theorem atBoundary_stagesUpTo (n : Nat) (stages : List (Token × ProcessingCommand))
    (hs : s.Regular) (hn : s.stream.remaining ≤ n) :
    (stagesUpTo inner n stages s).2.kind ≠ .pipe ∧
      (stagesUpTo inner n stages s).2.atBoundary = true := by
  induction n generalizing stages s with
  | zero =>
    have hr : s.stream.rest = [] := List.length_eq_zero_iff.1 (Nat.le_zero.1 hn)
    have hk : s.kind = .endOfInput := hs.valid.kind_eq_endOfInput_iff.2 hr
    rw [stagesUpTo]
    exact ⟨by simp [hk], State.atBoundary_iff.2 (.inr (.inl hk))⟩
  | succ n ih =>
    by_cases hk : s.kind = .pipe
    · rw [stagesUpTo_pipe hk]
      have hbump : s.Steps true s.bump := .single (.bump s)
      have hstage := steps_processingStage inner s.bump
      obtain ⟨x, -, hx⟩ := lays_bump (by simp [hk]) hs
      obtain ⟨qs, hqs⟩ := hstage.reads
      have hremaining := (hx.stream.trans hqs).remaining
      rw [List.length_append, List.length_singleton] at hremaining
      exact ih _ (hstage.regular (hbump.regular hs)) (by omega)
    · cases hb : s.atBoundary with
      | true =>
        rw [stagesUpTo_boundary hk hb]
        exact ⟨hk, hb⟩
      | false =>
        rw [stagesUpTo_extraneous hk hb]
        have hlt := remaining_skipExtraneous hs hb
        exact ih _ ((steps_skipExtraneous s).regular hs) (by omega)

/-- The stages of a query lay down nested regions that cover its tokens; the first stage is behind a
pipe. -/
theorem exists_lays_stagesUpTo (n : Nat) (stages : List (Token × ProcessingCommand))
    (hs : s.Regular) :
    ∃ ps rs, s.Lays ps rs (stagesUpTo inner n stages s).2 ∧ Laid ps rs ∧ Covered ps rs ∧
      (s.atBoundary = true → Behind ps rs) := by
  induction n generalizing stages s with
  | zero => exact ⟨[], [], .refl s, .nil [], by simp [Covered], fun _ => .nil []⟩
  | succ n ih =>
    by_cases hk : s.kind = .pipe
    · rw [stagesUpTo_pipe hk]
      obtain ⟨x, hxk, hx⟩ := lays_bump (by simp [hk]) hs
      have hbump : s.bump.Regular := (State.Step.bump s : State.Step true s s.bump).regular hs
      have hstage := steps_processingStage inner s.bump
      obtain ⟨qs, rs, hread, hlaid, hcover⟩ := exists_lays_stage .processingCommand
        ProcessingCommand.error (commandLays_processingCommand inner hbump) hbump
      obtain ⟨qs', rs', hread', hlaid', hcover', -⟩ :=
        ih ((s.current, (processingStage inner s.bump).1) :: stages) (hstage.regular hbump)
      have hboth := hread.trans hread'
      have hall := hx.trans hboth
      have hasc := hall.ascending hs
      have hlaid := hlaid.append hlaid' (hboth.ascending hbump)
      have hcoverx : Covered [x] [] := by
        intro y hy
        rw [List.mem_singleton.1 hy]
        exact .inl (hxk.trans hk)
      refine ⟨_, _, hall, ?_, hcoverx.append (hcover.append hcover'), fun _ => ?_⟩
      · exact hlaid.of_part hasc (List.suffix_append [x] (qs ++ qs')).isInfix
      · exact hlaid.behind (List.cons_ne_nil x []) hasc
    · cases hb : s.atBoundary with
      | true =>
        rw [stagesUpTo_boundary hk hb]
        exact ⟨[], [], .refl s, .nil [], by simp [Covered], fun _ => .nil []⟩
      | false =>
        rw [stagesUpTo_extraneous hk hb]
        obtain ⟨ps, rs, hread, hlaid, hcover⟩ := exists_lays_skipExtraneous hs
        have hskip := (steps_skipExtraneous s).regular hs
        obtain ⟨ps', rs', hread', hlaid', hcover', -⟩ := ih stages hskip
        have hall := hread.trans hread'
        have hlaid := hlaid.append hlaid' (hall.ascending hs)
        exact ⟨_, _, hall, hlaid, hcover.append hcover', fun h => absurd h (by simp)⟩

/-- A pipeline lays down nested regions that cover its tokens, and ends where its query does. -/
theorem exists_lays_pipeline {query : Rule Query} [Lawful true query] (hq : QueryLays query)
    (hs : s.Regular) :
    (∃ ps rs, s.Lays ps rs (pipeline inner query s).2 ∧ Laid ps rs ∧ Covered ps rs ∧
      (s.config.recover = true → s.atBoundary = true → Behind ps rs)) ∧
    (pipeline inner query s).2.kind ≠ .pipe ∧ (pipeline inner query s).2.atBoundary = true := by
  let first := (sourceStage inner query s).2
  have hfirst : s.Steps true first := steps_sourceStage inner query s
  have hfr := hfirst.regular hs
  obtain ⟨ps, rs, hread, hlaid, hcover⟩ := exists_lays_stage .sourceCommand SourceCommand.error
    (commandLays_sourceCommand inner hq hs) hs
  obtain ⟨ps', rs', hread', hlaid', hcover', hbehind⟩ :=
    exists_lays_stagesUpTo inner first.stream.remaining [] hfr
  have hread : s.Lays ps rs first := hread
  have hall := hread.trans hread'
  refine ⟨⟨_, _, hall, hlaid.append hlaid' (hall.ascending hs), hcover.append hcover', ?_⟩,
    atBoundary_stagesUpTo inner _ [] hfr (Nat.le_refl _)⟩
  intro hr hb
  -- the first stage has read nothing, so that its regions have no tokens
  have hstream : first.stream = s.stream := stream_sourceStage inner query hs hr hb
  obtain rfl : ps = [] := by
    have hreads := hread.stream
    rw [hstream] at hreads
    exact hreads.unique (.refl _)
  have hb' : first.atBoundary = true := by
    rw [State.atBoundary_iff, State.kind, hstream, hfirst.scope]
    exact State.atBoundary_iff.1 hb
  intro r hr ht
  rcases List.mem_append.1 hr with hr | hr
  · exact absurd rfl (hlaid.inside r hr ht).1
  · exact hbehind hb' r hr ht

end

theorem exists_lays_query (levels : Nat) (hs : s.Regular) :
    (∃ ps rs, s.Lays ps rs (query levels s).2 ∧ Laid ps rs ∧ Covered ps rs ∧
      (s.config.recover = true → s.atBoundary = true → Behind ps rs)) ∧
    (query levels s).2.kind ≠ .pipe ∧ (query levels s).2.atBoundary = true := by
  induction levels generalizing s with
  | zero =>
    refine exists_lays_pipeline (expressions 0) (fun s _ => ?_) hs
    obtain ⟨ps, rs, hread, hlaid, hbehind⟩ := exists_lays_of_lawful (tooDeep : Rule Query) s
    exact ⟨ps, rs, hread, hlaid, fun _ _ => hbehind⟩
  | succ levels ih =>
    rw [query_succ]
    refine exists_lays_pipeline (expressions (levels + 1)) (fun s hs => ?_) hs
    obtain ⟨⟨ps, rs, hread, hlaid, -, hbehind⟩, -⟩ := ih hs
    exact ⟨ps, rs, hread, hlaid, hbehind⟩

/-- A query that is not in brackets ends with the input. -/
theorem rest_query_start (levels : Nat) (config : Config) (tokens : List Token) :
    (query levels (.start config tokens)).2.stream.rest = [] := by
  have hs := State.regular_start config tokens
  obtain ⟨-, hk, hb⟩ := exists_lays_query levels hs
  have hsteps := steps_query levels (.start config tokens)
  exact (hsteps.regular hs).rest_eq_nil hsteps.scope hb hk

/-- The statement ends with the token that ends the input, whatever is reported. -/
theorem endToken_statement (levels : Nat) (config : Config) (tokens : List Token) :
    (statement levels (.start config tokens)).1.endToken = (TokenStream.ofTokens tokens).endToken := by
  obtain ⟨ps, hread⟩ := (steps_query levels (.start config tokens)).reads
  change (query levels (.start config tokens)).2.stream.current = _
  rw [TokenStream.current, rest_query_start]
  exact hread.endToken

/-- The regions of a statement are nested, and cover all that the grammar sees but for pipes. -/
theorem laid_statement (tokens : List Token) (config : Config) :
    Laid (TokenStream.significant tokens)
        (statement config.maxDepth (.start config tokens)).2.regions.toList ∧
      Covered (TokenStream.significant tokens)
        (statement config.maxDepth (.start config tokens)).2.regions.toList := by
  obtain ⟨⟨ps, rs, hread, hlaid, hcover, -⟩, -⟩ :=
    exists_lays_query config.maxDepth (State.regular_start config tokens)
  have hrest := rest_query_start config.maxDepth config tokens
  have hps : TokenStream.significant tokens = ps := by
    have hr : TokenStream.significant tokens = ps ++ _ := hread.stream.rest
    rwa [hrest, List.append_nil] at hr
  have hrs : (statement config.maxDepth (.start config tokens)).2.regions.toList = rs :=
    hread.regions
  rw [hps, hrs]
  exact ⟨hlaid, hcover⟩

end Grammar

end PipeQuery