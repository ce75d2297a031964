import PipeQuery.Proofs.Lawful

/-!
# Runs without a diagnostic

`r.Accepts s ps a t` says that the rule `r` reads the stretch `ps` as the value `a`, from the state
`s` to the state `t`, and that nothing was reported up to then. A run of a lawful rule behind which
nothing is reported is of this form (`Rule.exists_accepts`).

What the combinators accept is said in terms of what their parts accept: a sequence of rules accepts
two stretches in a row (`accepts_bind`), a list accepts its elements with separators between them
(`accepts_separated`).
-/

namespace PipeQuery.Grammar

namespace State

/-- A state in front of which nothing was reported. -/
structure Clear (s : State) : Prop extends s.Regular where
  /-- There is no diagnostic. -/
  diagnostics : s.diagnostics = #[]

/-- Reading the stretch `ps` leads from one state to another, and nothing is reported. -/
structure Reads (s : State) (ps : List Placed) (t : State) : Prop where
  /-- Nothing was reported in front of the stretch. -/
  clear : s.Clear
  /-- Nothing is reported behind it. -/
  clear' : t.Clear
  /-- The text is read in the same way. -/
  config : t.config = s.config
  /-- The rules stand in the same place. -/
  scope : t.scope = s.scope
  /-- The stretch is read off the stream. -/
  stream : s.stream.Reads ps t.stream

variable {s t u : State} {ps qs : List Placed}

theorem clear_start (config : Config) (tokens : List Token) : (start config tokens).Clear :=
  ⟨regular_start config tokens, rfl⟩

namespace Clear

theorem not_recovering (h : s.Clear) : s.recovering = false := by
  cases hr : s.recovering with
  | false => rfl
  | true => exact absurd h.diagnostics (h.toRegular.recovering hr)

theorem not_halted (h : s.Clear) : s.halted = false := by
  cases hh : s.halted with
  | false => rfl
  | true => exact absurd h.diagnostics (h.toRegular.halted hh).2

theorem report (h : s.Clear) (d : Diagnostic) :
    s.report d
      = { s with diagnostics := #[d], recovering := true, halted := !s.config.recover } := by
  rw [State.report, h.not_recovering, if_neg Bool.false_ne_true, h.diagnostics, h.not_halted]
  rfl

theorem first_report (h : s.Clear) (d : Diagnostic) :
    (s.report d).diagnostics[0]? = some d := by
  rw [h.report]
  rfl

theorem kind_eq (h : s.Clear) : s.kind = frontKind s.stream.rest := h.valid.kind_eq

theorem kindAfter_eq (h : s.Clear) : s.kindAfter = frontKind s.stream.rest.tail :=
  h.valid.kind_lookahead_one

theorem inScope (h : s.Clear) (scope : Scope) : { s with scope := scope }.Clear :=
  ⟨⟨h.valid, h.toRegular.recovering, h.toRegular.halted⟩, h.diagnostics⟩

theorem reads_refl (h : s.Clear) : s.Reads [] s := ⟨h, h, rfl, rfl, .refl _⟩

theorem reads_note (h : s.Clear) (e : Event) : s.Reads [] (s.note e) :=
  ⟨h, ⟨⟨h.valid, h.toRegular.recovering, h.toRegular.halted⟩, h.diagnostics⟩, rfl, rfl, .refl _⟩

theorem reads_record (h : s.Clear) (kind : Kind) (span : Span) :
    s.Reads [] (s.record kind span) :=
  ⟨h, ⟨⟨h.valid, h.toRegular.recovering, h.toRegular.halted⟩, h.diagnostics⟩, rfl, rfl, .refl _⟩

theorem reads_bump (h : s.Clear) : s.Reads (s.stream.rest.take 1) s.bump :=
  ⟨h, ⟨⟨h.valid.reads s.stream.reads_next, by simp [bump], h.toRegular.halted⟩, h.diagnostics⟩,
    rfl, rfl, s.stream.reads_next⟩

theorem reads_skip (h : s.Clear) : s.Reads (s.stream.rest.take 1) s.skip :=
  ⟨h, ⟨⟨h.valid.reads s.stream.reads_next, h.toRegular.recovering, h.toRegular.halted⟩,
    h.diagnostics⟩, rfl, rfl, s.stream.reads_next⟩

/-- Away from the end of the input a token stands in front. -/
theorem exists_rest (h : s.Clear) (hk : s.kind ≠ .endOfInput) :
    ∃ x rest, s.stream.rest = x :: rest ∧ s.current = x.1 ∧ s.kind = x.1.kind := by
  rw [h.kind_eq]
  cases hr : s.stream.rest with
  | nil => exact absurd (h.valid.kind_eq_endOfInput_iff.2 hr) hk
  | cons x rest =>
    refine ⟨x, rest, rfl, ?_, rfl⟩
    simp [current, TokenStream.current, hr]

end Clear

/-- The span of a stretch that was read. -/
theorem spanFrom_of_reads (hs : s.Regular) (h : s.stream.Reads ps t.stream) (hps : ps ≠ []) :
    t.spanFrom s.position = Span.around ps := by
  have hasc := hs.valid.ascending_rest
  rw [h.rest] at hasc
  have hlt := hasc.left.start_lt_stop hps
  have hpos : s.position = (Span.around ps).start := TokenStream.Valid.position_eq h hps
  rw [State.spanFrom, h.previous_of_ne_nil hps, hpos]
  change Span.mk (Span.around ps).start (max ((ps.getLast hps).2 + 1) _) = _
  rw [← Span.stop_around hps, Nat.max_eq_left (Nat.le_of_lt hlt)]

namespace Reads

theorem trans (h : s.Reads ps t) (k : t.Reads qs u) : s.Reads (ps ++ qs) u :=
  ⟨h.clear, k.clear', k.config.trans h.config, k.scope.trans h.scope, h.stream.trans k.stream⟩

theorem rest (h : s.Reads ps t) : s.stream.rest = ps ++ t.stream.rest := h.stream.rest

/-- Behind one token stands what was seen there in front of it. -/
theorem kind_eq_kindAfter {x : Placed} (h : s.Reads [x] t) : t.kind = s.kindAfter := by
  rw [h.clear'.kind_eq, h.clear.kindAfter_eq, h.rest]
  rfl

theorem ascending (h : s.Reads ps t) : Ascending ps := by
  have hr := h.clear.valid.ascending_rest
  rw [h.rest] at hr
  exact hr.left

theorem spanFrom (h : s.Reads ps t) (hps : ps ≠ []) :
    t.spanFrom s.position = Span.around ps :=
  spanFrom_of_reads h.clear.toRegular h.stream hps

end Reads

/-- Reading something leads from one state to another, and nothing is reported. -/
def Leads (s t : State) : Prop := ∃ ps, s.Reads ps t

theorem Reads.leads (h : s.Reads ps t) : s.Leads t := ⟨ps, h⟩

theorem Leads.trans (h : s.Leads t) (k : t.Leads u) : s.Leads u := by
  obtain ⟨ps, hps⟩ := h
  obtain ⟨qs, hqs⟩ := k
  exact ⟨ps ++ qs, hps.trans hqs⟩

theorem Leads.scope (h : s.Leads t) : t.scope = s.scope := by
  obtain ⟨ps, hps⟩ := h
  exact hps.scope

/-- Steps behind which nothing is reported read a stretch. -/
theorem Steps.exists_reads {recording : Bool} (h : Steps recording s t) (hs : s.Regular)
    (ht : t.diagnostics = #[]) : ∃ ps, s.Reads ps t := by
  obtain ⟨ps, hps⟩ := h.reads
  exact ⟨ps, ⟨hs, h.diagnostics ht⟩, ⟨h.regular hs, ht⟩, h.config, h.scope, hps⟩

end State

/-- A rule reads a stretch as a value, and nothing is reported. -/
structure Rule.Accepts {α : Type} (r : Rule α) (s : State) (ps : List Placed) (a : α)
    (t : State) : Prop where
  /-- The rule answers the value. -/
  run : r.run s = (some a, t)
  /-- The rule reads the stretch. -/
  reads : s.Reads ps t

namespace Rule

open State

variable {α β : Type} {s t : State} {ps : List Placed}

/-- A run of a lawful rule behind which nothing is reported answers a value. -/
theorem exists_accepts (r : Rule α) [hr : Lawful true r] (hs : s.Regular)
    (ht : (r.run s).2.diagnostics = #[]) : ∃ a ps, r.Accepts s ps a (r.run s).2 := by
  obtain ⟨ps, hps⟩ := (hr.steps s).exists_reads hs ht
  have hb := hr.blames s hs
  cases hrun : r.run s with
  | mk a t =>
    rw [hrun] at hb ht hps
    cases a with
    | none => exact absurd ht (hb rfl)
    | some a => exact ⟨a, ps, hrun, hps⟩

/-- A rule has one run from a state. -/
theorem Accepts.unique {r : Rule α} {qs : List Placed} {a b : α} {u : State}
    (h : r.Accepts s ps a t) (k : r.Accepts s qs b u) : ps = qs ∧ a = b ∧ t = u := by
  have hrun := h.run.symm.trans k.run
  simp only [Prod.mk.injEq, Option.some.injEq] at hrun
  obtain ⟨rfl, rfl⟩ := hrun
  exact ⟨h.reads.stream.unique k.reads.stream, rfl, rfl⟩

theorem accepts_pure {a b : α} :
    (pure a : Rule α).Accepts s ps b t ↔ s.Clear ∧ ps = [] ∧ b = a ∧ t = s := by
  constructor
  · intro h
    have hrun := h.run
    simp only [run_pure, Prod.mk.injEq, Option.some.injEq] at hrun
    obtain ⟨rfl, rfl⟩ := hrun
    exact ⟨h.reads.clear, h.reads.stream.unique (.refl _), rfl, rfl⟩
  · rintro ⟨h, rfl, rfl, rfl⟩
    exact ⟨rfl, h.reads_refl⟩

theorem accepts_ask {f : State → α} {b : α} :
    (ask f).Accepts s ps b t ↔ s.Clear ∧ ps = [] ∧ b = f s ∧ t = s := by
  constructor
  · intro h
    have hrun := h.run
    simp only [run_ask, Prod.mk.injEq, Option.some.injEq] at hrun
    obtain ⟨rfl, rfl⟩ := hrun
    exact ⟨h.reads.clear, h.reads.stream.unique (.refl _), rfl, rfl⟩
  · rintro ⟨h, rfl, rfl, rfl⟩
    exact ⟨rfl, h.reads_refl⟩

theorem Accepts.bind {r : Rule α} {f : α → Rule β} {u : State} {qs : List Placed} {a : α} {b : β}
    (h : r.Accepts s ps a u) (k : (f a).Accepts u qs b t) :
    (r >>= f).Accepts s (ps ++ qs) b t := by
  refine ⟨?_, h.reads.trans k.reads⟩
  rw [run_bind, h.run]
  exact k.run

/-- A sequence of rules accepts two stretches in a row. -/
theorem accepts_bind {r : Rule α} {f : α → Rule β} [Lawful true r]
    [hf : ∀ a, Lawful true (f a)] {b : β} :
    (r >>= f).Accepts s ps b t ↔
      ∃ a u qs rs, ps = qs ++ rs ∧ r.Accepts s qs a u ∧ (f a).Accepts u rs b t := by
  constructor
  · intro h
    have hs := h.reads.clear.toRegular
    obtain ⟨a, u, hr, hut⟩ := run_bind_eq_some.1 h.run
    have hu : u.Regular := by simpa [hr] using Lawful.regular true r hs
    obtain ⟨b', rs, hf'⟩ := exists_accepts (f a) hu (by rw [hut]; exact h.reads.clear'.diagnostics)
    rw [hut] at hf'
    obtain ⟨a', qs, hr'⟩ := exists_accepts r hs (by rw [hr]; exact hf'.reads.clear.diagnostics)
    rw [hr] at hr'
    obtain rfl : a = a' := by simpa [hr] using hr'.run
    obtain rfl : b = b' := by simpa [hut] using hf'.run
    exact ⟨a, u, qs, rs, h.reads.stream.unique (hr'.reads.trans hf'.reads).stream, hr', hf'⟩
  · rintro ⟨a, u, qs, rs, rfl, h, k⟩
    exact h.bind k

/-- The two stretches of a sequence whose second rule is shown to be lawful by hand. -/
theorem Accepts.of_bind {r : Rule α} {f : α → Rule β} [Lawful true r] {b : β}
    (h : (r >>= f).Accepts s ps b t) (hf : ∀ a, Lawful true (f a)) :
    ∃ a u qs rs, ps = qs ++ rs ∧ r.Accepts s qs a u ∧ (f a).Accepts u rs b t := accepts_bind.1 h

/-- Asking reads nothing, so that what comes next starts from the same state. -/
theorem accepts_ask_bind {f : State → α} {g : α → Rule β} {b : β} :
    (ask f >>= g).Accepts s ps b t ↔ (g (f s)).Accepts s ps b t :=
  ⟨fun h => ⟨h.run, h.reads⟩, fun h => ⟨h.run, h.reads⟩⟩

theorem accepts_pure_bind {a : α} {g : α → Rule β} {b : β} :
    (pure a >>= g).Accepts s ps b t ↔ (g a).Accepts s ps b t :=
  ⟨fun h => ⟨h.run, h.reads⟩, fun h => ⟨h.run, h.reads⟩⟩

theorem not_accepts_giveUp {f : State → State} {b : α} :
    ¬ (giveUp f : Rule α).Accepts s ps b t := fun h => by
  simpa using h.run

/-- A rule whose value is put into another one. -/
theorem accepts_bind_pure {r : Rule α} {g : α → β} {b : β} :
    (r >>= fun a => pure (g a)).Accepts s ps b t ↔ ∃ a, r.Accepts s ps a t ∧ b = g a := by
  constructor
  · intro h
    obtain ⟨a, hr, hb⟩ := run_bind_pure_eq_some.1 h.run
    exact ⟨a, ⟨hr, h.reads⟩, hb⟩
  · rintro ⟨a, h, hb⟩
    exact ⟨run_bind_pure_eq_some.2 ⟨a, h.run, hb⟩, h.reads⟩

theorem accepts_map {r : Rule α} {g : α → β} {b : β} :
    (g <$> r).Accepts s ps b t ↔ ∃ a, r.Accepts s ps a t ∧ b = g a := accepts_bind_pure

theorem accepts_change {f : State → State} {u : Unit} :
    (change f).Accepts s ps u t ↔ t = f s ∧ s.Reads ps t := by
  constructor
  · intro h
    have hrun := h.run
    simp only [run_change, Prod.mk.injEq, true_and] at hrun
    exact ⟨hrun.symm, h.reads⟩
  · rintro ⟨rfl, h⟩
    exact ⟨rfl, h⟩

/-- A change reads the tokens that it is known to read. -/
theorem Accepts.of_change {f : State → State} {u : Unit} (h : (change f).Accepts s ps u t)
    (hf : s.Clear → s.Reads qs (f s)) : ps = qs ∧ t = f s ∧ s.Reads qs t := by
  obtain ⟨rfl, hreads⟩ := accepts_change.1 h
  obtain rfl := hreads.stream.unique (hf hreads.clear).stream
  exact ⟨rfl, rfl, hreads⟩

theorem run_within {scope : Scope → Scope} {r : Rule α} :
    (within scope r).run s
      = ((r.run { s with scope := scope s.scope }).1,
          { (r.run { s with scope := scope s.scope }).2 with scope := s.scope }) := rfl

theorem run_spanned_snd (r : Rule (Span → α)) (s : State) :
    ((spanned r).run s).2 = (r.run s).2 := by
  change ((r >>= fun f => ask fun u => f (u.spanFrom s.position)).run s).2 = _
  rw [run_bind]
  cases r.run s with
  | mk f t => cases f <;> rfl

/-- A rule in another scope accepts what it accepts there. -/
theorem accepts_within {scope : Scope → Scope} {r : Rule α} [hr : Lawful true r] {a : α} :
    (within scope r).Accepts s ps a t ↔
      ∃ u, r.Accepts { s with scope := scope s.scope } ps a u ∧ t = { u with scope := s.scope } := by
  constructor
  · intro h
    have hrun := h.run
    rw [run_within, Prod.mk.injEq] at hrun
    obtain ⟨ha, ht⟩ := hrun
    have hs := (h.reads.clear.inScope (scope s.scope)).toRegular
    have hd : (r.run { s with scope := scope s.scope }).2.diagnostics = #[] := by
      have := h.reads.clear'.diagnostics
      rwa [← ht] at this
    obtain ⟨b, qs, hb⟩ := exists_accepts r hs hd
    have hstream : s.stream.Reads qs t.stream := by
      rw [← ht]
      exact hb.reads.stream
    obtain rfl := h.reads.stream.unique hstream
    obtain rfl : a = b := Option.some.inj (ha.symm.trans (by rw [hb.run]))
    exact ⟨_, hb, ht.symm⟩
  · rintro ⟨u, h, rfl⟩
    refine ⟨by rw [run_within, h.run], ?_⟩
    have hreads := h.reads
    exact ⟨hreads.clear.inScope s.scope, hreads.clear'.inScope s.scope, hreads.config, rfl,
      hreads.stream⟩

theorem Accepts.clear {r : Rule α} {a : α} (h : r.Accepts s ps a t) : s.Clear := h.reads.clear

theorem Accepts.clear' {r : Rule α} {a : α} (h : r.Accepts s ps a t) : t.Clear := h.reads.clear'

theorem Accepts.scope {r : Rule α} {a : α} (h : r.Accepts s ps a t) : t.scope = s.scope :=
  h.reads.scope

/-- Behind a stretch there is what comes after it. -/
theorem Accepts.rest_eq {r : Rule α} {a : α} {rest : List Placed} (h : r.Accepts s ps a t)
    (hs : s.stream.rest = ps ++ rest) : t.stream.rest = rest :=
  List.append_cancel_left (h.reads.rest.symm.trans hs)

/-- A rule whose value depends on the state behind it. -/
theorem accepts_bind_ask {r : Rule α} {g : α → State → β} {b : β} :
    (r >>= fun a => ask (g a)).Accepts s ps b t ↔ ∃ a, r.Accepts s ps a t ∧ b = g a t := by
  constructor
  · intro h
    obtain ⟨a, hr, hb⟩ := run_bind_ask_eq_some.1 h.run
    exact ⟨a, ⟨hr, h.reads⟩, hb⟩
  · rintro ⟨a, h, hb⟩
    exact ⟨run_bind_ask_eq_some.2 ⟨a, h.run, hb⟩, h.reads⟩

end Rule

open Rule State

variable {α : Type} {s t : State} {ps : List Placed}

/-- A rule whose value takes the span of its tokens. -/
theorem accepts_spanned {r : Rule (Span → α)} {a : α} :
    (spanned r).Accepts s ps a t ↔
      ∃ f, r.Accepts s ps f t ∧ a = f (t.spanFrom s.position) := by
  unfold spanned
  rw [accepts_ask_bind, accepts_bind_ask]

theorem Rule.Accepts.spanned {r : Rule (Span → α)} {f : Span → α} (h : r.Accepts s ps f t) :
    (spanned r).Accepts s ps (f (t.spanFrom s.position)) t := accepts_spanned.2 ⟨f, h, rfl⟩

/-! ## Tokens -/

/-- Matching the token in front. -/
theorem accepts_take {x : Placed} {rest : List Placed} (hs : s.Clear)
    (hr : s.stream.rest = x :: rest) : take.Accepts s [x] x.1 s.bump := by
  have hreads := hs.reads_bump
  rw [hr] at hreads
  refine ⟨?_, hreads⟩
  simp [State.current, TokenStream.current, hr]

theorem Rule.Accepts.of_take {a : Token} (h : take.Accepts s ps a t) (hk : s.kind ≠ .endOfInput) :
    ∃ x, ps = [x] ∧ a = x.1 ∧ x.1.kind = s.kind ∧ t = s.bump := by
  obtain ⟨x, rest, hr, hc, hkx⟩ := h.clear.exists_rest hk
  obtain ⟨rfl, rfl, rfl⟩ := h.unique (accepts_take h.clear hr)
  exact ⟨x, rfl, rfl, hkx.symm, rfl⟩

/-- Matching an expected token in front. -/
theorem accepts_expectAny {expected : KindSet} {x : Placed} {rest : List Placed} (hs : s.Clear)
    (hr : s.stream.rest = x :: rest) (hx : x.1.kind ∈ expected) :
    (expectAny expected).Accepts s [x] x.1 s.bump := by
  have hk : s.kind = x.1.kind := by rw [hs.kind_eq, hr, frontKind_cons]
  have ht := accepts_take hs hr
  refine ⟨?_, ht.reads⟩
  rw [← ht.run]
  simp [expectAny, run, hk, hx]

/-- Where nothing is reported, an expected token was matched. -/
theorem Rule.Accepts.of_expectAny {expected : KindSet} {a : Token}
    (h : (expectAny expected).Accepts s ps a t) (he : .endOfInput ∉ expected) :
    ∃ x, ps = [x] ∧ a = x.1 ∧ x.1.kind ∈ expected ∧ t = s.bump := by
  have hd := h.clear'.diagnostics
  have hrun := h.run
  obtain ⟨hk, hr⟩ | ⟨-, -, -, -, hr⟩ | ⟨-, -, -, hr⟩ | ⟨-, -, hr⟩ := expectAny_cases expected s
  · have hne : s.kind ≠ .endOfInput := fun heq => he (heq ▸ hk)
    obtain ⟨x, rest, hrest, -, hkx⟩ := h.clear.exists_rest hne
    rw [hkx] at hk
    obtain ⟨rfl, rfl, rfl⟩ := h.unique (accepts_expectAny h.clear hrest hk)
    exact ⟨x, rfl, rfl, hk, rfl⟩
  · have hn := h.clear.reads_note (.deleting s.current)
    rw [hr, run_take, Prod.mk.injEq] at hrun
    rw [← hrun.2] at hd
    exact absurd hd (hn.clear'.toRegular.diagnostics_report _)
  · have hn := h.clear.reads_note (.inserting expected s.current)
    rw [hr, Prod.mk.injEq] at hrun
    rw [← hrun.2] at hd
    exact absurd hd (hn.clear'.toRegular.diagnostics_report _)
  · simp [hr] at hrun

theorem Rule.Accepts.of_expect {kind : Kind} {a : Token} (h : (expect kind).Accepts s ps a t)
    (he : kind ≠ .endOfInput) : ∃ x, ps = [x] ∧ a = x.1 ∧ x.1.kind = kind ∧ t = s.bump := by
  obtain ⟨x, rfl, rfl, hx, rfl⟩ := Rule.Accepts.of_expectAny h (by simpa using he.symm)
  exact ⟨x, rfl, rfl, by simpa using hx, rfl⟩

/-- Nothing is accepted where a rule gives up. -/
theorem not_accepts_noViable {start : Nat} {expected : KindSet} {a : α} :
    ¬ (noViable start expected : Rule α).Accepts s ps a t := not_accepts_giveUp

theorem not_accepts_tooDeep {a : α} : ¬ (tooDeep : Rule α).Accepts s ps a t := not_accepts_giveUp

theorem accepts_at?_bind {β : Type} {kind : Kind} {g : Bool → Rule β} {b : β} :
    (at? kind >>= g).Accepts s ps b t ↔ (g (s.kind == kind)).Accepts s ps b t := accepts_ask_bind

theorem accepts_atAny?_bind {β : Type} {kinds : KindSet} {g : Bool → Rule β} {b : β} :
    (atAny? kinds >>= g).Accepts s ps b t ↔ (g (kinds.contains s.kind)).Accepts s ps b t :=
  accepts_ask_bind

theorem accepts_before?_bind {β : Type} {kind : Kind} {g : Bool → Rule β} {b : β} :
    (before? kind >>= g).Accepts s ps b t ↔ (g (s.kindAfter == kind)).Accepts s ps b t :=
  accepts_ask_bind

end PipeQuery.Grammar
