import PipeQuery.Proofs.Repeats

/-!
# Rules that read a stretch

`r.Reads scope ps follow wanted` says that the rule `r` reads the stretch `ps` wherever the stretch
stands in front of a kind that may follow it, and that the value is as wanted. Nothing is asked of
the state but that nothing was reported: how the text is to be read makes no difference to a text
without mistakes.

The combinators are treated one by one, so that the proof for a rule has the shape of the rule.
-/

namespace PipeQuery

/-! ## The end of a list -/

section

variable {α β : Type} {kind : Kind} {ps : List Placed}

/-- The elements of a list behind its first one, each with its separator in front. -/
inductive Trailing (kind : Kind) (D : α → List Placed → Prop) : List α → List Placed → Prop
  | nil : Trailing kind D [] []
  | cons {a : α} {as : List α} {ps qs : List Placed} {x : Placed} (separator : x.1.kind = kind)
    (first : D a ps) (rest : Trailing kind D as qs) : Trailing kind D (a :: as) (x :: (ps ++ qs))

theorem Trailing.of_map {D : β → List Placed → Prop} {F : α → β} {as : List α}
    (h : Trailing kind D (as.map F) ps) : Trailing kind (fun a => D (F a)) as ps := by
  induction as generalizing ps with
  | nil =>
    cases h
    exact .nil
  | cons a as ih =>
    cases h with
    | cons separator first rest => exact .cons separator first (ih rest)

/-- What may follow the first element may follow any other one. -/
theorem Trailing.front {D : α → List Placed → Prop} {as : List α} (h : Trailing kind D as ps)
    {P : Kind → Prop} (hP : P kind) {rest : List Placed} (hrest : P (frontKind rest)) :
    P (frontKind (ps ++ rest)) := by
  cases h with
  | nil => exact hrest
  | cons separator _ _ => rwa [List.cons_append, frontKind_cons, separator]

theorem Separated.exists_trailing {D : α → List Placed → Prop} {a : α} {as : List α}
    (h : Separated kind D (a :: as) ps) :
    ∃ qs rs, ps = qs ++ rs ∧ D a qs ∧ Trailing kind D as rs := by
  induction as generalizing a ps with
  | nil =>
    cases h with
    | one first => exact ⟨ps, [], (List.append_nil ps).symm, first, .nil⟩
    | more _ _ rest => exact absurd rfl rest.ne_nil
  | cons b bs ih =>
    cases h with
    | more first separator rest =>
      obtain ⟨qs, rs, rfl, hb, hbs⟩ := ih rest
      exact ⟨_, _, rfl, first, .cons separator hb hbs⟩

end

namespace Grammar

open Rule State

variable {α β γ : Type} {kind : Kind} {scope : Scope} {ps qs : List Placed}
  {follow follow' mid : Kind → Prop}

/-- Wherever the stretch stands in front of a kind that may follow it, the rule reads it as a value
that is as wanted. -/
def Rule.Reads (r : Rule α) (scope : Scope) (ps : List Placed) (follow : Kind → Prop)
    (wanted : α → Prop) : Prop :=
  ∀ (s : State) (rest : List Placed), s.Clear → s.scope = scope → s.stream.rest = ps ++ rest →
    follow (frontKind rest) → ∃ a t, r.Accepts s ps a t ∧ wanted a

namespace Rule.Reads

theorem mono {r : Rule α} {wanted wanted' : α → Prop} (h : r.Reads scope ps follow wanted)
    (hf : ∀ k, follow' k → follow k) (hw : ∀ a, wanted a → wanted' a) :
    r.Reads scope ps follow' wanted' := by
  intro s rest hs hscope hr hk
  obtain ⟨a, t, ha, hwa⟩ := h s rest hs hscope hr (hf _ hk)
  exact ⟨a, t, ha, hw a hwa⟩

theorem pure {a : α} {wanted : α → Prop} (h : wanted a) :
    (Pure.pure a : Rule α).Reads scope [] follow wanted := by
  intro s rest hs _ _ _
  exact ⟨a, s, accepts_pure.2 ⟨hs, rfl, rfl, rfl⟩, h⟩

/-- A sequence of rules reads two stretches in a row, if the second one may follow the first one. -/
theorem bind {r : Rule α} {f : α → Rule β} {w : α → Prop} {wanted : β → Prop}
    (h : r.Reads scope ps mid w)
    (hmid : ∀ rest, follow (frontKind rest) → mid (frontKind (qs ++ rest)))
    (hf : ∀ a, w a → (f a).Reads scope qs follow wanted) :
    (r >>= f).Reads scope (ps ++ qs) follow wanted := by
  intro s rest hs hscope hr hk
  rw [List.append_assoc] at hr
  obtain ⟨a, u, ha, hwa⟩ := h s (qs ++ rest) hs hscope hr (hmid rest hk)
  obtain ⟨b, t, hb, hwb⟩ := hf a hwa u rest ha.clear' (ha.scope.trans hscope) (ha.rest_eq hr) hk
  exact ⟨b, t, ha.bind hb, hwb⟩

/-- A sequence of rules where nothing depends on what follows the first one. -/
theorem andThen {r : Rule α} {f : α → Rule β} {w : α → Prop} {wanted : β → Prop}
    (h : r.Reads scope ps (fun _ => True) w)
    (hf : ∀ a, w a → (f a).Reads scope qs follow wanted) :
    (r >>= f).Reads scope (ps ++ qs) follow wanted :=
  h.bind (fun _ _ => trivial) hf

theorem map {r : Rule α} {g : α → β} {w : α → Prop} {wanted : β → Prop}
    (h : r.Reads scope ps follow w) (hg : ∀ a, w a → wanted (g a)) :
    (r >>= fun a => Pure.pure (g a)).Reads scope ps follow wanted := by
  intro s rest hs hscope hr hk
  obtain ⟨a, t, ha, hwa⟩ := h s rest hs hscope hr hk
  exact ⟨g a, t, accepts_bind_pure.2 ⟨a, ha, rfl⟩, hg a hwa⟩

/-- A rule whose value depends on the state behind it, if every state will do. -/
theorem map_ask {r : Rule α} {g : α → State → β} {w : α → Prop} {wanted : β → Prop}
    (h : r.Reads scope ps follow w) (hg : ∀ a s, w a → wanted (g a s)) :
    (r >>= fun a => Rule.ask (g a)).Reads scope ps follow wanted := by
  intro s rest hs hscope hr hk
  obtain ⟨a, t, ha, hwa⟩ := h s rest hs hscope hr hk
  exact ⟨g a t, t, accepts_bind_ask.2 ⟨a, ha, rfl⟩, hg a t hwa⟩

/-- A rule whose value takes the span of its tokens is fine with any span. -/
theorem spanned {r : Rule (Span → α)} {wanted : α → Prop}
    (h : r.Reads scope ps follow fun f => ∀ span, wanted (f span)) :
    (Grammar.spanned r).Reads scope ps follow wanted := by
  intro s rest hs hscope hr hk
  obtain ⟨f, t, hf, hw⟩ := h s rest hs hscope hr hk
  exact ⟨_, t, hf.spanned, hw _⟩

/-! ## Questions -/

/-- What a question answers in front of the stretch is known. -/
theorem ask {f : State → γ} {g : γ → Rule β} {wanted : β → Prop} (c : γ)
    (hf : ∀ (s : State) (rest : List Placed), s.Clear → s.scope = scope →
      s.stream.rest = ps ++ rest → follow (frontKind rest) → f s = c)
    (hg : (g c).Reads scope ps follow wanted) :
    (Rule.ask f >>= g).Reads scope ps follow wanted := by
  intro s rest hs hscope hr hk
  obtain ⟨b, t, hb, hw⟩ := hg s rest hs hscope hr hk
  refine ⟨b, t, accepts_ask_bind.2 ?_, hw⟩
  rwa [hf s rest hs hscope hr hk]

/-- What a question answers does not matter. -/
theorem askAny {f : State → γ} {g : γ → Rule β} {wanted : β → Prop}
    (hg : ∀ c, (g c).Reads scope ps follow wanted) :
    (Rule.ask f >>= g).Reads scope ps follow wanted := by
  intro s rest hs hscope hr hk
  obtain ⟨b, t, hb, hw⟩ := hg (f s) s rest hs hscope hr hk
  exact ⟨b, t, accepts_ask_bind.2 hb, hw⟩

theorem askKind {g : Kind → Rule β} {wanted : β → Prop} (hps : ps ≠ [])
    (hg : (g (frontKind ps)).Reads scope ps follow wanted) :
    (Rule.ask (·.kind) >>= g).Reads scope ps follow wanted := by
  refine .ask (frontKind ps) (fun s rest hs _ hr _ => ?_) hg
  rw [hs.kind_eq, hr, frontKind_append hps]

theorem at? {g : Bool → Rule β} {wanted : β → Prop} (hps : ps ≠ [])
    (hg : (g (frontKind ps == kind)).Reads scope ps follow wanted) :
    (Grammar.at? kind >>= g).Reads scope ps follow wanted := by
  refine .ask (frontKind ps == kind) (fun s rest hs _ hr _ => ?_) hg
  rw [hs.kind_eq, hr, frontKind_append hps]

theorem atAny? {kinds : KindSet} {g : Bool → Rule β} {wanted : β → Prop} (hps : ps ≠ [])
    (hg : (g (kinds.contains (frontKind ps))).Reads scope ps follow wanted) :
    (Grammar.atAny? kinds >>= g).Reads scope ps follow wanted := by
  refine .ask (kinds.contains (frontKind ps)) (fun s rest hs _ hr _ => ?_) hg
  rw [hs.kind_eq, hr, frontKind_append hps]

/-- Behind the first token stands the second one, or what follows. -/
theorem kindAfter_eq {x : Placed} {s : State} {rest : List Placed} (hs : s.Clear)
    (hr : s.stream.rest = (x :: ps) ++ rest) : s.kindAfter = frontKind (ps ++ rest) := by
  rw [hs.kindAfter_eq, hr]
  rfl

end Rule.Reads

/-- A change of the state that reads nothing. -/
theorem Rule.Reads.change_bind {g : State → State} {f : Unit → Rule β} {wanted : β → Prop}
    (hg : ∀ s : State, s.Clear → s.Reads [] (g s)) (h : (f ()).Reads scope ps follow wanted) :
    (change g >>= f).Reads scope ps follow wanted := by
  intro s rest hs hscope hr hk
  have hchange : (change g).Accepts s [] () (g s) := accepts_change.2 ⟨rfl, hg s hs⟩
  have hr' : (g s).stream.rest = ps ++ rest := hchange.rest_eq hr
  obtain ⟨b, t, hb, hw⟩ := h (g s) rest hchange.clear' (hchange.scope.trans hscope) hr' hk
  exact ⟨b, t, hchange.bind hb, hw⟩

theorem Rule.Reads.within {r : Rule α} [Lawful true r] {f : Scope → Scope} {wanted : α → Prop}
    (h : r.Reads (f scope) ps follow wanted) :
    (Rule.within f r).Reads scope ps follow wanted := by
  intro s rest hs hscope hr hk
  obtain ⟨a, t, ha, hw⟩ := h { s with scope := f s.scope } rest (hs.inScope _)
    (congrArg f hscope) hr hk
  exact ⟨a, _, accepts_within.2 ⟨t, ha, rfl⟩, hw⟩

/-! ## Tokens -/

theorem reads_take {x : Placed} : take.Reads scope [x] follow (· = x.1) :=
  fun s _ hs _ hr _ => ⟨x.1, s.bump, accepts_take hs hr, rfl⟩

theorem reads_expectAny {expected : KindSet} {x : Placed} (hx : x.1.kind ∈ expected) :
    (expectAny expected).Reads scope [x] follow (· = x.1) :=
  fun s _ hs _ hr _ => ⟨x.1, s.bump, accepts_expectAny hs hr hx, rfl⟩

theorem reads_expect {x : Placed} (hx : x.1.kind = kind) :
    (expect kind).Reads scope [x] follow (· = x.1) :=
  reads_expectAny (by simpa using hx)

theorem Rule.Reads.take_bind {f : Token → Rule β} {wanted : β → Prop} {x : Placed}
    (h : (f x.1).Reads scope qs follow wanted) :
    (take >>= f).Reads scope (x :: qs) follow wanted := by
  have hx : take.Reads scope [x] (fun _ => True) (· = x.1) := reads_take
  refine hx.andThen fun token htoken => ?_
  rwa [htoken]

theorem Rule.Reads.expect_bind {f : Token → Rule β} {wanted : β → Prop} {x : Placed}
    (hx : x.1.kind = kind) (h : (f x.1).Reads scope qs follow wanted) :
    (expect kind >>= f).Reads scope (x :: qs) follow wanted := by
  have hx : (expect kind).Reads scope [x] (fun _ => True) (· = x.1) := reads_expect hx
  refine hx.andThen fun token htoken => ?_
  rwa [htoken]

/-! ## Optional parts -/

theorem reads_accept_some {x : Placed} (hx : x.1.kind = kind) :
    (accept kind).Reads scope [x] follow (· = some x.1) :=
  fun s _ hs _ hr _ => ⟨some x.1, s.bump, accepts_accept_some hs hr hx, rfl⟩

theorem reads_accept_none (hf : ∀ k, follow k → k ≠ kind) :
    (accept kind).Reads scope [] follow (· = none) := by
  intro s rest hs _ hr hk
  refine ⟨none, s, accepts_accept_none hs ?_, rfl⟩
  rw [hs.kind_eq, hr]
  exact hf _ hk

theorem reads_behind_some {r : Rule α} {wanted : α → Prop} {x : Placed} (hx : x.1.kind = kind)
    (h : r.Reads scope ps follow wanted) :
    (behind kind r).Reads scope (x :: ps) follow fun o => ∃ a, o = some a ∧ wanted a := by
  intro s rest hs hscope hr hk
  have hbump := accepts_take hs hr
  obtain ⟨a, t, ha, hw⟩ :=
    h s.bump rest hbump.clear' (hbump.scope.trans hscope) (hbump.rest_eq hr) hk
  exact ⟨some a, t, accepts_behind_some hs hr hx ha, a, rfl, hw⟩

theorem reads_behind_none {r : Rule α} (hf : ∀ k, follow k → k ≠ kind) :
    (behind kind r).Reads scope [] follow (· = none) := by
  intro s rest hs _ hr hk
  refine ⟨none, s, accepts_behind_none hs ?_, rfl⟩
  rw [hs.kind_eq, hr]
  exact hf _ hk

/-! ## Lists -/

/-- Elements behind their separators are read one by one. -/
theorem reads_many_behind {r : Rule α} [Lawful true r] [hk : Fact (kind ≠ .endOfInput)]
    {D : β → List Placed → Prop} {f : α → γ} {g : β → γ}
    (hr : ∀ b ps, D b ps → r.Reads scope ps mid (f · = g b)) (hmid : mid kind)
    (hfollow : ∀ k, follow k → mid k ∧ k ≠ kind) {bs : List β} (h : Trailing kind D bs ps) :
    (many (behind kind r)).Reads scope ps follow fun as => as.map f = bs.map g := by
  intro s rest hs hscope hrest hfront
  suffices hrep : ∃ as t, (behind kind r).Repeats s ps as t ∧ as.map f = bs.map g by
    obtain ⟨as, t, hrep, hmap⟩ := hrep
    exact ⟨as, t, accepts_many.2 hrep, hmap⟩
  obtain ⟨hend, hne⟩ := hfollow _ hfront
  induction h generalizing s with
  | nil =>
    refine ⟨[], s, .done (accepts_behind_none hs ?_), rfl⟩
    rwa [hs.kind_eq, hrest]
  | @cons b bs ps qs x separator first trailing ih =>
    have hr' : s.stream.rest = x :: ps ++ (qs ++ rest) := by simpa using hrest
    obtain ⟨o, u, ho, a, rfl, ha⟩ := reads_behind_some separator (hr b ps first) s (qs ++ rest) hs
      hscope hr' (trailing.front hmid hend)
    obtain ⟨as, t, has, hmap⟩ := ih u ho.clear' (ho.scope.trans hscope) (ho.rest_eq hr')
    refine ⟨a :: as, t, .more ho has, ?_⟩
    rw [List.map_cons, List.map_cons, ha, hmap]

/-- A list is read element by element. -/
theorem reads_separated {r : Rule α} [Lawful true r] [hk : Fact (kind ≠ .endOfInput)]
    {D : α → List Placed → Prop} {f : α → γ}
    (hr : ∀ a ps, D a ps → r.Reads scope ps mid (f · = f a)) (hmid : mid kind)
    (hfollow : ∀ k, follow k → mid k ∧ k ≠ kind) {as : List α} (h : Separated kind D as ps) :
    (separated kind r).Reads scope ps follow (fun bs => bs.map f = as.map f) := by
  obtain ⟨a, as, rfl⟩ := List.exists_cons_of_ne_nil h.ne_nil
  obtain ⟨qs, rs, rfl, ha, has⟩ := h.exists_trailing
  unfold separated
  refine (hr a qs ha).bind (fun rest hrest => has.front hmid (hfollow _ hrest).1) fun b hb => ?_
  refine (reads_many_behind hr hmid hfollow has).map fun bs hbs => ?_
  rw [List.map_cons, List.map_cons, hb, hbs]

/-! ## Parentheses -/

theorem reads_parenthesised {r : Rule α} {wanted : α → Prop} {x y : Placed}
    (hx : x.1.kind = .leftParen) (hy : y.1.kind = .rightParen)
    (h : r.Reads scope ps (· = .rightParen) wanted) :
    (parenthesised r).Reads scope (x :: (ps ++ [y])) follow wanted := by
  refine .expect_bind hx ?_
  refine h.bind (fun _ _ => hy) fun a ha => ?_
  exact (reads_expect hy).map fun _ _ => ha

/-- Arguments in parentheses, of which there may be none. -/
theorem reads_arguments {r : Rule α} [Lawful true r] {D : α → List Placed → Prop} {f : α → γ}
    {as : List α} {x y : Placed} (hx : x.1.kind = .leftParen) (hy : y.1.kind = .rightParen)
    (hr : ∀ a ps, D a ps → r.Reads scope ps mid (f · = f a))
    (hfront : ∀ a ps, D a ps → ps ≠ [] ∧ frontKind ps ≠ .rightParen) (hmid : mid .comma)
    (hend : mid .rightParen) (h : as = [] ∧ ps = [] ∨ Separated .comma D as ps) :
    (arguments r).Reads scope (x :: (ps ++ [y])) follow (fun bs => bs.map f = as.map f) := by
  unfold arguments
  refine reads_parenthesised hx hy ?_
  obtain ⟨rfl, rfl⟩ | hsep := h
  · refine .ask true (fun s rest hs _ hr hk => ?_) (.pure rfl)
    rw [hs.kind_eq, hr, List.nil_append, hk]
    rfl
  · obtain ⟨a, qs, rs, ha, hps⟩ := hsep.exists_first
    obtain ⟨hqs, hne⟩ := hfront a qs ha
    have hfirst : frontKind ps = frontKind qs := by rw [hps, frontKind_append hqs]
    have hcond : (frontKind ps == .rightParen) = false := by
      rw [hfirst]
      simpa using hne
    refine .at? (by simp [hps, hqs]) ?_
    rw [hcond]
    exact reads_separated hr hmid (fun k hk => ⟨by rwa [hk], by rw [hk]; decide⟩) hsep

/-! ## Chains -/

/-- Wherever the stretch stands in front of a kind that may follow it, a chain of links is read over
it, and there may be further links. -/
def ReadsChain {Op : Type} (r : Rule α) (link : Rule (Option (ChainLink Op α)))
    (join : α → ChainLink Op α → α) (scope : Scope) (ps : List Placed) (follow : Kind → Prop)
    (wanted : α → Prop) : Prop :=
  ∀ (s : State) (rest : List Placed), s.Clear → s.scope = scope → s.stream.rest = ps ++ rest →
    follow (frontKind rest) → ∃ first links u t qs rs, ps = qs ++ rs ∧ r.Accepts s qs first u ∧
      link.Sequence u rs links t ∧ wanted (links.foldl join first)

namespace ReadsChain

variable {Op : Type} {r : Rule α} {link : Rule (Option (ChainLink Op α))}
  {join : α → ChainLink Op α → α} {w wanted : α → Prop}

/-- A single operand is a chain. -/
theorem of_operand (h : r.Reads scope ps follow wanted) :
    ReadsChain r link join scope ps follow wanted := by
  intro s rest hs hscope hr hk
  obtain ⟨first, t, hfirst, hw⟩ := h s rest hs hscope hr hk
  exact ⟨first, [], t, t, ps, [], (List.append_nil ps).symm, hfirst, .nil hfirst.clear', hw⟩

/-- A chain with one more link. -/
theorem append {w' : ChainLink Op α → Prop} (h : ReadsChain r link join scope ps mid w)
    (hmid : ∀ rest, follow (frontKind rest) → mid (frontKind (qs ++ rest)))
    (hlink : link.Reads scope qs follow fun o => ∃ l, o = some l ∧ w' l)
    (hw : ∀ e l, w e → w' l → wanted (join e l)) :
    ReadsChain r link join scope (ps ++ qs) follow wanted := by
  intro s rest hs hscope hr hk
  rw [List.append_assoc] at hr
  obtain ⟨first, links, u, v, ps₁, ps₂, rfl, hfirst, hlinks, he⟩ :=
    h s (qs ++ rest) hs hscope hr (hmid rest hk)
  have hreads := hfirst.reads.trans hlinks.reads
  have hv : v.stream.rest = qs ++ rest := List.append_cancel_left (hreads.rest.symm.trans hr)
  obtain ⟨o, t, ho, l, rfl, hl⟩ :=
    hlink v rest hreads.clear' (hreads.scope.trans hscope) hv hk
  refine ⟨first, links ++ [l], u, t, ps₁, ps₂ ++ qs, List.append_assoc .., hfirst,
    hlinks.append_singleton ho, ?_⟩
  rw [List.foldl_append]
  exact hw _ l he hl

/-- Where no further link follows, the chain is read as a whole. -/
theorem reads [Lawful true link] [Optional link] (h : ReadsChain r link join scope ps mid wanted)
    (hf : ∀ k, follow k → mid k)
    (hlast : ∀ s : State, s.Clear → follow s.kind → link.Accepts s [] none s) :
    (r >>= fun first => many link >>= fun links =>
      pure (links.foldl join first)).Reads scope ps follow wanted := by
  intro s rest hs hscope hr hk
  obtain ⟨first, links, u, t, qs, rs, rfl, hfirst, hlinks, he⟩ := h s rest hs hscope hr (hf _ hk)
  have hreads := hfirst.reads.trans hlinks.reads
  have ht : t.stream.rest = rest := List.append_cancel_left (hreads.rest.symm.trans hr)
  have hend := hlast t hreads.clear' (by rwa [hreads.clear'.kind_eq, ht])
  have hmany := accepts_many.2 (hlinks.repeats hend)
  exact ⟨_, t, hfirst.bind (accepts_bind_pure.2 ⟨links, hmany, rfl⟩), he⟩

end ReadsChain

end Grammar

end PipeQuery
