import PipeQuery.Proofs.Productions
import PipeQuery.Proofs.StrictRules

/-!
# What is blamed first

A diagnostic is warranted by a language (`State.Warrants`) if the kinds that were read in front of
the blamed token, with any of the expected kinds behind them, begin a word of the language, and the
kind of the blamed token is not an expected one. `Rule.KeepsTo` says of a rule that it spells a
language: what it reads are words of the language, and what it reports first is warranted by it,
unless expressions nest too deep. Texts may be read strictly or not.

The combinators of rules are those of languages. A sequence of rules spells a product, for what a
rule has begun can be completed by what comes after it; a repetition spells a star.
-/

open scoped Computability

namespace PipeQuery

open Grammar Words

/-- Expressions and queries nest too deep. -/
def Diagnostic.IsLimit (d : Diagnostic) : Prop := ∃ n, d.cause = .nestingTooDeep n

namespace Grammar

namespace State

/-- From the state on, the language warrants a diagnostic: the blamed token stands behind a stretch
that any of the expected kinds continues to the beginning of a word, and it is of none of them. -/
def Warrants (L : Language Kind) (s : State) (d : Diagnostic) : Prop :=
  ∃ ps t, s.stream.Reads ps t ∧ d.token = t.current ∧ t.kind ∉ d.expected ∧
    (∃ k, k ∈ d.expected) ∧ ∀ k ∈ d.expected, ∃ w, kindsOf ps ++ k :: w ∈ L

/-- What is first reported up to a state is warranted, unless it is about the limit. -/
def Warranted (L : Language Kind) (s t : State) : Prop :=
  ∀ d, t.diagnostics[0]? = some d → d.IsLimit ∨ s.Warrants L d

/-- Where a rule stands: whether the predicates of filters may be used, and all the comparisons that
are left are among the known ones. -/
structure Ready (f : Bool) (s : State) : Prop where
  /-- Whether the predicates of filters may be used. -/
  predicates : s.scope.predicates = f
  /-- The comparisons that are left are known. -/
  comparisons (x : Placed) (hx : x ∈ s.stream.rest) (hk : x.1.kind = .comparison) :
    (ComparisonOp.ofText? x.1.text).isSome = true

variable {f : Bool} {s t u : State} {L M : Language Kind} {d : Diagnostic} {ps : List Placed}

theorem Ready.reads (h : s.Ready f) (hr : s.Reads ps t) : t.Ready f := by
  refine ⟨by rw [hr.scope, h.predicates], fun x hx => h.comparisons x ?_⟩
  rw [hr.rest]
  exact List.mem_append_right ps hx

theorem Warrants.mono (h : s.Warrants L d) (hle : L ≤ M) : s.Warrants M d := by
  obtain ⟨ps, t, hr, ht, hk, hne, hw⟩ := h
  refine ⟨ps, t, hr, ht, hk, hne, fun k hk => ?_⟩
  obtain ⟨w, hw⟩ := hw k hk
  exact ⟨w, hle hw⟩

theorem Warranted.mono (h : s.Warranted L t) (hle : L ≤ M) : s.Warranted M t :=
  fun d hd => (h d hd).imp id fun hw => hw.mono hle

/-- Where nothing was reported, there is nothing to warrant. -/
theorem Clear.warranted (h : t.Clear) : s.Warranted L t := by
  intro d hd
  rw [h.diagnostics] at hd
  simp at hd

theorem Warranted.of_first (h : s.Warrants L d) (hd : t.diagnostics[0]? = some d) :
    s.Warranted L t := by
  intro d' hd'
  obtain rfl := Option.some.inj (hd.symm.trans hd')
  exact .inr h

/-- What was reported first stays so. -/
theorem Warranted.steps {recording : Bool} (h : s.Warranted L t) (hd : t.diagnostics ≠ #[])
    (hu : t.Steps recording u) : s.Warranted L u := by
  intro d hfirst
  refine h d ?_
  obtain ⟨d', hd'⟩ : ∃ d', t.diagnostics[0]? = some d' := by
    rw [ne_eq, ← Array.size_eq_zero_iff] at hd
    exact ⟨_, Array.getElem?_eq_getElem (Nat.pos_of_ne_zero hd)⟩
  rw [hd', ← hu.first hd', hfirst]

/-- A begun word can be completed. -/
theorem Warranted.followed (h : s.Warranted L t) (hM : ∃ ks, ks ∈ M) : s.Warranted (L * M) t := by
  intro d hd
  refine (h d hd).imp id ?_
  rintro ⟨ps, t, hr, ht, hk, hne, hw⟩
  refine ⟨ps, t, hr, ht, hk, hne, fun k hk => ?_⟩
  obtain ⟨w, hw⟩ := hw k hk
  obtain ⟨ks, hks⟩ := hM
  refine ⟨w ++ ks, ?_⟩
  rw [← List.cons_append, ← List.append_assoc]
  exact Language.append_mem_mul hw hks

/-- What is warranted from a state on is warranted behind what was read up to there. -/
theorem Warranted.behind (h : u.Warranted M t) (hr : s.Reads ps u) (hps : kindsOf ps ∈ L) :
    s.Warranted (L * M) t := by
  intro d hd
  refine (h d hd).imp id ?_
  rintro ⟨qs, v, hqs, hv, hk, hne, hw⟩
  refine ⟨ps ++ qs, v, hr.stream.trans hqs, hv, hk, hne, fun k hk => ?_⟩
  obtain ⟨w, hw⟩ := hw k hk
  refine ⟨w, ?_⟩
  rw [kindsOf_append, List.append_assoc]
  exact Language.append_mem_mul hps hw

/-- The next token is blamed, and the expected kinds begin words. -/
theorem Clear.warrants (cause : Diagnostic.Cause) (hk : s.kind ∉ cause.expected)
    (hne : ∃ k, k ∈ cause.expected) (h : Starts cause.expected L) :
    s.Warrants L ⟨cause, s.current⟩ :=
  ⟨[], s.stream, .refl _, rfl, hk, hne, h⟩

end State

open State

/-- A rule spells a language: it reads words, and what it reports first is warranted. -/
structure Rule.KeepsTo {α : Type} (f : Bool) (K : State → Prop) (L : Language Kind) (r : Rule α) :
    Prop where
  /-- The rule is lawful. -/
  lawful : Lawful true r
  /-- What is read without a diagnostic is a word. -/
  accepts {s t : State} {ps : List Placed} {a : α} (hs : s.Ready f) (hk : K s)
    (h : r.Accepts s ps a t) : kindsOf ps ∈ L
  /-- What is reported first is warranted. -/
  warranted {s : State} (hc : s.Clear) (hs : s.Ready f) (hk : K s) : s.Warranted L (r.run s).2

namespace Rule

variable {α β : Type} {f : Bool} {K Q : State → Prop} {L M : Language Kind} {s : State}

/-- Any state. -/
abbrev Anywhere (_ : State) : Prop := True

theorem KeepsTo.mono {r : Rule α} (h : KeepsTo f K L r) (hle : L ≤ M) : KeepsTo f K M r where
  lawful := h.lawful
  accepts hs hk ha := hle (h.accepts hs hk ha)
  warranted hc hs hk := (h.warranted hc hs hk).mono hle

theorem KeepsTo.weaken {r : Rule α} (h : KeepsTo f Q L r) (hK : ∀ s, K s → Q s) : KeepsTo f K L r where
  lawful := h.lawful
  accepts hs hk ha := h.accepts hs (hK _ hk) ha
  warranted hc hs hk := h.warranted hc hs (hK _ hk)

/-- What is spelled anywhere is spelled here. -/
theorem KeepsTo.here {r : Rule α} (h : KeepsTo f Anywhere L r) : KeepsTo f K L r :=
  h.weaken fun _ _ => trivial

theorem keepsTo_pure (a : α) : KeepsTo f K 1 (pure a : Rule α) where
  lawful := inferInstance
  accepts _ _ h := by
    obtain ⟨-, rfl, -, -⟩ := accepts_pure.1 h
    rfl
  warranted hc _ _ := hc.warranted

theorem keepsTo_ask (g : State → α) : KeepsTo f K 1 (ask g) where
  lawful := inferInstance
  accepts _ _ h := by
    obtain ⟨-, rfl, -, -⟩ := accepts_ask.1 h
    rfl
  warranted hc _ _ := hc.warranted

/-- What is reported first in a sequence is reported by its first rule, or by the second one behind
what the first one has read. -/
theorem warranted_bind {r : Rule α} {g : α → Rule β} (hr : Lawful true r)
    (hg : ∀ a, Lawful true (g a)) (hc : s.Clear) (h : s.Warranted L (r.run s).2)
    (hrest : ∀ a ps u, r.Accepts s ps a u → s.Warranted L ((g a).run u).2) :
    s.Warranted L ((r >>= g).run s).2 := by
  rw [run_bind]
  by_cases hd : (r.run s).2.diagnostics = #[]
  · obtain ⟨a, ps, ha⟩ := exists_accepts r hc.toRegular hd
    have hrun := hrest a ps _ ha
    rw [ha.run]
    exact hrun
  · generalize r.run s = x at h hd ⊢
    obtain ⟨_ | a, u⟩ := x
    · exact h
    · exact h.steps hd ((hg a).steps u)

/-- A sequence, where the second rule stands as `Q` says. -/
theorem KeepsTo.bind_of {r : Rule α} {g : α → Rule β} {Q : α → State → Prop} (hr : KeepsTo f K L r)
    (hQ : ∀ s ps a t, s.Ready f → K s → r.Accepts s ps a t → Q a t)
    (hg : ∀ a, KeepsTo f (Q a) M (g a)) (hM : ∃ ks, ks ∈ M) : KeepsTo f K (L * M) (r >>= g) where
  lawful := by
    have := hr.lawful
    exact .bind fun a => (hg a).lawful
  accepts hs hk h := by
    have := hr.lawful
    obtain ⟨a, u, qs, rs, rfl, hq, hrest⟩ := h.of_bind fun a => (hg a).lawful
    rw [kindsOf_append]
    exact Language.append_mem_mul (hr.accepts hs hk hq)
      ((hg a).accepts (hs.reads hq.reads) (hQ _ _ _ _ hs hk hq) hrest)
  warranted hc hs hk := by
    refine warranted_bind hr.lawful (fun a => (hg a).lawful) hc
      ((hr.warranted hc hs hk).followed hM) fun a ps u ha => ?_
    exact ((hg a).warranted ha.clear' (hs.reads ha.reads) (hQ _ _ _ _ hs hk ha)).behind ha.reads
      (hr.accepts hs hk ha)

theorem KeepsTo.bind {r : Rule α} {g : α → Rule β} (hr : KeepsTo f K L r)
    (hg : ∀ a, KeepsTo f Anywhere M (g a)) (hM : ∃ ks, ks ∈ M) : KeepsTo f K (L * M) (r >>= g) :=
  hr.bind_of (fun _ _ _ _ _ _ _ => trivial) hg hM

theorem KeepsTo.map {r : Rule α} (hr : KeepsTo f K L r) (g : α → β) :
    KeepsTo f K L (r >>= fun a => pure (g a)) := by
  rw [← mul_one L]
  exact hr.bind (fun a => keepsTo_pure (g a)) ⟨[], rfl⟩

/-- A question whose answer is known from then on. -/
theorem keepsTo_ask_bind {g : State → α} {h : α → Rule β}
    (hh : ∀ a, KeepsTo f (fun s => K s ∧ g s = a) L (h a)) : KeepsTo f K L (ask g >>= h) where
  lawful := .bind fun a => (hh a).lawful
  accepts hs hk ha := (hh _).accepts hs ⟨hk, rfl⟩ (accepts_ask_bind.1 ha)
  warranted hc hs hk := (hh _).warranted hc hs ⟨hk, rfl⟩

theorem KeepsTo.spanned {r : Rule (Span → α)} (h : KeepsTo f K L r) :
    KeepsTo f K L (Grammar.spanned r) where
  lawful := .spanned h.lawful
  accepts hs hk ha := by
    obtain ⟨g, hg, -⟩ := accepts_spanned.1 ha
    exact h.accepts hs hk hg
  warranted {s} hc hs hk := by
    rw [run_spanned_snd]
    exact h.warranted hc hs hk

/-- Where the scope says that predicates may be used, or may not, a rule is read as there. -/
theorem KeepsTo.within {r : Rule α} {f' : Bool} {scope : Scope → Scope} (h : KeepsTo f' Anywhere L r)
    (hf : ∀ x : Scope, x.predicates = f → (scope x).predicates = f') :
    KeepsTo f K L (Rule.within scope r) where
  lawful := by
    have := h.lawful
    infer_instance
  accepts {s t ps a} hs _ ha := by
    have := h.lawful
    have hs' : State.Ready f' { s with scope := scope s.scope } :=
      ⟨hf _ hs.predicates, hs.comparisons⟩
    obtain ⟨u, hu, -⟩ := accepts_within.1 ha
    exact h.accepts hs' trivial hu
  warranted {s} hc hs _ := by
    have hs' : State.Ready f' { s with scope := scope s.scope } :=
      ⟨hf _ hs.predicates, hs.comparisons⟩
    exact h.warranted (hc.inScope (scope s.scope)) hs' trivial

/-- A step that reads nothing and reports nothing. -/
theorem KeepsTo.change_bind {step : State → State} {g : Unit → Rule β}
    (hstep : ∀ s : State, s.Clear → s.Reads [] (step s)) (hl : Lawful true (change step))
    (h : KeepsTo f Anywhere L (g ())) : KeepsTo f K L (change step >>= g) where
  lawful := .bind fun _ => h.lawful
  accepts {s t ps b} hs _ ha := by
    obtain ⟨_, u, qs, rs, rfl, hchange, hrest⟩ := ha.of_bind fun _ => h.lawful
    obtain ⟨rfl, rfl, hreads⟩ := hchange.of_change (hstep s)
    exact h.accepts (hs.reads hreads) trivial hrest
  warranted {s} hc hs _ := by
    have hreads := hstep s hc
    rw [← one_mul L]
    exact (h.warranted hreads.clear' (hs.reads hreads) trivial).behind hreads rfl

/-- A token that is passed over. -/
theorem KeepsTo.skip_bind (kind : Kind) {g : Unit → Rule β} (hend : kind ≠ .endOfInput)
    (hk : ∀ s, K s → s.kind = kind) (hQ : ∀ s : State, s.Clear → K s → Q s.skip)
    (h : KeepsTo f Q L (g ())) : KeepsTo f K (letter kind * L) (change State.skip >>= g) := by
  have hreads {s : State} (hc : s.Clear) (hs : K s) :
      ∃ x : Placed, s.Reads [x] s.skip ∧ kindsOf [x] ∈ letter kind := by
    have hne : s.kind ≠ .endOfInput := by rwa [hk s hs]
    obtain ⟨x, rest, hr, -, hx⟩ := hc.exists_rest hne
    have hskip := hc.reads_skip
    rw [hr] at hskip
    exact ⟨x, hskip, kind, by simp, congrArg (fun k => [k]) (hx.symm.trans (hk s hs))⟩
  constructor
  · exact .bind fun _ => h.lawful
  · intro s t ps b hs hks ha
    obtain ⟨_, u, qs, rs, rfl, hchange, hrest⟩ := ha.of_bind fun _ => h.lawful
    obtain ⟨rfl, hqs⟩ := accepts_change.1 hchange
    obtain ⟨x, hx, hletter⟩ := hreads hqs.clear hks
    obtain rfl := hqs.stream.unique hx.stream
    rw [kindsOf_append]
    exact Language.append_mem_mul hletter (h.accepts (hs.reads hqs) (hQ s hqs.clear hks) hrest)
  · intro s hc hs hks
    obtain ⟨x, hx, hletter⟩ := hreads hc hks
    exact (h.warranted hx.clear' (hs.reads hx) (hQ s hc hks)).behind hx hletter

/-! ## Tokens -/

theorem keepsTo_take {kinds : KindSet} (hend : .endOfInput ∉ kinds) (hk : ∀ s, K s → s.kind ∈ kinds) :
    KeepsTo f K kinds.letters take where
  lawful := inferInstance
  accepts {s t ps a} _ hs h := by
    obtain ⟨x, rfl, -, hx, -⟩ := h.of_take fun he => hend (he ▸ hk s hs)
    exact ⟨s.kind, hk s hs, congrArg (fun k => [k]) hx⟩
  warranted {s} hc _ _ := hc.reads_bump.clear'.warranted

theorem keepsTo_expectAny {kinds : KindSet} (hend : .endOfInput ∉ kinds) (hne : ∃ k, k ∈ kinds) :
    KeepsTo f K kinds.letters (expectAny kinds) where
  lawful := inferInstance
  accepts {s t ps a} _ _ h := by
    obtain ⟨x, rfl, -, hx, -⟩ := h.of_expectAny hend
    exact ⟨x.1.kind, hx, rfl⟩
  warranted {s} hc _ _ := by
    have hstarts := starts_letters kinds
    obtain ⟨hk, h⟩ | ⟨hk, -, -, -, h⟩ | ⟨hk, -, -, h⟩ | ⟨hk, -, h⟩ := expectAny_cases kinds s
      <;> rw [h]
    · exact hc.reads_bump.clear'.warranted
    · exact .of_first (Clear.warrants (.extraneous kinds) hk hne hstarts)
        ((hc.reads_note _).clear'.first_report _)
    · exact .of_first (Clear.warrants (.missing kinds) hk hne hstarts)
        ((hc.reads_note _).clear'.first_report _)
    · exact .of_first (Clear.warrants (.mismatched kinds) hk hne hstarts)
        (hc.first_report _)

theorem keepsTo_expect {kind : Kind} (hk : kind ≠ .endOfInput) :
    KeepsTo f K (letter kind) (expect kind) :=
  keepsTo_expectAny (by simpa using hk.symm) ⟨kind, by simp⟩

theorem keepsTo_noViable {start : Nat} {expected : KindSet} (hk : ∀ s, K s → s.kind ∉ expected)
    (hne : ∃ k, k ∈ expected) (h : Starts expected L) :
    KeepsTo f K L (noViable start expected : Rule α) where
  lawful := inferInstance
  accepts _ _ ha := absurd ha not_accepts_noViable
  warranted {s} hc _ hs := .of_first (Clear.warrants (.noViableAlternative _ expected)
    (hk s hs) hne h) (hc.first_report _)

theorem keepsTo_tooDeep : KeepsTo f K L (tooDeep : Rule α) where
  lawful := inferInstance
  accepts _ _ ha := absurd ha not_accepts_tooDeep
  warranted {s} hc _ _ := by
    intro d hd
    have hfirst := hc.first_report ⟨.nestingTooDeep s.config.maxDepth, s.current⟩
    obtain rfl := Option.some.inj (hfirst.symm.trans hd)
    exact .inl ⟨_, rfl⟩

/-! ## Repetition -/

theorem keepsTo_accept {kind : Kind} (hk : kind ≠ .endOfInput) :
    KeepsTo f K (1 + letter kind) (accept kind) := by
  unfold accept
  refine keepsTo_ask_bind fun b => ?_
  cases b with
  | true =>
    have htake : KeepsTo f (fun s => K s ∧ (s.kind == kind) = true) (letter kind) take :=
      keepsTo_take (by simpa using hk.symm) (by simp)
    exact (htake.map some).mono le_add_self
  | false => exact (keepsTo_pure _).mono le_self_add

theorem KeepsTo.behind {kind : Kind} (hk : kind ≠ .endOfInput) {r : Rule α}
    (h : KeepsTo f Anywhere L r) : KeepsTo f K (Words.behind kind L) (Grammar.behind kind r) where
  lawful := by
    have := h.lawful
    infer_instance
  accepts {s t ps a} hs _ ha := by
    have := h.lawful
    obtain ⟨x, qs, b, rfl, -, hx, hb⟩ | ⟨rfl, -, -, -⟩ := ha.of_behind hk
    · rw [kindsOf_cons, hx]
      exact cons_mem_behind (h.accepts (hs.reads ha.clear.reads_bump) trivial hb)
    · exact nil_mem_behind
  warranted {s} hc hs _ := by
    unfold Grammar.behind
    by_cases hsk : s.kind = kind
    · obtain ⟨x, rest, hr, -, hkx⟩ := hc.exists_rest (by rwa [hsk])
      have hx : x.1.kind = kind := hkx.symm.trans hsk
      have haccept := accepts_accept_some hc hr hx
      have hletter : kindsOf [x] ∈ letter kind := ⟨kind, by simp, congrArg (fun k => [k]) hx⟩
      have hbump := (h.map some).warranted haccept.clear' (hs.reads haccept.reads) trivial
      rw [run_bind, haccept.run]
      exact (hbump.behind haccept.reads hletter).mono le_add_self
    · rw [run_bind, (accepts_accept_none hc hsk).run]
      exact hc.warranted

theorem keepsTo_upTo {r : Rule (Option α)} (h : KeepsTo f Anywhere L r) (n : Nat) (values : List α) :
    KeepsTo f K L∗ (upTo r n values) := by
  induction n generalizing values K with
  | zero => exact (keepsTo_pure _).mono one_le_kstar
  | succ n ih =>
    rw [upTo_succ]
    refine (h.here.bind (M := L∗) (fun a => ?_) ⟨[], Language.nil_mem_kstar L⟩).mono
      mul_kstar_le_kstar
    cases a with
    | none => exact (keepsTo_pure _).mono one_le_kstar
    | some a => exact ih (a :: values)

theorem KeepsTo.many {r : Rule (Option α)} (h : KeepsTo f Anywhere L r) :
    KeepsTo f K L∗ (Grammar.many r) where
  lawful := by
    have := h.lawful
    infer_instance
  accepts {s t ps a} hs _ ha :=
    (keepsTo_upTo h s.stream.remaining []).accepts (K := Anywhere) hs trivial ⟨ha.run, ha.reads⟩
  warranted {s} hc hs _ :=
    (keepsTo_upTo h s.stream.remaining []).warranted (K := Anywhere) hc hs trivial

theorem KeepsTo.separated {kind : Kind} (hk : kind ≠ .endOfInput) {r : Rule α}
    (h : KeepsTo f K L r) (hany : KeepsTo f Anywhere L r) :
    KeepsTo f K (Words.separated kind L) (Grammar.separated kind r) :=
  h.bind (fun a => (hany.behind hk).many.map (a :: ·)) ⟨[], Language.nil_mem_kstar _⟩

theorem KeepsTo.parenthesised {r : Rule α} (h : KeepsTo f Anywhere L r) (hL : ∃ ks, ks ∈ L) :
    KeepsTo f K (Words.parenthesised L) (Grammar.parenthesised r) := by
  obtain ⟨ks, hks⟩ := hL
  have hclose := mem_letter .rightParen
  refine (keepsTo_expect (by decide)).bind (fun _ => ?_) ⟨_, Language.append_mem_mul hks hclose⟩
  exact h.bind (fun a => (keepsTo_expect (by decide)).map fun _ => a) ⟨_, hclose⟩

theorem KeepsTo.arguments {r : Rule α} (h : KeepsTo f Anywhere L r) :
    KeepsTo f K (Words.arguments L) (Grammar.arguments r) := by
  refine KeepsTo.parenthesised (keepsTo_ask_bind fun b => ?_) ⟨[], .inl rfl⟩
  cases b with
  | true => exact (keepsTo_pure _).mono le_self_add
  | false => exact (h.here.separated (by decide) h).mono le_add_self

end Rule

end Grammar

end PipeQuery
