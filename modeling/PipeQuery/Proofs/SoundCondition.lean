import PipeQuery.Proofs.SoundExpression

/-!
# Soundness of conditions

Conditions that are read without a diagnostic are derived by the grammar, and with them expressions
on all levels of nesting (`expressions_sound`). Chains of connectives are treated like those of
infix operators.
-/

namespace PipeQuery.Grammar

open Rule State

variable {s t : State} {ps qs : List Placed} {c : Context}

/-! ## Predicates and tests -/

theorem Rule.Accepts.derives_predicateCall {a : PredicateCall} (h : predicateCall.Accepts s ps a t)
    (hk : s.kind = .predicateFunction) : Derives c (.predicateCall a) ps := by
  unfold predicateCall at h
  refine h.derives_spanned fun f hf span => ?_
  obtain ⟨name, u, qs, rs, rfl, hname, hrest⟩ := accepts_bind.1 hf
  obtain ⟨args, hargs, rfl⟩ := accepts_bind_pure.1 hrest
  obtain ⟨hnamey, hnk⟩ := hname.derives_takeIdentifier (c := c) (by rw [hk]; rfl)
  obtain ⟨x, y, qs', v, w, rfl, hx, hy, hargs, -⟩ := hargs.of_parenthesised
  obtain ⟨field, w', qs'', rs', rfl, hfield, hrest⟩ := accepts_bind.1 hargs
  obtain ⟨as, has, rfl⟩ := accepts_bind_pure.1 hrest
  have hsep := (accepts_many.1 has).separated (D := fun item ps => Yields id true c [item] ps)
    (f := fun a => .same (.fieldArgument a)) (by decide)
    (fun s ps a t _ ha => ha.derives_fieldArgument) hfield.reads.leads
    (hfield.derives_qualifiedName : Yields id true c [.same (.qualifiedName field)] qs'')
  have hitems := (Yields.separated_iff (f := id) hsep.ne_nil).2 hsep
  rw [List.map_id] at hitems
  exact ⟨rfl, hnk.trans hk, yields_call hnamey (yields_parentheses hx hitems hy)⟩

/-- The negation of a test was read in front of its word, or nothing was read. -/
theorem Rule.Accepts.of_testNegation {negation : Option Token}
    (h : testNegation.Accepts s ps negation t) :
    Yields id true c (Item.negation negation) ps ∧
      (t.kind ∈ testWords ∨ ps = [] ∧ negation = none ∧ t = s) := by
  unfold testNegation at h
  rw [accepts_at?_bind, accepts_ask_bind] at h
  split at h
  · next hk =>
    simp only [Bool.and_eq_true, beq_iff_eq, KindSet.contains_iff] at hk
    obtain ⟨hk, hafter⟩ := hk
    rw [accepts_ask_bind] at h
    obtain ⟨u, v, qs, rs, rfl, hskip, hrest⟩ := accepts_bind.1 h
    obtain ⟨-, rfl, rfl, rfl⟩ := accepts_pure.1 hrest
    obtain ⟨x, rest, hr, hc, hkx⟩ := hskip.clear.exists_rest (by simp [hk])
    have hx : s.Reads [x] s.skip := by simpa [hr] using hskip.clear.reads_skip
    obtain ⟨rfl, rfl, -⟩ := hskip.of_change fun _ => hx
    have hm : (Terminal.kept [.kwNot] s.current).Matches id x.1 := by
      rw [hc]
      exact ⟨by simp [← hkx, hk], rfl⟩
    exact ⟨.terminal hm (.nil c), .inl (hx.kind_eq_kindAfter ▸ hafter)⟩
  · obtain ⟨-, rfl, rfl, rfl⟩ := accepts_pure.1 h
    exact ⟨.nil c, .inr ⟨rfl, rfl, rfl⟩⟩

section

variable {inner : Expressions} [inner.Lawful true] {n : Nat}

/-- A condition without a connective of its own. -/
def IsCondition (e : BooleanExpr) : Prop := e.power = Connective.notPower ∧ e.leftSpan = e.span

/-- A value that may be tested, with its test. -/
theorem Rule.Accepts.derives_test (hi : inner.Sound n) {start : State} {tested : ValueExpr}
    {e : BooleanExpr} (hstart : start.Reads ps s) (hfilters : start.scope.predicates = true)
    (htested : Derives (start.context n) (.value tested) ps)
    (h : (test inner start.position tested).Accepts s qs e t) :
    Derives (start.context n) (.boolean e) (ps ++ qs) ∧ IsCondition e := by
  have hspan : ∀ v, start.Reads (ps ++ qs) v → v.spanFrom start.position = Span.around (ps ++ qs) :=
    fun v hv => hv.spanFrom (by simp [htested.ne_nil_of_phrase])
  unfold test at h
  obtain ⟨negation, u, qs', rs, rfl, hneg, hrest⟩ := h.of_bind fun negation => .bind fun kind => by
    split
    · infer_instance
    · split <;> infer_instance
  obtain ⟨hnegy, hword⟩ := hneg.of_testNegation (c := start.context n)
  rw [accepts_ask_bind] at hrest
  split at hrest
  · next hk =>
    obtain ⟨token, v, qs, rs, rfl, htoken, hrest⟩ := accepts_bind.1 hrest
    obtain ⟨items, hitems, rfl⟩ := accepts_bind_ask.1 hrest
    obtain ⟨x, rfl, rfl, hx, -⟩ := htoken.of_take (by simp [hk])
    obtain ⟨y, z, qs, w, w', rfl, hy, hz, hitems, hw⟩ := hitems.of_parenthesised
    obtain ⟨hne, hlist⟩ := yields_list (hitems.of_separated fun s' ps v t hs' hv => by
      have hvy := hv.derives_value hi
      rwa [State.context_eq (((((hstart.trans hneg.reads).trans htoken.reads).leads.trans hw).trans
        hs').scope)] at hvy).1
    refine ⟨Yields.same_iff.2 ⟨⟨hfilters, hne⟩, ?_, fun _ => ?_⟩, rfl, ?_⟩
    · have hin : (Terminal.kind .kwIn).Matches id x.1 := hx.trans hk
      exact htested.append (hnegy.append (.terminal hin (yields_parentheses hy hlist hz)))
    · simp only [Phrase.span, BooleanExpr.span]
      exact hspan t (hstart.trans h.reads)
    · simp [BooleanExpr.leftSpan, BooleanExpr.span]
  · split at hrest
    · next pattern hpattern =>
      have hk := PatternKind.ofKind?_eq_some_iff.1 hpattern
      obtain ⟨token, v, qs, rs, rfl, htoken, hrest⟩ := accepts_bind.1 hrest
      obtain ⟨literal, hliteral, rfl⟩ := accepts_bind_ask.1 hrest
      obtain ⟨x, rfl, rfl, hx, -⟩ := htoken.of_take (by rw [hk]; cases pattern <;> decide)
      refine ⟨Yields.same_iff.2 ⟨hfilters, ?_, fun _ => ?_⟩, rfl, ?_⟩
      · have hword : (Terminal.kind pattern.kind).Matches id x.1 := hx.trans hk
        exact htested.append (hnegy.append (.terminal hword hliteral.derives_string))
      · simp only [Phrase.span, BooleanExpr.span]
        exact hspan t (hstart.trans h.reads)
      · simp [BooleanExpr.leftSpan, BooleanExpr.span]
    · next hin _ hpattern =>
      obtain ⟨-, rfl, rfl, -⟩ := accepts_pure.1 hrest
      obtain hword | ⟨rfl, -, -⟩ := hword
      · have hword : u.kind = .kwLike ∨ u.kind = .kwRlike := by
          simpa [testWords, hin] using hword
        obtain hword | hword := hword <;> simp [hword, PatternKind.ofKind?] at hpattern
      · rw [List.append_nil, List.append_nil]
        refine ⟨htested.alone trivial rfl ?_, rfl, ?_⟩
        · simp [Phrase.span, BooleanExpr.span]
        · simp [BooleanExpr.leftSpan, BooleanExpr.span]

theorem Rule.Accepts.derives_condition (hi : inner.Sound n) {e : BooleanExpr}
    (h : (condition inner).Accepts s ps e t) :
    Derives (s.context n) (.boolean e) ps ∧ IsCondition e := by
  unfold condition at h
  rw [accepts_ask_bind, accepts_ask_bind] at h
  split at h
  · next hk =>
    refine h.derives_spanned_and fun f hf span => ?_
    obtain ⟨token, u, qs, rs, rfl, htoken, hrest⟩ := accepts_bind.1 hf
    obtain ⟨e, he, rfl⟩ := accepts_bind_pure.1 hrest
    obtain ⟨x, rfl, rfl, hx, -⟩ := htoken.of_take (by simp [hk])
    obtain ⟨hey, hpower, -⟩ := hi.boolean (Nat.le_refl _) he
    rw [State.context_eq htoken.scope] at hey
    have hm : (Terminal.kept [.kwNot] x.1).Matches id x.1 := ⟨by simp [hx, hk], rfl⟩
    refine ⟨by simp [Phrase.span, BooleanExpr.span], hpower, .terminal hm hey, rfl, ?_⟩
    simp [BooleanExpr.leftSpan, BooleanExpr.span]
  split at h
  · next hk =>
    simp only [Bool.and_eq_true, decide_eq_true_eq] at hk
    obtain ⟨call, hcall, rfl⟩ := accepts_bind_pure.1 h
    refine ⟨(hcall.derives_predicateCall hk.1).alone hk.2 rfl ?_, rfl, ?_⟩
    · simp [Phrase.span, BooleanExpr.span]
    · simp [BooleanExpr.leftSpan, BooleanExpr.span]
  split at h
  · rw [accepts_ask_bind] at h
    obtain ⟨tested, u, qs, rs, rfl, htested, hrest⟩ := h.of_bind fun tested => by
      split <;> infer_instance
    have hty := htested.derives_value hi
    split at hrest
    · next hfilters => exact hrest.derives_test hi htested.reads hfilters hty
    · obtain ⟨-, rfl, rfl, -⟩ := accepts_pure.1 hrest
      rw [List.append_nil]
      refine ⟨hty.alone trivial rfl ?_, rfl, ?_⟩
      · simp [Phrase.span, BooleanExpr.span]
      · simp [BooleanExpr.leftSpan, BooleanExpr.span]
  · rw [accepts_ask_bind] at h
    exact absurd h not_accepts_noViable

/-! ## Chains of connectives -/

omit [inner.Lawful true] in
theorem accepts_connectiveLink_none {power : Nat} (hs : s.Clear)
    (hk : ∀ op, Connective.ofKind? s.kind = some op → op.leftPower < power) :
    (connectiveLink inner power).Accepts s [] none s :=
  accepts_linkOf_none hs hk

instance (power : Nat) : Optional (connectiveLink inner power) := optional_linkOf rfl

omit [inner.Lawful true] in
/-- A tree in front of a connective that binds no more tightly is its left operand. -/
theorem Rule.Accepts.extends_boolean (hi : inner.Sound n) {start u : State} {op : Connective}
    {e right : BooleanExpr} {x : Placed} (hreads : start.Reads (ps ++ x :: qs) t)
    (hscope : u.scope = start.scope)
    (he : Derives (start.context n) (.boolean e) ps ∧ SpansFront e.leftSpan ps)
    (hx : Connective.ofKind? x.1.kind = some op) (hle : op.leftPower ≤ e.power)
    (h : (inner.boolean op.rightPower).Accepts u qs right t) :
    (Derives (start.context n) (.boolean (.connective op e x.1 right)) (ps ++ x :: qs) ∧
        SpansFront (BooleanExpr.connective op e x.1 right).leftSpan (ps ++ x :: qs)) ∧
      ∀ op', Connective.ofKind? t.kind = some op' → op'.leftPower ≤ op.leftPower := by
  obtain ⟨hey, hfront⟩ := he
  obtain ⟨hry, hrpower, hstop⟩ := hi.boolean (by cases op <;> decide) h
  rw [State.context_eq hscope] at hry
  have hm : (Terminal.kept [op.kind] x.1).Matches id x.1 :=
    ⟨by simp [Connective.ofKind?_eq_some_iff.1 hx], rfl⟩
  refine ⟨⟨Yields.same_iff.2 ⟨⟨hle, hrpower⟩, hey.append (.terminal hm hry), fun _ => ?_⟩, ?_⟩,
    fun op' hop' => Nat.le_of_lt_succ (hstop op' hop')⟩
  · simp only [Phrase.span, BooleanExpr.span]
    exact hfront.cover hreads.ascending hry.ne_nil_of_phrase hry.span_eq
  · simp only [BooleanExpr.leftSpan]
    exact hfront.append _

theorem Rule.Accepts.derives_connectiveChain (hi : inner.Sound n) {power : Nat}
    (hp : power ≤ Connective.notPower) {e : BooleanExpr}
    (h : (connectiveChain inner power).Accepts s ps e t) :
    Derives (s.context n) (.boolean e) ps ∧ power ≤ e.power ∧
      ∀ op, Connective.ofKind? t.kind = some op → op.leftPower < power := by
  have hfirst {e : BooleanExpr} {qs : List Placed} {u : State}
      (h : (condition inner).Accepts s qs e u) :
      (Derives (s.context n) (.boolean e) qs ∧ SpansFront e.leftSpan qs) ∧
        e.power = Connective.notPower := by
    obtain ⟨hy, hpower, hspan⟩ := h.derives_condition hi
    exact ⟨⟨hy, hspan.trans hy.span_eq ▸ .whole hy.ne_nil_of_phrase⟩, hpower⟩
  unfold connectiveChain at h
  obtain ⟨⟨hy, -⟩, hpower, hstop⟩ := h.of_chain rfl hfirst
    (fun hreads hscope he hx hle hright => hright.extends_boolean hi hreads hscope he hx hle)
    (fun _ _ => rfl) (fun op => by cases op <;> decide) hp
  exact ⟨hy, hpower, hstop⟩

end

/-! ## Levels -/

/-- Expressions are derived by the grammar on all levels of nesting. -/
theorem expressions_sound (n : Nat) : (expressions n).Sound n := by
  induction n with
  | zero => exact ⟨fun _ h => absurd h not_accepts_tooDeep, fun _ h => absurd h not_accepts_tooDeep⟩
  | succ n ih =>
    constructor
    · intro power s t ps e hp h
      have h' : (connectiveChain (expressions n) power).Accepts s ps e t := ⟨h.run, h.reads⟩
      obtain ⟨hy, hpower, hstop⟩ := h'.derives_connectiveChain ih hp
      exact ⟨Yields.deeper_succ_iff.2 hy, hpower, hstop⟩
    · intro power s t ps e hp h
      have h' : (operatorChain (expressions n) power).Accepts s ps e t := ⟨h.run, h.reads⟩
      obtain ⟨hy, hpower, hstop⟩ := h'.derives_operatorChain ih hp
      exact ⟨Yields.deeper_succ_iff.2 hy, hpower, hstop⟩

end PipeQuery.Grammar
