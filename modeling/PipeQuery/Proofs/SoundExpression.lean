import PipeQuery.Proofs.SoundLeaf

/-!
# Soundness of expressions

Expressions that are read without a diagnostic are derived by the grammar. The induction is on the
levels of nesting: `Expressions.Sound inner n` says it of the expressions one level deeper, and
`expressions_sound` says it of all levels.

A chain of operators is read from left to right. What carries the induction along it is that an
operator behind a tree never binds more tightly than the tree: the right operand was read at a
higher power than its operator has, and ended where an operator with less power came.
-/

namespace PipeQuery.Grammar

open Rule State

variable {α : Type} {s t : State} {ps qs : List Placed} {c : Context}

/-- The context of the rules in a state. -/
def State.context (s : State) (n : Nat) : Context := ⟨s.scope.predicates, n⟩

theorem State.context_eq {s u : State} (h : u.scope = s.scope) (n : Nat) :
    u.context n = s.context n := by
  rw [context, h, context]

/-- Expressions one level deeper are derived as such, and end where no operator joins them. -/
structure Expressions.Sound (inner : Expressions) (n : Nat) : Prop where
  boolean {power : Nat} {s t : State} {ps : List Placed} {e : BooleanExpr}
    (hp : power ≤ Connective.notPower) (h : (inner.boolean power).Accepts s ps e t) :
    Yields id true (s.context n) [.deeper (.boolean e)] ps ∧ power ≤ e.power ∧
      ∀ op, Connective.ofKind? t.kind = some op → op.leftPower < power
  operator {power : Nat} {s t : State} {ps : List Placed} {e : OperatorExpr}
    (hp : power ≤ Sign.power) (h : (inner.operator power).Accepts s ps e t) :
    Yields id true (s.context n) [.deeper (.operator e)] ps ∧ power ≤ e.power ∧
      ∀ op, ArithmeticOp.ofKind? t.kind = some op → op.leftPower < power

/-! ## Parentheses -/

theorem Rule.Accepts.of_parenthesised {r : Rule α} [Lawful true r] {a : α}
    (h : (parenthesised r).Accepts s ps a t) :
    ∃ x y qs u v, ps = x :: (qs ++ [y]) ∧ x.1.kind = .leftParen ∧ y.1.kind = .rightParen ∧
      r.Accepts u qs a v ∧ s.Leads u := by
  unfold parenthesised at h
  obtain ⟨token, u, qs, rs, rfl, hopen, hrest⟩ := accepts_bind.1 h
  obtain ⟨b, v, qs', rs', rfl, hr, hrest⟩ := accepts_bind.1 hrest
  obtain ⟨token', hclose, rfl⟩ := accepts_bind_pure.1 hrest
  obtain ⟨x, rfl, -, hx, -⟩ := hopen.of_expect (by decide)
  obtain ⟨y, rfl, -, hy, -⟩ := hclose.of_expect (by decide)
  exact ⟨x, y, qs', u, v, rfl, hx, hy, hr, hopen.reads.leads⟩

theorem yields_parentheses {exact : Bool} {items : List Item} {x y : Placed}
    (hx : x.1.kind = .leftParen) (h : Yields id exact c items ps)
    (hy : y.1.kind = .rightParen) :
    Yields id exact c (.kind .leftParen :: (items ++ [.kind .rightParen])) (x :: (ps ++ [y])) :=
  .terminal hx (h.append (.terminal hy (.nil c)))

/-- The arguments of a function, with their parentheses. -/
theorem Rule.Accepts.of_arguments {r : Rule α} [Lawful true r] {f : α → Item} {as : List α}
    (h : (arguments r).Accepts s ps as t)
    (hr : ∀ s' ps a t, s.Leads s' → r.Accepts s' ps a t → Yields id true c [f a] ps) :
    Yields id true c
      (.kind .leftParen :: (Item.separated .comma (as.map f) ++ [.kind .rightParen])) ps := by
  unfold arguments at h
  obtain ⟨x, y, qs, u, v, rfl, hx, hy, hargs, hu⟩ := h.of_parenthesised
  refine yields_parentheses hx ?_ hy
  rw [accepts_at?_bind] at hargs
  split at hargs
  · obtain ⟨-, rfl, rfl, -⟩ := accepts_pure.1 hargs
    exact .nil c
  · have hsep := (hargs.of_separated fun s' ps a t hs' ha =>
      hr s' ps a t (hu.trans hs') ha).1
    exact (Yields.separated_iff hsep.ne_nil).2 hsep

/-- A call of a function whose name and arguments were read. -/
theorem yields_call {exact : Bool} {name : Identifier} {args : List Item}
    (hname : Yields id exact c [.same (.identifier name)] ps)
    (hargs : Yields id exact c
      (.kind .leftParen :: (Item.separated .comma args ++ [.kind .rightParen])) qs) :
    Yields id exact c (Item.call name args) (ps ++ qs) := hname.append hargs

/-! ## Operands -/

/-- A span lies around the front of a stretch, as that of the leftmost operand of a tree does. -/
def SpansFront (left : Span) (ps : List Placed) : Prop :=
  ∃ qs rs, ps = qs ++ rs ∧ qs ≠ [] ∧ left = Span.around qs

theorem SpansFront.whole (hps : ps ≠ []) : SpansFront (Span.around ps) ps :=
  ⟨ps, [], (List.append_nil ps).symm, hps, rfl⟩

theorem SpansFront.append {left : Span} (h : SpansFront left ps) (rs : List Placed) :
    SpansFront left (ps ++ rs) := by
  obtain ⟨qs, qs', rfl, hne, hleft⟩ := h
  exact ⟨qs, qs' ++ rs, List.append_assoc .., hne, hleft⟩

/-- Two operands with a token between them are covered by the span of the leftmost operand of the
first one and the span of the second one. -/
theorem SpansFront.cover {left right : Span} {x : Placed} (h : SpansFront left ps)
    (hasc : Ascending (ps ++ x :: qs)) (hq : qs ≠ []) (hright : right = Span.around qs) :
    left.cover right = Span.around (ps ++ x :: qs) := by
  obtain ⟨rs, rs', rfl, hne, rfl⟩ := h
  have h' : Ascending (rs ++ (rs' ++ [x]) ++ qs) := by simpa using hasc
  rw [hright, h'.cover_around hne hq]
  simp

/-! ## Chains -/

section

variable {O T : Type} {ofKind? : Kind → Option O} {left : O → Nat} {right : O → Rule T} {power : Nat}

theorem accepts_linkOf_none (hs : s.Clear)
    (hk : ∀ op, ofKind? s.kind = some op → left op < power) :
    (linkOf ofKind? left right power).Accepts s [] none s := by
  unfold linkOf
  rw [accepts_ask_bind]
  split
  · next op hop =>
    rw [if_pos (hk op hop)]
    exact accepts_pure.2 ⟨hs, rfl, rfl, rfl⟩
  · exact accepts_pure.2 ⟨hs, rfl, rfl, rfl⟩

variable [∀ op, Lawful true (right op)] (hend : ofKind? .endOfInput = none)

include hend

/-- A link of a chain was read with its right operand, or no operator joins the chain. -/
theorem Rule.Accepts.of_linkOf {link : Option (ChainLink O T)}
    (h : (linkOf ofKind? left right power).Accepts s ps link t) :
    (∃ x qs op e, ps = x :: qs ∧ link = some ⟨op, x.1, e⟩ ∧ x.1.kind = s.kind ∧
        ofKind? s.kind = some op ∧ power ≤ left op ∧ (right op).Accepts s.bump qs e t) ∨
      (ps = [] ∧ link = none ∧ t = s ∧ ∀ op, ofKind? s.kind = some op → left op < power) := by
  unfold linkOf at h
  rw [accepts_ask_bind] at h
  split at h
  · next op hop =>
    split at h
    · next hlt =>
      obtain ⟨-, rfl, rfl, rfl⟩ := accepts_pure.1 h
      refine .inr ⟨rfl, rfl, rfl, fun op' hop' => ?_⟩
      obtain rfl := Option.some.inj (hop.symm.trans hop')
      exact hlt
    · next hge =>
      have hk : s.kind ≠ .endOfInput := fun hk => by
        rw [hk, hend] at hop
        cases hop
      obtain ⟨token, u, qs, rs, rfl, htoken, hrest⟩ := accepts_bind.1 h
      obtain ⟨e, he, rfl⟩ := accepts_bind_pure.1 hrest
      obtain ⟨x, rfl, rfl, hx, rfl⟩ := htoken.of_take hk
      exact .inl ⟨x, rs, op, e, rfl, rfl, hx, hop, Nat.le_of_not_lt hge, he⟩
  · next hnone =>
    obtain ⟨-, rfl, rfl, rfl⟩ := accepts_pure.1 h
    refine .inr ⟨rfl, rfl, rfl, fun op hop => ?_⟩
    rw [hnone] at hop
    cases hop

theorem optional_linkOf : Optional (linkOf ofKind? left right power) where
  progress h := by
    obtain ⟨x, qs, op, e, rfl, -⟩ | ⟨-, hn, -⟩ := h.of_linkOf hend
    · simp
    · simp at hn
  eq_of_none h := by
    obtain ⟨x, qs, op, e, -, hn, -⟩ | ⟨rfl, -, rfl, -⟩ := h.of_linkOf hend
    · simp at hn
    · exact ⟨rfl, rfl⟩
  atEnd hs hr := accepts_linkOf_none hs fun op hop => by
    rw [hs.kind_eq, hr, frontKind_nil, hend] at hop
    cases hop

/-- What holds of the first operand of a chain, and of a tree with one more link behind it, holds of
the chain. The operator behind a tree never binds more tightly than the tree. -/
theorem Rule.Accepts.of_chain {r : Rule T} [Lawful true r] {tight : T → Nat}
    {join : T → ChainLink O T → T} {D : T → List Placed → Prop} {top : Nat} {e : T}
    (hr : ∀ {e qs u}, r.Accepts s qs e u → D e qs ∧ tight e = top)
    (hlink : ∀ {u v x qs rs op e a}, s.Reads (qs ++ x :: rs) v → u.scope = s.scope → D e qs →
      ofKind? x.1.kind = some op → left op ≤ tight e → (right op).Accepts u rs a v →
      D (join e ⟨op, x.1, a⟩) (qs ++ x :: rs) ∧
        ∀ op', ofKind? v.kind = some op' → left op' ≤ left op)
    (hjoin : ∀ e link, tight (join e link) = left link.op) (htop : ∀ op, left op ≤ top)
    (hp : power ≤ top)
    (h : (do return List.foldl join (← r) (← many (linkOf ofKind? left right power)) :
      Rule T).Accepts s ps e t) :
    D e ps ∧ power ≤ tight e ∧ ∀ op, ofKind? t.kind = some op → left op < power := by
  have : Optional (linkOf ofKind? left right power) := optional_linkOf hend
  obtain ⟨first, u, qs, rs, rfl, hfirst, hrest⟩ := accepts_bind.1 h
  obtain ⟨links, hlinks, rfl⟩ := accepts_bind_pure.1 hrest
  have hrep := accepts_many.1 hlinks
  let I : T → List Placed → State → Prop := fun e ps u => s.Reads ps u ∧ D e ps ∧
    power ≤ tight e ∧ ∀ op, ofKind? u.kind = some op → left op ≤ tight e
  have hstart : I first qs u := by
    obtain ⟨hD, htight⟩ := hr hfirst
    exact ⟨hfirst.reads, hD, htight ▸ hp, fun op _ => htight ▸ htop op⟩
  have hstep (e : T) (ps : List Placed) (u : State) (link : ChainLink O T) (qs : List Placed)
      (v : State) (hI : I e ps u)
      (hl : (linkOf ofKind? left right power).Accepts u qs (some link) v) :
      I (join e link) (ps ++ qs) v := by
    obtain ⟨hreads, hD, -, hnext⟩ := hI
    obtain ⟨x, rs, op, a, rfl, hlink', hx, hop, hge, ha⟩ | ⟨-, hn, -⟩ := hl.of_linkOf hend
    · obtain rfl := Option.some.inj hlink'
      have hreads' := hreads.trans hl.reads
      obtain ⟨hD', hstop⟩ := hlink hreads' (u := u.bump) hreads.scope hD (hx ▸ hop) (hnext op hop) ha
      refine ⟨hreads', hD', ?_, ?_⟩ <;> rw [hjoin]
      · exact hge
      · exact hstop
    · cases hn
  obtain ⟨-, hD, hpower, -⟩ := hrep.foldl hstep hstart
  obtain ⟨x, qs, op, a, -, hn, -⟩ | ⟨-, -, -, hstop⟩ := hrep.last.of_linkOf hend
  · cases hn
  · exact ⟨hD, hpower, hstop⟩

end

/-! ## Values -/

section

variable {inner : Expressions} [inner.Lawful true] {n : Nat}

theorem Rule.Accepts.derives_value (hi : inner.Sound n) {v : ValueExpr}
    (h : (value inner).Accepts s ps v t) : Derives (s.context n) (.value v) ps := by
  unfold value at h
  obtain ⟨left, u, qs, rs, rfl, hleft, hrest⟩ := h.of_bind fun left => .bind fun compared => by
    split
    · refine .bind fun operator => ?_
      split <;> infer_instance
    · infer_instance
  obtain ⟨hly, -, -⟩ := hi.operator (by decide) hleft
  rw [accepts_at?_bind] at hrest
  split at hrest
  · next hk =>
    have hk' : u.kind = .comparison := eq_of_beq hk
    obtain ⟨token, w, qs', rs', rfl, htoken, hrest⟩ := hrest.of_bind fun operator => by
      split <;> infer_instance
    obtain ⟨x, rfl, rfl, hx, -⟩ := htoken.of_take (by simp [hk'])
    split at hrest
    · next op hop =>
      obtain ⟨right, hright, rfl⟩ := accepts_bind_pure.1 hrest
      obtain ⟨hry, -, -⟩ := hi.operator (by decide) hright
      rw [State.context_eq (htoken.scope.trans hleft.scope)] at hry
      have hm : (Terminal.comparison op x.1).Matches id x.1 := ⟨hx.trans hk', hop, rfl⟩
      have hitems := hly.append (.terminal hm hry)
      refine Yields.same_iff.2 ⟨trivial, hitems, fun _ => ?_⟩
      have hfront : SpansFront (Phrase.operator left).span qs :=
        hly.span_eq ▸ .whole hly.ne_nil_of_phrase
      exact hfront.cover h.reads.ascending hry.ne_nil_of_phrase hry.span_eq
    · exact absurd hrest not_accepts_giveUp
  · obtain ⟨-, rfl, rfl, -⟩ := accepts_pure.1 hrest
    rw [List.append_nil]
    exact Yields.same_iff.2 ⟨trivial, hly, fun _ => hly.span_eq⟩

theorem Rule.Accepts.derives_scalarArgument (hi : inner.Sound n) {a : ScalarArgument}
    (h : (scalarArgument inner).Accepts s ps a t) :
    Derives (s.context n) (.scalarArgument a) ps := by
  unfold scalarArgument at h
  rw [accepts_atAny?_bind, accepts_before?_bind] at h
  split at h
  · next hk =>
    simp only [Bool.and_eq_true, beq_iff_eq] at hk
    obtain ⟨value, hvalue, rfl⟩ := accepts_bind_pure.1 h
    exact (hvalue.derives_timeSpan hk.2).alone trivial rfl rfl
  · obtain ⟨v, hv, rfl⟩ := accepts_bind_pure.1 h
    exact (hv.derives_value hi).alone trivial rfl rfl

theorem Rule.Accepts.derives_primary (hi : inner.Sound n) {p : PrimaryExpr}
    (h : (primary inner).Accepts s ps p t) : Derives (s.context n) (.primary p) ps := by
  unfold primary at h
  rw [accepts_ask_bind] at h
  split at h
  · obtain ⟨a, ha, rfl⟩ := accepts_bind_pure.1 h
    exact ha.derives_constant.alone trivial rfl rfl
  split at h
  · refine h.derives_spanned fun f hf span => ⟨?_, ?_⟩
    all_goals obtain ⟨e, he, rfl⟩ := accepts_bind_pure.1 hf
    · rfl
    · obtain ⟨x, y, qs, u, v, rfl, hx, hy, he, hu⟩ := he.of_parenthesised
      obtain ⟨hey, -, -⟩ := hi.boolean (by decide) he
      rw [State.context_eq hu.scope] at hey
      exact ⟨trivial, yields_parentheses hx hey hy⟩
  split at h
  · next hk =>
    rw [accepts_before?_bind] at h
    split at h
    · refine h.derives_spanned fun f hf span => ?_
      obtain ⟨name, u, qs, rs, rfl, hname, hrest⟩ := accepts_bind.1 hf
      obtain ⟨args, hargs, rfl⟩ := accepts_bind_pure.1 hrest
      obtain ⟨hnamey, hplain⟩ := hname.derives_plainIdentifier (c := s.context n)
      refine ⟨rfl, hplain, yields_call hnamey (hargs.of_arguments fun s' ps e t hs' he => ?_)⟩
      obtain ⟨hey, -, -⟩ := hi.boolean (by decide) he
      rwa [State.context_eq (hs'.scope.trans hname.scope)] at hey
    · obtain ⟨q, hq, rfl⟩ := accepts_bind_pure.1 h
      exact hq.derives_qualifiedName.alone trivial rfl rfl
  · rw [accepts_ask_bind] at h
    exact absurd h not_accepts_noViable

/-! ## Arithmetic -/

/-- An arithmetic expression without an infix operator of its own. -/
def IsOperand (e : OperatorExpr) : Prop := e.power = Sign.power ∧ e.leftSpan = e.span

theorem Rule.Accepts.derives_operand (hi : inner.Sound n) {e : OperatorExpr}
    (h : (operand inner).Accepts s ps e t) :
    Derives (s.context n) (.operator e) ps ∧ IsOperand e := by
  unfold operand at h
  rw [accepts_ask_bind] at h
  split at h
  · next sign hsign =>
    have hk := Sign.ofKind?_eq_some_iff.1 hsign
    refine h.derives_spanned_and fun f hf span => ?_
    obtain ⟨token, u, qs, rs, rfl, htoken, hrest⟩ := accepts_bind.1 hf
    obtain ⟨e, he, rfl⟩ := accepts_bind_pure.1 hrest
    obtain ⟨x, rfl, rfl, hx, -⟩ := htoken.of_take (by rw [hk]; cases sign <;> decide)
    obtain ⟨hey, hpower, -⟩ := hi.operator (Nat.le_refl _) he
    rw [State.context_eq htoken.scope] at hey
    have hm : (Terminal.kept [sign.kind] x.1).Matches id x.1 := ⟨by simp [hx, hk], rfl⟩
    refine ⟨by simp [Phrase.span, OperatorExpr.span], hpower, .terminal hm hey, rfl, ?_⟩
    simp [OperatorExpr.leftSpan, OperatorExpr.span]
  split at h
  · next hk =>
    refine h.derives_spanned_and fun f hf span => ?_
    obtain ⟨name, u, qs, rs, rfl, hname, hrest⟩ := accepts_bind.1 hf
    obtain ⟨args, hargs, rfl⟩ := accepts_bind_pure.1 hrest
    obtain ⟨hnamey, hnk⟩ := hname.derives_takeIdentifier (c := s.context n) (by rw [hk]; rfl)
    have hargsy := hargs.of_arguments (c := s.context n) (f := fun a => .same (.fieldArgument a))
      fun s' ps a t hs' ha => ha.derives_fieldArgument
    refine ⟨by simp [Phrase.span, OperatorExpr.span], hnk.trans hk, yields_call hnamey hargsy,
      rfl, ?_⟩
    simp [OperatorExpr.leftSpan, OperatorExpr.span]
  split at h
  · next hk =>
    refine h.derives_spanned_and fun f hf span => ?_
    obtain ⟨name, u, qs, rs, rfl, hname, hrest⟩ := accepts_bind.1 hf
    obtain ⟨args, hargs, rfl⟩ := accepts_bind_pure.1 hrest
    obtain ⟨hnamey, hnk⟩ := hname.derives_takeIdentifier (c := s.context n) (by rw [hk]; rfl)
    have hargsy := hargs.of_arguments (c := s.context n) (f := fun a => .same (.scalarArgument a))
      fun s' ps a t hs' ha => by
        have hay := ha.derives_scalarArgument hi
        rwa [State.context_eq (hs'.scope.trans hname.scope)] at hay
    refine ⟨by simp [Phrase.span, OperatorExpr.span], hnk.trans hk, yields_call hnamey hargsy,
      rfl, ?_⟩
    simp [OperatorExpr.leftSpan, OperatorExpr.span]
  split at h
  · obtain ⟨p, hp, rfl⟩ := accepts_bind_pure.1 h
    exact ⟨(hp.derives_primary hi).alone trivial rfl (by simp [Phrase.span, OperatorExpr.span]),
      rfl, by simp [OperatorExpr.leftSpan, OperatorExpr.span]⟩
  · rw [accepts_ask_bind] at h
    exact absurd h not_accepts_noViable

omit [inner.Lawful true] in
theorem accepts_operatorLink_none {power : Nat} (hs : s.Clear)
    (hk : ∀ op, ArithmeticOp.ofKind? s.kind = some op → op.leftPower < power) :
    (operatorLink inner power).Accepts s [] none s :=
  accepts_linkOf_none hs hk

instance (power : Nat) : Optional (operatorLink inner power) := optional_linkOf rfl

omit [inner.Lawful true] in
/-- A tree in front of an operator that binds no more tightly is its left operand. -/
theorem Rule.Accepts.extends_operator (hi : inner.Sound n) {start u : State} {op : ArithmeticOp}
    {e right : OperatorExpr} {x : Placed} (hreads : start.Reads (ps ++ x :: qs) t)
    (hscope : u.scope = start.scope)
    (he : Derives (start.context n) (.operator e) ps ∧ SpansFront e.leftSpan ps)
    (hx : ArithmeticOp.ofKind? x.1.kind = some op) (hle : op.leftPower ≤ e.power)
    (h : (inner.operator op.rightPower).Accepts u qs right t) :
    (Derives (start.context n) (.operator (.binary op x.1 e right)) (ps ++ x :: qs) ∧
        SpansFront (OperatorExpr.binary op x.1 e right).leftSpan (ps ++ x :: qs)) ∧
      ∀ op', ArithmeticOp.ofKind? t.kind = some op' → op'.leftPower ≤ op.leftPower := by
  obtain ⟨hey, hfront⟩ := he
  obtain ⟨hry, hrpower, hstop⟩ := hi.operator (by cases op <;> decide) h
  rw [State.context_eq hscope] at hry
  have hm : (Terminal.kept [op.kind] x.1).Matches id x.1 :=
    ⟨by simp [ArithmeticOp.ofKind?_eq_some_iff.1 hx], rfl⟩
  refine ⟨⟨Yields.same_iff.2 ⟨⟨hle, hrpower⟩, hey.append (.terminal hm hry), fun _ => ?_⟩, ?_⟩,
    fun op' hop' => Nat.le_of_lt_succ (hstop op' hop')⟩
  · simp only [Phrase.span, OperatorExpr.span]
    exact hfront.cover hreads.ascending hry.ne_nil_of_phrase hry.span_eq
  · simp only [OperatorExpr.leftSpan]
    exact hfront.append _

theorem Rule.Accepts.derives_operatorChain (hi : inner.Sound n) {power : Nat}
    (hp : power ≤ Sign.power) {e : OperatorExpr}
    (h : (operatorChain inner power).Accepts s ps e t) :
    Derives (s.context n) (.operator e) ps ∧ power ≤ e.power ∧
      ∀ op, ArithmeticOp.ofKind? t.kind = some op → op.leftPower < power := by
  have hfirst {e : OperatorExpr} {qs : List Placed} {u : State}
      (h : (operand inner).Accepts s qs e u) :
      (Derives (s.context n) (.operator e) qs ∧ SpansFront e.leftSpan qs) ∧
        e.power = Sign.power := by
    obtain ⟨hy, hpower, hspan⟩ := h.derives_operand hi
    exact ⟨⟨hy, hspan.trans hy.span_eq ▸ .whole hy.ne_nil_of_phrase⟩, hpower⟩
  unfold operatorChain at h
  obtain ⟨⟨hy, -⟩, hpower, hstop⟩ := h.of_chain rfl hfirst
    (fun hreads hscope he hx hle hright => hright.extends_operator hi hreads hscope he hx hle)
    (fun _ _ => rfl) (fun op => by cases op <;> decide) hp
  exact ⟨hy, hpower, hstop⟩

end

end PipeQuery.Grammar
