import PipeQuery.Proofs.SoundQuery

/-!
# Spans in order

Whatever is read, with diagnostics or without, the span of what a rule answers lies between the place
where the rule begins and the place where it ends. So the spans of the operands of a chain, or of the
stages of a pipeline, come one behind the other. The span of a chain is looked up at its first operand
and its last one, and as the operands are in order, it is the span of all that is to the left of the
last operand, together with the span of that operand (`Span.Leads.cover_eq`).

`Rule.From m r P` says that a run of `r` which begins at place `m` or behind it answers what `P` asks
for, given the place where it ends.
-/

namespace PipeQuery

/-! ## Spans between places -/

/-- A span that does not turn back and lies between two places. -/
structure Span.Between (i j : Nat) (s : Span) : Prop where
  /-- It begins at the first place or behind it. -/
  low : i ≤ s.start
  /-- It does not turn back. -/
  le : s.start ≤ s.stop
  /-- It stops at the second place or in front of it. -/
  high : s.stop ≤ j

/-- A span between two places that begins where the span of its leftmost part does. -/
structure Span.Leads (i j : Nat) (left span : Span) : Prop where
  /-- The leftmost part lies behind the first place. -/
  low : i ≤ left.start
  /-- The leftmost part does not turn back. -/
  le : left.start ≤ left.stop
  /-- Both begin at the same place. -/
  start : span.start = left.start
  /-- The whole stops no earlier than its leftmost part. -/
  stop : left.stop ≤ span.stop
  /-- The whole lies in front of the second place. -/
  high : span.stop ≤ j

namespace Span

variable {i i' j j' m : Nat} {s t left span right : Span}

theorem Between.places (h : s.Between i j) : i ≤ j := Nat.le_trans h.low (Nat.le_trans h.le h.high)

theorem Between.mono (h : s.Between i j) (hi : i' ≤ i) (hj : j ≤ j') : s.Between i' j' :=
  ⟨Nat.le_trans hi h.low, h.le, Nat.le_trans h.high hj⟩

theorem Between.cover (hs : s.Between i j) (ht : t.Between i j) : (s.cover t).Between i j := by
  refine ⟨Nat.le_min.2 ⟨hs.low, ht.low⟩, ?_, Nat.max_le.2 ⟨hs.high, ht.high⟩⟩
  exact Nat.le_trans (Nat.min_le_left ..) (Nat.le_trans hs.le (Nat.le_max_left ..))

/-- What is no chain is its own leftmost part. -/
theorem Between.leads (h : s.Between i j) : Leads i j s s := ⟨h.low, h.le, rfl, Nat.le_refl _, h.high⟩

namespace Leads

theorem between (h : Leads i j left span) : span.Between i j where
  low := h.start ▸ h.low
  le := h.start ▸ Nat.le_trans h.le h.stop
  high := h.high

theorem mono (h : Leads i j left span) (hi : i' ≤ i) (hj : j ≤ j') : Leads i' j' left span :=
  ⟨Nat.le_trans hi h.low, h.le, h.start, h.stop, Nat.le_trans h.high hj⟩

/-- What comes behind a chain makes a longer chain of it. -/
theorem cover (h : Leads i m left span) (hr : right.Between m j) :
    Leads i j left (left.cover right) := by
  have hle : left.start ≤ right.start :=
    Nat.le_trans h.le (Nat.le_trans h.stop (Nat.le_trans h.high hr.low))
  refine ⟨h.low, h.le, Nat.min_eq_left hle, Nat.le_max_left .., Nat.max_le.2 ⟨?_, hr.high⟩⟩
  exact Nat.le_trans h.stop (Nat.le_trans h.high
    (Nat.le_trans hr.low (Nat.le_trans hr.le hr.high)))

/-- The leftmost part and what comes behind the chain cover the same as the chain and what comes
behind it. -/
theorem cover_eq (h : Leads i m left span) (hr : right.Between m j) :
    left.cover right = span.cover right := by
  have hspan : span.stop ≤ right.stop := Nat.le_trans h.high (Nat.le_trans hr.low hr.le)
  rw [Span.cover, Span.cover, h.start, Nat.max_eq_right hspan,
    Nat.max_eq_right (Nat.le_trans h.stop hspan)]

end Leads

end Span

/-- Spans one behind the other between two places. -/
inductive Strung (j : Nat) : Nat → List Span → Prop
  | nil {i : Nat} (le : i ≤ j) : Strung j i []
  | cons {i m : Nat} {s : Span} {ss : List Span} (first : s.Between i m) (rest : Strung j m ss) :
    Strung j i (s :: ss)

theorem Strung.append_singleton {i j m : Nat} {s : Span} {ss : List Span} (h : Strung m i ss)
    (hs : s.Between m j) : Strung j i (ss ++ [s]) := by
  induction h with
  | nil le => exact .cons (hs.mono le (Nat.le_refl _)) (.nil (Nat.le_refl _))
  | cons first _ ih => exact .cons first ih

theorem Strung.mono {i j j' : Nat} {ss : List Span} (h : Strung j i ss) (hj : j ≤ j') :
    Strung j' i ss := by
  induction h with
  | nil le => exact .nil (Nat.le_trans le hj)
  | cons first _ ih => exact .cons first ih

/-! ## Chains -/

/-- The span of a chain of infix operators, and of each chain in it, covers its two sides. -/
def OperatorExpr.Covered : OperatorExpr → Prop
  | .binary op operator left right =>
    (OperatorExpr.binary op operator left right).span = left.span.cover right.span ∧ left.Covered
  | _ => True

/-- The span of a chain of connectives, and of each chain in it, covers its two sides. -/
def BooleanExpr.Covered : BooleanExpr → Prop
  | .connective op left operator right =>
    (BooleanExpr.connective op left operator right).span = left.span.cover right.span ∧ left.Covered
  | _ => True

/-- The span of a pipeline, and of each pipeline in it, covers its two sides. -/
def Query.Covered : Query → Prop
  | .pipe query bar command =>
    (Query.pipe query bar command).span = query.span.cover command.span ∧ query.Covered
  | .source _ => True

/-- An arithmetic expression with its spans in order, between two places. -/
structure OperatorExpr.InOrder (i j : Nat) (e : OperatorExpr) : Prop where
  leads : Span.Leads i j e.leftSpan e.span
  covered : e.Covered

/-- A condition with its spans in order, between two places. -/
structure BooleanExpr.InOrder (i j : Nat) (e : BooleanExpr) : Prop where
  leads : Span.Leads i j e.leftSpan e.span
  covered : e.Covered

/-- A pipeline with its spans in order, between two places. -/
structure Query.InOrder (i j : Nat) (q : Query) : Prop where
  leads : Span.Leads i j q.sourceCommand.span q.span
  covered : q.Covered

theorem OperatorExpr.InOrder.binary {i j m : Nat} {left right : OperatorExpr}
    (h : left.InOrder i m) (hr : right.span.Between m j) (op : ArithmeticOp) (operator : Token) :
    (OperatorExpr.binary op operator left right).InOrder i j where
  leads := by
    rw [leftSpan, span]
    exact h.leads.cover hr
  covered := by
    rw [Covered, span]
    exact ⟨h.leads.cover_eq hr, h.covered⟩

theorem BooleanExpr.InOrder.connective {i j m : Nat} {left right : BooleanExpr}
    (h : left.InOrder i m) (hr : right.span.Between m j) (op : Connective) (operator : Token) :
    (BooleanExpr.connective op left operator right).InOrder i j where
  leads := by
    rw [leftSpan, span]
    exact h.leads.cover hr
  covered := by
    rw [Covered, span]
    exact ⟨h.leads.cover_eq hr, h.covered⟩

theorem Query.InOrder.pipe {i j m : Nat} {q : Query} {command : ProcessingCommand}
    (h : q.InOrder i m) (hc : command.span.Between m j) (bar : Token) :
    (Query.pipe q bar command).InOrder i j where
  leads := h.leads.cover hc
  covered := ⟨h.leads.cover_eq hc, h.covered⟩

theorem OperatorExpr.InOrder.ofChain {i j m : Nat} {first : OperatorExpr}
    {links : List (ChainLink ArithmeticOp OperatorExpr)} (h : first.InOrder i m)
    (hl : Strung j m (links.map fun link => link.right.span)) :
    (OperatorExpr.ofChain first links).InOrder i j := by
  induction links generalizing first m with
  | nil =>
    cases hl with
    | nil le => exact ⟨h.leads.mono (Nat.le_refl _) le, h.covered⟩
  | cons link links ih =>
    cases hl with
    | cons hr rest => exact ih (h.binary hr link.op link.operator) rest

theorem BooleanExpr.InOrder.ofChain {i j m : Nat} {first : BooleanExpr}
    {links : List (ChainLink Connective BooleanExpr)} (h : first.InOrder i m)
    (hl : Strung j m (links.map fun link => link.right.span)) :
    (BooleanExpr.ofChain first links).InOrder i j := by
  induction links generalizing first m with
  | nil =>
    cases hl with
    | nil le => exact ⟨h.leads.mono (Nat.le_refl _) le, h.covered⟩
  | cons link links ih =>
    cases hl with
    | cons hr rest => exact ih (h.connective hr link.op link.operator) rest

/-! ## Places -/

/-- Reading goes forward. -/
theorem TokenStream.Valid.position_le {s t : TokenStream} {ps : List Placed} (hs : s.Valid)
    (h : s.Reads ps t) : s.position ≤ t.position := by
  by_cases hps : ps = []
  · rw [hps] at h
    exact Nat.le_of_eq (congrArg position h.eq_of_nil.symm)
  · have hprevious := h.previous_of_ne_nil hps
    have hstop := Span.stop_around hps
    have hlt := (hs.reads h).previous_lt_position hprevious
    have hasc := hs.ascending_rest
    rw [h.rest] at hasc
    have hspan := hasc.left.start_lt_stop hps
    have hposition := TokenStream.Valid.position_eq h hps
    omega

namespace Grammar

open Rule State

variable {α β : Type} {s t : State} {m : Nat}

theorem State.Steps.position_le {recording : Bool} (h : Steps recording s t) (hs : s.Regular) :
    s.position ≤ t.position := by
  obtain ⟨ps, hps⟩ := h.reads
  exact hs.valid.position_le hps

/-- What was read since a place lies between that place and the next token. -/
theorem State.between_spanFrom {start : Nat} (hs : s.Regular) (hstart : start ≤ s.position) :
    (s.spanFrom start).Between start s.position := by
  unfold State.spanFrom
  split
  · exact ⟨Nat.le_refl _, Nat.le_refl _, hstart⟩
  · next i hi =>
    have hlt : i < s.position := hs.valid.previous_lt_position hi
    exact ⟨Nat.le_refl _, Nat.le_max_right .., Nat.max_le.2 ⟨hlt, hstart⟩⟩

/-- A run that begins at the place `m` or behind it, and ends at the place `j`, answers a value as
`P j` asks for. -/
def Rule.From (m : Nat) (r : Rule α) (P : Nat → α → Prop) : Prop :=
  ∀ s t a, s.Regular → m ≤ s.position → r.run s = (some a, t) → P t.position a

/-- The span of the value lies between the places where the run begins and ends. -/
abbrev Rule.Between (m : Nat) (r : Rule α) (span : α → Span) : Prop :=
  r.From m fun j a => (span a).Between m j

namespace Rule.From

variable {r : Rule α} {P : Nat → α → Prop} {Q : Nat → β → Prop}

theorem mono {P' : Nat → α → Prop} (h : r.From m P) (hP : ∀ j a, P j a → P' j a) : r.From m P' :=
  fun s t a hs hm hrun => hP _ a (h s t a hs hm hrun)

theorem pure {a : α} (h : ∀ j, m ≤ j → P j a) : (pure a : Rule α).From m P := by
  intro s t b _ hm hrun
  simp only [run_pure, Prod.mk.injEq, Option.some.injEq] at hrun
  obtain ⟨rfl, rfl⟩ := hrun
  exact h _ hm

theorem giveUp {f : State → State} : (giveUp f : Rule α).From m P := by
  intro s t a _ _ hrun
  simp at hrun

theorem ite {c : Prop} [Decidable c] {r' : Rule α} (h : r.From m P) (h' : r'.From m P) :
    (if c then r else r').From m P := by
  split
  · exact h
  · exact h'

/-- The second rule begins where the first one ends. -/
theorem bind [Lawful true r] {f : α → Rule β} (hr : r.From m P)
    (hf : ∀ a j, m ≤ j → P j a → (f a).From j Q) : (r >>= f).From m Q := by
  intro s t b hs hm hrun
  obtain ⟨a, u, hra, hrun⟩ := run_bind_eq_some.1 hrun
  have hsteps : s.Steps true (r.run s).2 := Lawful.steps s
  rw [hra] at hsteps
  have hu := Nat.le_trans hm (hsteps.position_le hs)
  exact hf a u.position hu (hr s u a hs hm hra) u t b (hsteps.regular hs) (Nat.le_refl _) hrun

theorem trivial (m : Nat) (r : Rule α) : r.From m fun _ _ => True := fun _ _ _ _ _ _ => True.intro

/-- A rule that goes on without a condition on the value in front of it. -/
theorem next [Lawful true r] {f : α → Rule β} (hf : ∀ a, (f a).From m Q) : (r >>= f).From m Q :=
  (trivial m r).bind fun a _ hj _ s t b hs hm hrun => hf a s t b hs (Nat.le_trans hj hm) hrun

theorem map {f : α → β} (hr : r.From m P) (hf : ∀ j a, P j a → Q j (f a)) :
    (r >>= fun a => Pure.pure (f a)).From m Q := by
  intro s t b hs hm hrun
  obtain ⟨a, hra, rfl⟩ := run_bind_pure_eq_some.1 hrun
  exact hf _ a (hr s t a hs hm hra)

theorem spanned {r : Rule (Span → α)} [hl : Lawful true (spanned r)]
    (h : r.From m fun j f => ∀ span : Span, span.Between m j → P j (f span)) :
    (spanned r).From m P := by
  intro s t a hs hm hrun
  have hsteps : s.Steps true ((Grammar.spanned r).run s).2 := hl.steps s
  rw [hrun] at hsteps
  obtain ⟨f, hrf, rfl⟩ := run_spanned_eq_some.1 hrun
  have hspan := State.between_spanFrom (hsteps.regular hs) (hsteps.position_le hs)
  exact h s t f hs hm hrf _ (hspan.mono hm (Nat.le_refl _))

/-- The span of a rule whose value takes the span of its tokens. -/
theorem ofSpanned {r : Rule (Span → α)} [Lawful true (Grammar.spanned r)] {span : α → Span}
    (h : r.From m fun _ f => ∀ σ, span (f σ) = σ) : (Grammar.spanned r).Between m span :=
  spanned (h.mono fun _ _ hf σ hσ => (hf σ).symm ▸ hσ)

theorem askSpan {start : Nat} (hstart : start ≤ m) {f : Span → α}
    (h : ∀ j span, m ≤ j → span.Between start j → P j (f span)) :
    (ask fun s => f (s.spanFrom start)).From m P := by
  intro s t a hs hm hrun
  simp only [run_ask, Prod.mk.injEq, Option.some.injEq] at hrun
  obtain ⟨rfl, rfl⟩ := hrun
  exact h _ _ hm (State.between_spanFrom hs (Nat.le_trans hstart hm))

theorem position : (ask (·.position)).From m fun j i => m ≤ i ∧ i = j := by
  intro s t a hs hm hrun
  simp only [run_ask, Prod.mk.injEq, Option.some.injEq] at hrun
  obtain ⟨rfl, rfl⟩ := hrun
  exact ⟨hm, rfl⟩

/-- The right operand of a link is as its rule answers it. -/
theorem linkOf {O T : Type} {ofKind? : Kind → Option O} {left : O → Nat} {right : O → Rule T}
    {R : Nat → T → Prop} (power : Nat) (hr : ∀ op, (right op).From m R) :
    (linkOf ofKind? left right power).From m fun j o => ∀ link ∈ o, R j link.right := by
  unfold Grammar.linkOf
  refine next fun kind => ?_
  split
  · next op _ =>
    exact ite (pure (by simp)) (next fun token => (hr op).map fun j a ha => by simpa using ha)
  · exact pure (by simp)

/-- The spans of repeated values come one behind the other. -/
theorem many {r : Rule (Option α)} [Lawful true r] (span : α → Span)
    (h : ∀ m, r.From m fun j o => ∀ a ∈ o, (span a).Between m j) :
    (many r).From m fun j as => Strung j m (as.map span) := by
  have hupTo (n : Nat) : ∀ (values : List α) (k : Nat), Strung k m (values.reverse.map span) →
      (upTo r n values).From k fun j as => Strung j m (as.map span) := by
    induction n with
    | zero =>
      intro values k hv
      exact pure fun j hj => hv.mono hj
    | succ n ih =>
      intro values k hv
      rw [upTo_succ]
      refine (h k).bind fun o j hj ho => ?_
      cases o with
      | none => exact pure fun j' hj' => hv.mono (Nat.le_trans hj hj')
      | some a =>
        refine ih (a :: values) j ?_
        rw [List.reverse_cons, List.map_append]
        exact hv.append_singleton (ho a rfl)
  intro s t as hs hm hrun
  exact hupTo s.stream.remaining [] m (.nil (Nat.le_refl _)) s t as hs hm hrun

end Rule.From

/-! ## Names and constants -/

theorem between_qualifiedName : qualifiedName.Between m QualifiedName.span := by
  unfold qualifiedName
  exact From.ofSpanned ((From.trivial m _).map fun _ _ _ _ => rfl)

theorem between_numberOf (kinds : KindSet) : (numberOf kinds).Between m NumericValue.span := by
  unfold numberOf
  exact From.ofSpanned (From.next fun token => From.pure fun _ _ _ => rfl)

theorem between_string : string.Between m StringLiteral.span := by
  unfold string
  exact From.ofSpanned (From.next fun token => From.pure fun _ _ _ => rfl)

theorem between_truthValue : truthValue.Between m BooleanValue.span := by
  unfold truthValue
  exact From.ofSpanned (From.next fun token => From.pure fun _ _ _ => rfl)

theorem between_constantList : constantList.Between m Constant.span := by
  have elements (start : Nat) : (elements start).From m fun _ f => ∀ σ, (f σ).span = σ := by
    unfold elements
    refine From.next fun kind => ?_
    split
    · exact (From.trivial m _).map fun _ _ _ _ => rfl
    · exact (From.trivial m _).map fun _ _ _ _ => rfl
    · exact (From.trivial m _).map fun _ _ _ _ => rfl
    · exact (From.trivial m _).map fun _ _ _ _ => rfl
    · exact From.giveUp
  unfold constantList
  exact From.ofSpanned (From.next fun start => From.next fun _ => (elements start).bind
    fun f _ _ hf => From.next fun _ => From.pure fun _ _ => hf)

theorem between_constant : constant.Between m Constant.span := by
  unfold constant
  refine From.next fun kind => ?_
  split
  · exact From.ofSpanned (From.next fun _ => From.pure fun _ _ _ => rfl)
  · exact between_truthValue.map fun _ _ h => h
  · exact between_string.map fun _ _ h => h
  · exact between_constantList
  · exact (between_numberOf numbers).map fun _ _ h => h
  · exact (between_numberOf numbers).map fun _ _ h => h
  · exact From.next fun start => From.giveUp

/-! ## Expressions -/

/-- Expressions one level deeper have their spans in order. -/
structure Expressions.InOrder (inner : Expressions) : Prop where
  boolean (power m : Nat) : (inner.boolean power).From m fun j e => e.InOrder m j
  operator (power m : Nat) : (inner.operator power).From m fun j e => e.InOrder m j

section

variable {inner : Expressions} [inner.Lawful true]

theorem between_value (hi : inner.InOrder) : (value inner).Between m ValueExpr.span := by
  unfold value
  refine (hi.operator 0 m).bind fun left j hj hleft => From.next fun _ => From.ite ?_ ?_
  · refine From.next fun operator => ?_
    split
    · refine (hi.operator 0 j).map fun k right hright => ?_
      have hr := hright.leads.between
      exact (hleft.leads.between.mono (Nat.le_refl _) hr.places).cover (hr.mono hj (Nat.le_refl _))
    · exact From.giveUp
  · exact From.pure fun k hk => hleft.leads.between.mono (Nat.le_refl _) hk

theorem between_primary : (primary inner).Between m PrimaryExpr.span := by
  unfold primary
  refine From.next fun kind => From.ite ?_ (From.ite ?_ (From.ite ?_ ?_))
  · exact between_constant.map fun _ _ h => h
  · exact From.ofSpanned ((From.trivial m _).map fun _ _ _ _ => rfl)
  · refine From.next fun _ => From.ite ?_ ?_
    · exact From.ofSpanned (From.next fun _ => (From.trivial m _).map fun _ _ _ _ => rfl)
    · exact between_qualifiedName.map fun _ _ h => h
  · exact From.next fun start => From.giveUp

theorem inOrder_operand : (operand inner).From m fun j e => e.InOrder m j := by
  unfold operand
  refine From.next fun kind => ?_
  split
  · exact From.spanned (From.next fun token => (From.trivial m _).map fun _ e _ span hspan =>
      ⟨by simpa [OperatorExpr.span, OperatorExpr.leftSpan] using hspan.leads, trivial⟩)
  · refine From.ite ?_ (From.ite ?_ (From.ite ?_ ?_))
    · exact From.spanned (From.next fun name => (From.trivial m _).map fun _ args _ span hspan =>
        ⟨by simpa [OperatorExpr.span, OperatorExpr.leftSpan] using hspan.leads, trivial⟩)
    · exact From.spanned (From.next fun name => (From.trivial m _).map fun _ args _ span hspan =>
        ⟨by simpa [OperatorExpr.span, OperatorExpr.leftSpan] using hspan.leads, trivial⟩)
    · exact between_primary.map fun _ p hp =>
        ⟨by simpa [OperatorExpr.span, OperatorExpr.leftSpan] using hp.leads, trivial⟩
    · exact From.next fun start => From.giveUp

theorem inOrder_operatorChain (hi : inner.InOrder) (power : Nat) :
    (operatorChain inner power).From m fun j e => e.InOrder m j := by
  have link (m : Nat) : (operatorLink inner power).From m fun j o =>
      ∀ l ∈ o, l.right.span.Between m j := by
    exact From.linkOf (R := fun j (e : OperatorExpr) => e.span.Between m j) power fun op =>
      (hi.operator op.rightPower m).mono fun _ _ h => h.leads.between
  unfold operatorChain
  refine inOrder_operand.bind fun first j _ hfirst => ?_
  exact (From.many (fun l => l.right.span) link).map fun k links hlinks =>
    hfirst.ofChain hlinks

theorem inOrder_test {start : Nat} (hstart : start ≤ m) {tested : ValueExpr}
    (ht : tested.span.Between start m) :
    (test inner start tested).From m fun j e => e.InOrder start j := by
  unfold test
  refine From.next fun negation => From.next fun kind => From.ite ?_ ?_
  · refine From.next fun _ => From.next fun items => From.askSpan hstart fun j span _ hspan => ?_
    exact ⟨by simpa [BooleanExpr.span, BooleanExpr.leftSpan] using hspan.leads, trivial⟩
  · split
    · refine From.next fun _ => From.next fun literal => From.askSpan hstart fun j span _ hspan => ?_
      exact ⟨by simpa [BooleanExpr.span, BooleanExpr.leftSpan] using hspan.leads, trivial⟩
    · refine From.pure fun j hj => ⟨?_, trivial⟩
      simpa [BooleanExpr.span, BooleanExpr.leftSpan] using (ht.mono (Nat.le_refl _) hj).leads

theorem inOrder_condition (hi : inner.InOrder) :
    (condition inner).From m fun j e => e.InOrder m j := by
  unfold condition
  refine From.next fun kind => From.next fun scope => From.ite ?_ (From.ite ?_ (From.ite ?_ ?_))
  · exact From.spanned (From.next fun token => (From.trivial m _).map fun _ e _ span hspan =>
      ⟨by simpa [BooleanExpr.span, BooleanExpr.leftSpan] using hspan.leads, trivial⟩)
  · have hcall : predicateCall.Between m PredicateCall.span := by
      unfold predicateCall
      exact From.ofSpanned (From.next fun name => (From.trivial m _).map fun _ _ _ _ => rfl)
    exact hcall.map fun _ call h =>
      ⟨by simpa [BooleanExpr.span, BooleanExpr.leftSpan] using h.leads, trivial⟩
  · refine From.position.bind fun start j _ hstart => ?_
    obtain ⟨hm, rfl⟩ := hstart
    refine (between_value hi).bind fun tested k hk ht => From.ite ?_ ?_
    · exact (inOrder_test hk ht).mono fun l e he => ⟨he.leads.mono hm (Nat.le_refl _), he.covered⟩
    · refine From.pure fun l hl => ⟨?_, trivial⟩
      simpa [BooleanExpr.span, BooleanExpr.leftSpan] using (ht.mono hm hl).leads
  · exact From.next fun start => From.giveUp

theorem inOrder_connectiveChain (hi : inner.InOrder) (power : Nat) :
    (connectiveChain inner power).From m fun j e => e.InOrder m j := by
  have link (m : Nat) : (connectiveLink inner power).From m fun j o =>
      ∀ l ∈ o, l.right.span.Between m j := by
    exact From.linkOf (R := fun j (e : BooleanExpr) => e.span.Between m j) power fun op =>
      (hi.boolean op.rightPower m).mono fun _ _ h => h.leads.between
  unfold connectiveChain
  refine (inOrder_condition hi).bind fun first j _ hfirst => ?_
  exact (From.many (fun l => l.right.span) link).map fun k links hlinks =>
    hfirst.ofChain hlinks

end

theorem inOrder_expressions (n : Nat) : (expressions n).InOrder := by
  induction n with
  | zero => exact ⟨fun _ _ => From.giveUp, fun _ _ => From.giveUp⟩
  | succ n ih =>
    exact ⟨fun power _ => inOrder_connectiveChain ih power,
      fun power _ => inOrder_operatorChain ih power⟩

/-! ## Commands -/

section

variable {inner : Expressions} [inner.Lawful true]

theorem between_processingCommand :
    (processingCommand inner).Between m ProcessingCommand.span := by
  have hl : Lawful true (processingCommand inner) := inferInstance
  unfold processingCommand at hl ⊢
  refine From.ofSpanned (From.next fun noted => From.next fun kind => ?_)
  split
  · next clause hclause =>
    have := lawful_processingClause inner true hclause
    exact From.next fun keyword => (From.trivial m _).map fun _ _ _ _ => rfl
  · exact From.next fun start => From.giveUp

theorem between_sourceCommand {query : Rule Query} [Lawful true query] :
    (sourceCommand inner query).Between m SourceCommand.span := by
  have hl : Lawful true (sourceCommand inner query) := inferInstance
  unfold sourceCommand at hl ⊢
  refine From.ofSpanned (From.next fun noted => From.next fun start => From.next fun kind => ?_)
  split
  · exact From.next fun keyword => (From.trivial m _).map fun _ _ _ _ => rfl
  · exact From.next fun keyword => (From.trivial m _).map fun _ _ _ _ => rfl
  · exact From.next fun keyword => (From.trivial m _).map fun _ _ _ _ => rfl
  · refine From.next fun next => ?_
    split
    · exact From.next fun keyword => From.next fun _ => From.pure fun _ _ _ => rfl
    · exact From.next fun _ => From.giveUp
  · exact From.giveUp

/-- A stage has its span between the places where it begins and ends, be it a command or an error. -/
theorem between_stage {r : Rule α} [hl : Lawful true r] {kind : Kind} {span : α → Span}
    {error : Span → α} (hr : r.Between s.position span) (herror : ∀ σ, span (error σ) = σ)
    (hs : s.Regular) :
    (span (stage r kind span error s).1).Between s.position (stage r kind span error s).2.position := by
  have hsteps := hl.steps s
  obtain ⟨a, t, hrun, hstage⟩ | ⟨t, hrun, hstage⟩ := stage_cases r kind span error s
  · rw [hstage]
    exact hr s t a hs (Nat.le_refl _) hrun
  · rw [hrun] at hsteps
    rw [hstage, herror]
    have hpass : s.Steps true (t.passOver t.stream.remaining) :=
      hsteps.trans (steps_passOver t.stream.remaining t)
    change ((t.passOver t.stream.remaining).spanFrom s.position).Between s.position
      (t.passOver t.stream.remaining).position
    exact State.between_spanFrom (hpass.regular hs) (hpass.position_le hs)

theorem inOrder_stagesUpTo {i : Nat} {first : SourceCommand} (n : Nat)
    {stages : List (Token × ProcessingCommand)}
    (hq : (Query.ofStages first stages.reverse).InOrder i s.position) (hs : s.Regular) :
    (Query.ofStages first (stagesUpTo inner n stages s).1).InOrder i
      (stagesUpTo inner n stages s).2.position := by
  induction n generalizing stages s with
  | zero => exact hq
  | succ n ih =>
    rw [stagesUpTo]
    split
    · have hbump : s.Steps true s.bump := .single (.bump s)
      have hsteps := steps_processingStage inner s.bump
      refine ih ?_ (hsteps.regular (hbump.regular hs))
      have hstage : (processingStage inner s.bump).1.span.Between s.bump.position
          (processingStage inner s.bump).2.position :=
        between_stage between_processingCommand (fun _ => rfl) (hbump.regular hs)
      rw [List.reverse_cons, Query.ofStages_append_singleton]
      exact hq.pipe (hstage.mono (hbump.position_le hs) (Nat.le_refl _)) _
    · split
      · exact hq
      · have hsteps := steps_skipExtraneous s
        refine ih ⟨hq.leads.mono (Nat.le_refl _) (hsteps.position_le hs), hq.covered⟩
          (hsteps.regular hs)

/-- The span of a pipeline that is read, and of each pipeline in it, covers its two sides. -/
theorem covered_pipeline {query : Rule Query} [Lawful true query] (hs : s.Regular) :
    (pipeline inner query s).1.Covered := by
  have hsteps := steps_sourceStage inner query s
  have hfirst : (sourceStage inner query s).1.span.Between s.position
      (sourceStage inner query s).2.position :=
    between_stage between_sourceCommand (fun _ => rfl) hs
  have hq : (Query.ofStages (sourceStage inner query s).1 [].reverse).InOrder s.position
      (sourceStage inner query s).2.position := ⟨hfirst.leads, True.intro⟩
  exact (inOrder_stagesUpTo _ hq (hsteps.regular hs)).covered

end

end Grammar

end PipeQuery
