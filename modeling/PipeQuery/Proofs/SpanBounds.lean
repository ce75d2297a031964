import Mathlib.Data.List.Induction
import PipeQuery.Proofs.SpanOrder
import PipeQuery.Proofs.Spans

/-!
# Spans are in range

Whatever is read, with diagnostics or without, the spans in the tree do not turn back and do not
reach beyond the text. This is about all runs, so it goes along the rules and not along the grammar:
`Rule.Ensures len r P` says that the values of a rule are as `P` asks for, whenever a text of `len`
tokens is read. A span is taken from the position of a token to the last token that was read, so
that it is in range by itself (`State.within_spanFrom`); all other spans cover such spans.
-/

namespace PipeQuery

/-! ## Ranges -/

/-- A span that does not turn back and does not reach beyond `len` tokens. -/
def Span.Within (len : Nat) (s : Span) : Prop := s.start ≤ s.stop ∧ s.stop ≤ len

theorem Span.Within.cover {len : Nat} {s t : Span} (hs : s.Within len) (ht : t.Within len) :
    (s.cover t).Within len := by
  obtain ⟨hs, hs'⟩ := hs
  obtain ⟨ht, ht'⟩ := ht
  constructor
  · exact Nat.le_trans (Nat.min_le_left ..) (Nat.le_trans hs (Nat.le_max_left ..))
  · exact Nat.max_le.2 ⟨hs', ht'⟩

/-- The span of a phrase with two sides, a chain or a pipeline, covers those of its sides. -/
def Phrase.Covers : Phrase → Prop
  | .query (.pipe q bar command) => (Query.pipe q bar command).span = q.span.cover command.span
  | .boolean (.connective op left token right) =>
    (BooleanExpr.connective op left token right).span = left.span.cover right.span
  | .operator (.binary op token left right) =>
    (OperatorExpr.binary op token left right).span = left.span.cover right.span
  | _ => True

/-- A phrase all of whose spans are in range, and those of the phrases inside it, and whose chains
cover their sides. -/
def Phrase.InRange (len : Nat) (p : Phrase) : Prop :=
  ∀ q, p.Below q → q.span.Within len ∧ q.Covers

namespace Phrase

variable {len : Nat} {p q : Phrase}

theorem InRange.span (h : p.InRange len) : p.span.Within len := (h p .refl).1

theorem InRange.child (h : p.InRange len) (hq : q ∈ p.children) : q.InRange len :=
  fun r hr => h r (.head hq hr)

theorem inRange_iff :
    p.InRange len ↔ (p.span.Within len ∧ p.Covers) ∧ ∀ q ∈ p.children, q.InRange len := by
  constructor
  · exact fun h => ⟨h p .refl, fun q hq => h.child hq⟩
  · rintro ⟨hp, hchildren⟩ r hr
    obtain rfl | ⟨q, hq, hr⟩ := Relation.ReflTransGen.cases_head hr
    · exact hp
    · exact hchildren q hq r hr

end Phrase

/-- Items all of whose phrases are in range. -/
def Item.InRange (len : Nat) (items : List Item) : Prop :=
  ∀ q ∈ items.filterMap Item.phrase?, q.InRange len

namespace Item.InRange

variable {len : Nat} {items items' : List Item} {p : Phrase}

theorem nil : InRange len [] := by
  intro q hq
  simp at hq

theorem terminal {t : Terminal} (h : InRange len items) : InRange len (.terminal t :: items) := h

theorem phrase {nesting : Nesting} (hp : p.InRange len) (h : InRange len items) :
    InRange len (.phrase nesting p :: items) := by
  intro q hq
  obtain rfl | hq := List.mem_cons.1 hq
  · exact hp
  · exact h q hq

theorem append (h : InRange len items) (h' : InRange len items') : InRange len (items ++ items') := by
  intro q hq
  rw [List.filterMap_append] at hq
  obtain hq | hq := List.mem_append.1 hq
  · exact h q hq
  · exact h' q hq

theorem map {α : Type} {nesting : Nesting} {phrase : α → Phrase} {values : List α}
    (h : ∀ v ∈ values, (phrase v).InRange len) :
    InRange len (values.map fun v => .phrase nesting (phrase v)) := by
  intro q hq
  rw [List.filterMap_map] at hq
  obtain ⟨v, hv, hq⟩ := List.mem_filterMap.1 hq
  exact Option.some.inj hq ▸ h v hv

theorem separated {kind : Kind} (h : InRange len items) : InRange len (Item.separated kind items) := by
  intro q hq
  obtain ⟨item, hitem, hq⟩ := List.mem_filterMap.1 hq
  refine h q (List.mem_filterMap.2 ⟨item, ?_, hq⟩)
  cases items with
  | nil => exact hitem
  | cons first items =>
    obtain rfl | hitem := List.mem_cons.1 hitem
    · exact List.mem_cons_self ..
    · obtain ⟨next, hnext, hitem⟩ := List.mem_flatMap.1 hitem
      obtain rfl | hitem := List.mem_cons.1 hitem
      · simp [Item.phrase?] at hq
      · exact List.mem_cons_of_mem _ (List.mem_singleton.1 hitem ▸ hnext)

theorem list {α : Type} {phrase : α → Phrase} {values : List α}
    (h : ∀ v ∈ values, (phrase v).InRange len) : InRange len (Item.list phrase values) :=
  (map h).separated

theorem call {name : Identifier} (hname : (Phrase.identifier name).InRange len)
    (h : InRange len items) : InRange len (Item.call name items) :=
  phrase hname (terminal (h.separated.append (terminal nil)))

theorem brackets (h : InRange len items) :
    InRange len (.kind .leftBracket :: (items ++ [.kind .rightBracket])) :=
  terminal (h.append (terminal nil))

theorem option {α : Type} {f : α → List Item} {o : Option α} (h : ∀ a ∈ o, InRange len (f a)) :
    InRange len (o.elim [] f) := by
  cases o with
  | none => exact nil
  | some a => exact h a rfl

theorem negation (token : Option Token) : InRange len (Item.negation token) :=
  option fun _ _ => terminal nil

theorem assigned {name : Option Identifier} (h : ∀ i ∈ name, (Phrase.identifier i).InRange len) :
    InRange len (Item.assigned name) :=
  option fun i hi => phrase (h i hi) (terminal nil)

end Item.InRange

namespace Phrase

variable {len : Nat} {p q : Phrase}

/-- A phrase in range is one with a span in range that is made of phrases in range. -/
theorem inRange_of_items (hc : p.Covers) (hspan : p.span.Within len)
    (h : Item.InRange len p.items) : p.InRange len := inRange_iff.2 ⟨⟨hspan, hc⟩, h⟩

theorem inRange_leaf (hc : p.Covers) (hspan : p.span.Within len) (hp : p.children = []) :
    p.InRange len := by
  refine inRange_iff.2 ⟨⟨hspan, hc⟩, ?_⟩
  rw [hp]
  simp

/-- A phrase made of a single other one with the same span. -/
theorem InRange.alone (h : q.InRange len) (hc : p.Covers) (hp : p.children = [q])
    (hspan : p.span = q.span) : p.InRange len := by
  refine inRange_iff.2 ⟨⟨hspan ▸ h.span, hc⟩, ?_⟩
  rw [hp]
  simpa using h

end Phrase

/-- The command that starts a pipeline is below it. -/
theorem Query.below_sourceCommand (q : Query) :
    (Phrase.query q).Below (.sourceCommand q.sourceCommand) := by
  induction q using Query.sourceCommand.induct with
  | case1 command =>
    exact .single (by simp [Phrase.children, Phrase.items, Item.phrase?, Query.sourceCommand])
  | case2 q bar command ih =>
    exact .head (by simp [Phrase.children, Phrase.items, Item.phrase?]) ih

namespace Grammar

open Rule State

variable {len : Nat} {α β : Type} {s t : State}

/-! ## Rules -/

/-- The values of a rule are as `P` asks for, in a text of `len` tokens. -/
def Rule.Ensures (len : Nat) (r : Rule α) (P : α → Prop) : Prop :=
  ∀ s t a, s.Regular → s.stream.tokens.length = len → r.run s = (some a, t) → P a

theorem State.Steps.length_tokens {recording : Bool} (h : Steps recording s t) :
    t.stream.tokens.length = s.stream.tokens.length := by
  obtain ⟨ps, hps⟩ := h.reads
  rw [hps.tokens]

/-- A span that is taken from a position of the text to the last token that was read. -/
theorem State.within_spanFrom {start : Nat} (hs : s.Regular) (hstart : start ≤ s.stream.tokens.length) :
    (s.spanFrom start).Within s.stream.tokens.length := by
  unfold State.spanFrom
  split
  · exact ⟨Nat.le_refl _, hstart⟩
  · next i hi =>
    have hlt := hs.valid.previous_lt_position hi
    have hle := Nat.le_trans hs.valid.position_le_limit hs.valid.limit_le
    exact ⟨Nat.le_max_right .., Nat.max_le.2 ⟨by omega, hstart⟩⟩

theorem State.position_le (hs : s.Regular) : s.position ≤ s.stream.tokens.length :=
  Nat.le_trans hs.valid.position_le_limit hs.valid.limit_le

namespace Rule.Ensures

variable {r : Rule α} {P : α → Prop}

theorem trivial (len : Nat) (r : Rule α) : r.Ensures len fun _ => True :=
  fun _ _ _ _ _ _ => True.intro

theorem pure {a : α} (h : P a) : (pure a : Rule α).Ensures len P := by
  intro s t b _ _ hrun
  simp only [run_pure, Prod.mk.injEq, Option.some.injEq] at hrun
  exact hrun.1 ▸ h

theorem bind [Lawful true r] {f : α → Rule β} {Q : β → Prop} (hr : r.Ensures len P)
    (hf : ∀ a, P a → (f a).Ensures len Q) : (r >>= f).Ensures len Q := by
  intro s t b hs hlen hrun
  obtain ⟨a, u, hra, hrun⟩ := run_bind_eq_some.1 hrun
  have hsteps : s.Steps true (r.run s).2 := Lawful.steps s
  rw [hra] at hsteps
  have hulen : u.stream.tokens.length = len := hsteps.length_tokens.trans hlen
  exact hf a (hr s u a hs hlen hra) u t b (hsteps.regular hs) hulen hrun

/-- A rule that goes on without a condition on the value in front of it. -/
theorem next [Lawful true r] {f : α → Rule β} {Q : β → Prop} (hf : ∀ a, (f a).Ensures len Q) :
    (r >>= f).Ensures len Q := (trivial len r).bind fun a _ => hf a

theorem map [Lawful true r] {f : α → β} {Q : β → Prop} (hr : r.Ensures len P)
    (hf : ∀ a, P a → Q (f a)) : (r >>= fun a => Pure.pure (f a)).Ensures len Q :=
  hr.bind fun a ha => pure (hf a ha)

theorem giveUp {f : State → State} : (giveUp f : Rule α).Ensures len P := by
  intro s t a _ _ hrun
  simp at hrun

theorem ite {c : Prop} [Decidable c] {r' : Rule α} (h : r.Ensures len P) (h' : r'.Ensures len P) :
    (if c then r else r').Ensures len P := by
  split
  · exact h
  · exact h'

theorem within {scope : Scope → Scope} (h : r.Ensures len P) : (within scope r).Ensures len P := by
  intro s t a hs hlen hrun
  rw [run_within, Prod.mk.injEq] at hrun
  have hs' : ({ s with scope := scope s.scope } : State).Regular :=
    ⟨hs.valid, hs.recovering, hs.halted⟩
  exact h _ _ a hs' hlen (Prod.ext hrun.1 rfl)

theorem position : (ask (·.position)).Ensures len (· ≤ len) := by
  intro s t a hs hlen hrun
  simp only [run_ask, Prod.mk.injEq, Option.some.injEq] at hrun
  rw [← hrun.1, ← hlen]
  exact State.position_le hs

/-- The right operand of a link is as its rule answers it. -/
theorem linkOf {O T : Type} {ofKind? : Kind → Option O} {left : O → Nat} {right : O → Rule T}
    [∀ op, Lawful true (right op)] {R : T → Prop} (power : Nat)
    (hr : ∀ op, (right op).Ensures len R) :
    (linkOf ofKind? left right power).Ensures len fun o => ∀ link ∈ o, R link.right := by
  unfold Grammar.linkOf
  refine next fun kind => ?_
  split
  · next op _ =>
    exact ite (pure (by simp)) (next fun token => (hr op).map fun a ha => by simpa using ha)
  · exact pure (by simp)

theorem askSpan {start : Nat} (hstart : start ≤ len) {f : Span → α}
    (h : ∀ span, span.Within len → P (f span)) : (ask fun s => f (s.spanFrom start)).Ensures len P := by
  intro s t a hs hlen hrun
  simp only [run_ask, Prod.mk.injEq, Option.some.injEq] at hrun
  rw [← hrun.1]
  refine h _ ?_
  rw [← hlen]
  exact State.within_spanFrom hs (by omega)

theorem spanned {r : Rule (Span → α)} [hl : Lawful true (spanned r)]
    (h : r.Ensures len fun f => ∀ span, span.Within len → P (f span)) :
    (spanned r).Ensures len P := by
  intro s t a hs hlen hrun
  have hsteps : s.Steps true ((Grammar.spanned r).run s).2 := hl.steps s
  rw [hrun] at hsteps
  have ht := hsteps.regular hs
  have htlen : t.stream.tokens.length = len := hsteps.length_tokens.trans hlen
  obtain ⟨f, hrf, rfl⟩ := run_spanned_eq_some.1 hrun
  refine h s t f hs hlen hrf _ ?_
  rw [← htlen]
  refine State.within_spanFrom ht ?_
  rw [htlen, ← hlen]
  exact State.position_le hs

theorem upTo {r : Rule (Option α)} [Lawful true r] (h : r.Ensures len fun o => ∀ a ∈ o, P a)
    (n : Nat) {values : List α} (hv : ∀ a ∈ values, P a) :
    (upTo r n values).Ensures len fun as => ∀ a ∈ as, P a := by
  induction n generalizing values with
  | zero => exact pure (by simpa using hv)
  | succ n ih =>
    rw [upTo_succ]
    refine h.bind fun o ho => ?_
    cases o with
    | none => exact pure (by simpa using hv)
    | some a => exact ih (by simpa using ⟨ho a rfl, hv⟩)

theorem many {r : Rule (Option α)} [Lawful true r] (h : r.Ensures len fun o => ∀ a ∈ o, P a) :
    (many r).Ensures len fun as => ∀ a ∈ as, P a := by
  intro s t as hs hlen hrun
  exact upTo h s.stream.remaining (by simp) s t as hs hlen hrun

theorem behind [Lawful true r] (kind : Kind) (h : r.Ensures len P) :
    (behind kind r).Ensures len fun o => ∀ a ∈ o, P a := by
  unfold Grammar.behind
  refine next fun o => ?_
  cases o with
  | none => exact pure (by simp)
  | some _ => exact h.map fun a ha => by simpa using ha

theorem separated [Lawful true r] (kind : Kind) (h : r.Ensures len P) :
    (separated kind r).Ensures len fun as => ∀ a ∈ as, P a := by
  unfold Grammar.separated
  exact h.bind fun a ha => (many (h.behind kind)).map fun as has => by simpa using ⟨ha, has⟩

theorem parenthesised [Lawful true r] (h : r.Ensures len P) :
    (parenthesised r).Ensures len P := by
  unfold Grammar.parenthesised
  exact next fun _ => h.bind fun a ha => next fun _ => pure ha

theorem arguments [Lawful true r] (h : r.Ensures len P) :
    (arguments r).Ensures len fun as => ∀ a ∈ as, P a := by
  unfold Grammar.arguments
  exact parenthesised (next fun _ => ite (pure (by simp)) (h.separated .comma))

end Rule.Ensures

/-! ## Names and constants -/

/-- The values of a rule are phrases in range. -/
abbrev Rule.InRange (len : Nat) (r : Rule α) (phrase : α → Phrase) : Prop :=
  r.Ensures len fun a => (phrase a).InRange len

theorem inRange_identifierOf (kinds : KindSet) : (identifierOf kinds).InRange len .identifier := by
  unfold identifierOf
  exact Ensures.spanned (Ensures.next fun token => Ensures.pure fun span hspan =>
    Phrase.inRange_leaf trivial hspan rfl)

theorem inRange_takeIdentifier : takeIdentifier.InRange len .identifier := by
  unfold takeIdentifier
  exact Ensures.spanned (Ensures.next fun token => Ensures.pure fun span hspan =>
    Phrase.inRange_leaf trivial hspan rfl)

theorem inRange_qualifiedName : qualifiedName.InRange len .qualifiedName := by
  unfold qualifiedName
  refine Ensures.spanned (Ensures.map ((inRange_identifierOf plainNames).separated .dot)
    fun parts hparts span hspan => ?_)
  exact Phrase.inRange_of_items trivial hspan (Item.InRange.map hparts).separated

theorem inRange_qualifiedNames :
    qualifiedNames.Ensures len fun names => ∀ q ∈ names, (Phrase.qualifiedName q).InRange len :=
  inRange_qualifiedName.separated .comma

theorem inRange_assigned? (kinds : KindSet) :
    (assigned? kinds).Ensures len fun name => ∀ i ∈ name, (Phrase.identifier i).InRange len := by
  unfold assigned?
  refine Ensures.next fun _ => Ensures.next fun _ => Ensures.ite ?_ (Ensures.pure (by simp))
  exact (inRange_identifierOf kinds).bind fun i hi => Ensures.next fun _ =>
    Ensures.pure (by simpa using hi)

theorem inRange_numberOf (kinds : KindSet) : (numberOf kinds).InRange len .number := by
  unfold numberOf
  exact Ensures.spanned (Ensures.next fun token => Ensures.pure fun span hspan =>
    Phrase.inRange_leaf trivial hspan rfl)

theorem inRange_string : string.InRange len .string := by
  unfold string
  exact Ensures.spanned (Ensures.next fun token => Ensures.pure fun span hspan =>
    Phrase.inRange_leaf trivial hspan rfl)

theorem inRange_truthValue : truthValue.InRange len .truthValue := by
  unfold truthValue
  exact Ensures.spanned (Ensures.next fun token => Ensures.pure fun span hspan =>
    Phrase.inRange_leaf trivial hspan rfl)

theorem inRange_elements (start : Nat) : (elements start).Ensures len fun f =>
    ∀ span, span.Within len → (Phrase.constant (f span)).InRange len := by
  unfold elements
  refine Ensures.next fun kind => ?_
  split
  · exact (inRange_truthValue.separated .comma).map fun values hvalues span hspan =>
      Phrase.inRange_of_items trivial hspan (Item.InRange.brackets (.list hvalues))
  · exact (inRange_string.separated .comma).map fun values hvalues span hspan =>
      Phrase.inRange_of_items trivial hspan (Item.InRange.brackets (.list hvalues))
  · exact ((inRange_numberOf numbers).separated .comma).map fun values hvalues span hspan =>
      Phrase.inRange_of_items trivial hspan (Item.InRange.brackets (.list hvalues))
  · exact ((inRange_numberOf numbers).separated .comma).map fun values hvalues span hspan =>
      Phrase.inRange_of_items trivial hspan (Item.InRange.brackets (.list hvalues))
  · exact Ensures.giveUp

theorem inRange_constant : constant.InRange len .constant := by
  unfold constant
  refine Ensures.next fun kind => ?_
  split
  · exact Ensures.spanned (Ensures.next fun _ => Ensures.pure fun span hspan =>
      Phrase.inRange_leaf trivial hspan rfl)
  · exact inRange_truthValue.map fun b hb => hb.alone trivial rfl rfl
  · exact inRange_string.map fun l hl => hl.alone trivial rfl rfl
  · unfold constantList
    exact Ensures.spanned (Ensures.next fun start => Ensures.next fun _ =>
      (inRange_elements start).bind fun f hf => Ensures.next fun _ => Ensures.pure hf)
  · exact (inRange_numberOf numbers).map fun n hn => hn.alone trivial rfl rfl
  · exact (inRange_numberOf numbers).map fun n hn => hn.alone trivial rfl rfl
  · exact Ensures.next fun start => Ensures.giveUp

theorem inRange_fieldArgument : fieldArgument.InRange len .fieldArgument := by
  unfold fieldArgument
  refine Ensures.next fun kind => ?_
  split
  · exact inRange_string.map fun l hl => hl.alone trivial rfl rfl
  · exact (inRange_numberOf numbers).map fun n hn => hn.alone trivial rfl rfl
  · exact (inRange_numberOf numbers).map fun n hn => hn.alone trivial rfl rfl
  · exact inRange_qualifiedName.map fun q hq => hq.alone trivial rfl rfl
  · exact inRange_qualifiedName.map fun q hq => hq.alone trivial rfl rfl
  · exact Ensures.next fun start => Ensures.giveUp

theorem inRange_timeSpan : timeSpan.InRange len .timeSpan := by
  unfold timeSpan
  exact Ensures.spanned ((inRange_numberOf numbers).bind fun n hn => Ensures.next fun _ =>
    Ensures.pure fun span hspan =>
      Phrase.inRange_of_items trivial hspan (.phrase hn (.terminal .nil)))

/-! ## Expressions -/

/-- Expressions one level deeper have their spans in range. -/
structure Expressions.InRange (len : Nat) (inner : Expressions) : Prop where
  boolean (power : Nat) : (inner.boolean power).InRange len .boolean
  operator (power : Nat) : (inner.operator power).InRange len .operator

section

variable {inner : Expressions} [inner.Lawful true]

theorem inRange_value (hi : inner.InRange len) : (value inner).InRange len .value := by
  unfold value
  refine (hi.operator 0).bind fun left hleft => Ensures.next fun _ => Ensures.ite ?_ ?_
  · refine Ensures.next fun operator => ?_
    split
    · next op _ =>
      refine (hi.operator 0).map fun right hright => ?_
      exact Phrase.inRange_of_items trivial (hleft.span.cover hright.span)
        (.phrase hleft (.terminal (.phrase hright .nil)))
    · exact Ensures.giveUp
  · exact Ensures.pure (hleft.alone trivial rfl rfl)

theorem inRange_scalarArgument (hi : inner.InRange len) :
    (scalarArgument inner).InRange len .scalarArgument := by
  unfold scalarArgument
  refine Ensures.next fun _ => Ensures.next fun _ => Ensures.ite ?_ ?_
  · exact inRange_timeSpan.map fun a ha => ha.alone trivial rfl rfl
  · exact (inRange_value hi).map fun v hv => hv.alone trivial rfl rfl

theorem inRange_primary (hi : inner.InRange len) : (primary inner).InRange len .primary := by
  unfold primary
  refine Ensures.next fun kind => Ensures.ite ?_ (Ensures.ite ?_ (Ensures.ite ?_ ?_))
  · exact inRange_constant.map fun a ha => ha.alone trivial rfl rfl
  · exact Ensures.spanned ((hi.boolean 0).parenthesised.map fun e he span hspan =>
      Phrase.inRange_of_items trivial hspan (.terminal (.phrase he (.terminal .nil))))
  · refine Ensures.next fun _ => Ensures.ite ?_ ?_
    · exact Ensures.spanned ((inRange_identifierOf plainNames).bind fun name hname =>
        (hi.boolean 0).arguments.map fun args hargs span hspan =>
          Phrase.inRange_of_items trivial hspan (Item.InRange.call hname (.map hargs)))
    · exact inRange_qualifiedName.map fun q hq => hq.alone trivial rfl rfl
  · exact Ensures.next fun start => Ensures.giveUp

theorem inRange_operand (hi : inner.InRange len) : (operand inner).InRange len .operator := by
  have own {e : OperatorExpr} {span : Span} (hspan : span.Within len) (he : e.span = span) :
      (Phrase.operator e).span.Within len := by
    change e.span.Within len
    rwa [he]
  unfold operand
  refine Ensures.next fun kind => ?_
  split
  · next sign _ =>
    refine Ensures.spanned (Ensures.next fun token => (hi.operator Sign.power).map
      fun e he span hspan => ?_)
    exact Phrase.inRange_of_items trivial (own hspan (by simp [OperatorExpr.span]))
      (.terminal (.phrase he .nil))
  · refine Ensures.ite ?_ (Ensures.ite ?_ (Ensures.ite ?_ ?_))
    · exact Ensures.spanned (inRange_takeIdentifier.bind fun name hname =>
        inRange_fieldArgument.arguments.map fun args hargs span hspan =>
          Phrase.inRange_of_items trivial (own hspan (by simp [OperatorExpr.span]))
            (Item.InRange.call hname (.map hargs)))
    · exact Ensures.spanned (inRange_takeIdentifier.bind fun name hname =>
        (inRange_scalarArgument hi).arguments.map fun args hargs span hspan =>
          Phrase.inRange_of_items trivial (own hspan (by simp [OperatorExpr.span]))
            (Item.InRange.call hname (.map hargs)))
    · exact (inRange_primary hi).map fun p hp =>
        hp.alone trivial rfl (by simp [Phrase.span, OperatorExpr.span])
    · exact Ensures.next fun start => Ensures.giveUp

/-- The leftmost operand of an arithmetic expression is inside it. -/
theorem Phrase.below_leftmost_operator : ∀ e : OperatorExpr,
    (Phrase.operator e).Below (.operator e.leftmost)
  | .binary op operator left right => by
    refine .head (b := .operator left) ?_ ?_
    · simp [Phrase.children, Phrase.items, OperatorExpr.items, Item.phrase?]
    · simpa [OperatorExpr.leftmost] using below_leftmost_operator left
  | .primary _ | .aggregate .. | .scalar .. | .signed .. => by
    simpa [OperatorExpr.leftmost] using Relation.ReflTransGen.refl

/-- The leftmost operand of a condition is inside it. -/
theorem Phrase.below_leftmost_boolean : ∀ e : BooleanExpr,
    (Phrase.boolean e).Below (.boolean e.leftmost)
  | .connective op left operator right => by
    refine .head (b := .boolean left) ?_ ?_
    · simp [Phrase.children, Phrase.items, BooleanExpr.items, Item.phrase?]
    · simpa [BooleanExpr.leftmost] using below_leftmost_boolean left
  | .not .. | .value _ | .isIn .. | .isMatch .. | .predicate _ => by
    simpa [BooleanExpr.leftmost] using Relation.ReflTransGen.refl

/-- A chain of operands in range that covers its sides is in range. -/
theorem OperatorExpr.inRange_ofChain {first : OperatorExpr}
    {links : List (ChainLink ArithmeticOp OperatorExpr)}
    (hfirst : (Phrase.operator first).InRange len)
    (hlinks : ∀ l ∈ links, (Phrase.operator l.right).InRange len)
    (hc : (OperatorExpr.ofChain first links).Covered) :
    (Phrase.operator (.ofChain first links)).InRange len := by
  induction links using List.reverseRecOn with
  | nil => exact hfirst
  | append_singleton links l ih =>
    rw [OperatorExpr.ofChain_append_singleton] at hc ⊢
    obtain ⟨hspan, hleft⟩ := hc
    have hl := ih (fun k hk => hlinks k (by simp [hk])) hleft
    have hr := hlinks l (by simp)
    refine Phrase.inRange_of_items hspan ?_ (.phrase hl (.terminal (.phrase hr .nil)))
    have h := (hl _ (Phrase.below_leftmost_operator _)).1.cover hr.span
    simpa [Phrase.span, OperatorExpr.span, OperatorExpr.leftSpan_eq] using h

/-- A chain of conditions in range that covers its sides is in range. -/
theorem BooleanExpr.inRange_ofChain {first : BooleanExpr}
    {links : List (ChainLink Connective BooleanExpr)} (hfirst : (Phrase.boolean first).InRange len)
    (hlinks : ∀ l ∈ links, (Phrase.boolean l.right).InRange len)
    (hc : (BooleanExpr.ofChain first links).Covered) :
    (Phrase.boolean (.ofChain first links)).InRange len := by
  induction links using List.reverseRecOn with
  | nil => exact hfirst
  | append_singleton links l ih =>
    rw [BooleanExpr.ofChain_append_singleton] at hc ⊢
    obtain ⟨hspan, hleft⟩ := hc
    have hl := ih (fun k hk => hlinks k (by simp [hk])) hleft
    have hr := hlinks l (by simp)
    refine Phrase.inRange_of_items hspan ?_ (.phrase hl (.terminal (.phrase hr .nil)))
    have h := (hl _ (Phrase.below_leftmost_boolean _)).1.cover hr.span
    simpa [Phrase.span, BooleanExpr.span, BooleanExpr.leftSpan_eq] using h

/-- What holds of the values of a rule wherever it begins is ensured. -/
theorem Rule.From.ensures {r : Rule α} {P : α → Prop} (h : ∀ m, r.From m fun _ => P) :
    r.Ensures len P :=
  fun s t a hs _ hrun => h s.position s t a hs (Nat.le_refl _) hrun

theorem Rule.Ensures.apply {r : Rule α} {P Q : α → Prop} (h : r.Ensures len fun a => P a → Q a)
    (hP : r.Ensures len P) : r.Ensures len Q :=
  fun s t a hs hlen hrun => h s t a hs hlen hrun (hP s t a hs hlen hrun)

theorem inRange_operatorChain (hi : inner.InRange len) (ho : inner.InOrder) (power : Nat) :
    (operatorChain inner power).InRange len .operator := by
  have link : (operatorLink inner power).Ensures len fun o =>
      ∀ l ∈ o, (Phrase.operator l.right).InRange len := by
    exact Ensures.linkOf (R := fun e => (Phrase.operator e).InRange len) power fun op =>
      hi.operator op.rightPower
  have parts : (operatorChain inner power).Ensures len fun e =>
      e.Covered → (Phrase.operator e).InRange len := by
    unfold operatorChain
    exact (inRange_operand hi).bind fun first hfirst => link.many.map fun links hlinks hc =>
      OperatorExpr.inRange_ofChain hfirst hlinks hc
  have covered : (operatorChain inner power).Ensures len OperatorExpr.Covered :=
    Rule.From.ensures fun _ => (inOrder_operatorChain ho power).mono fun _ _ h => h.covered
  exact parts.apply covered

theorem inRange_predicateCall : predicateCall.InRange len .predicateCall := by
  unfold predicateCall
  refine Ensures.spanned (inRange_takeIdentifier.bind fun name hname => ?_)
  have args : (do
      let field ← qualifiedName
      let args ← many (behind .comma fieldArgument)
      return (field, args) : Rule (QualifiedName × List FieldArgument)).Ensures len fun p =>
        (Phrase.qualifiedName p.1).InRange len ∧ ∀ a ∈ p.2, (Phrase.fieldArgument a).InRange len :=
    inRange_qualifiedName.bind fun field hfield =>
      (inRange_fieldArgument.behind .comma).many.map fun as has => ⟨hfield, has⟩
  exact args.parenthesised.map fun p hp span hspan =>
    Phrase.inRange_of_items trivial hspan (Item.InRange.call hname (.phrase hp.1 (.map hp.2)))

theorem inRange_test (hi : inner.InRange len) {start : Nat} (hstart : start ≤ len)
    {tested : ValueExpr} (htested : (Phrase.value tested).InRange len) :
    (test inner start tested).InRange len .boolean := by
  unfold test
  refine Ensures.next fun negation => Ensures.next fun kind => Ensures.ite ?_ ?_
  · refine Ensures.next fun _ => ((inRange_value hi).separated .comma).parenthesised.bind
      fun items hitems => Ensures.askSpan hstart fun span hspan => ?_
    refine Phrase.inRange_of_items trivial (by simpa [Phrase.span, BooleanExpr.span] using hspan) ?_
    exact .phrase htested ((Item.InRange.negation negation).append
      (.terminal (.terminal ((Item.InRange.list hitems).append (.terminal .nil)))))
  · split
    · next pattern _ =>
      refine Ensures.next fun _ => inRange_string.bind fun literal hliteral =>
        Ensures.askSpan hstart fun span hspan => ?_
      refine Phrase.inRange_of_items trivial (by simpa [Phrase.span, BooleanExpr.span] using hspan) ?_
      exact .phrase htested ((Item.InRange.negation negation).append
        (.terminal (.phrase hliteral .nil)))
    · exact Ensures.pure (htested.alone trivial rfl (by simp [Phrase.span, BooleanExpr.span]))

theorem inRange_condition (hi : inner.InRange len) : (condition inner).InRange len .boolean := by
  unfold condition
  refine Ensures.next fun kind => Ensures.next fun scope =>
    Ensures.ite ?_ (Ensures.ite ?_ (Ensures.ite ?_ ?_))
  · refine Ensures.spanned (Ensures.next fun token => (hi.boolean Connective.notPower).map
      fun e he span hspan => ?_)
    exact Phrase.inRange_of_items trivial (by simpa [Phrase.span, BooleanExpr.span] using hspan)
      (.terminal (.phrase he .nil))
  · exact inRange_predicateCall.map fun call hcall =>
      hcall.alone trivial rfl (by simp [Phrase.span, BooleanExpr.span])
  · refine Ensures.position.bind fun start hstart => (inRange_value hi).bind fun tested htested =>
      Ensures.ite (inRange_test hi hstart htested) (Ensures.pure ?_)
    exact htested.alone trivial rfl (by simp [Phrase.span, BooleanExpr.span])
  · exact Ensures.next fun start => Ensures.giveUp

theorem inRange_connectiveChain (hi : inner.InRange len) (ho : inner.InOrder) (power : Nat) :
    (connectiveChain inner power).InRange len .boolean := by
  have link : (connectiveLink inner power).Ensures len fun o =>
      ∀ l ∈ o, (Phrase.boolean l.right).InRange len := by
    exact Ensures.linkOf (R := fun e => (Phrase.boolean e).InRange len) power fun op =>
      hi.boolean op.rightPower
  have parts : (connectiveChain inner power).Ensures len fun e =>
      e.Covered → (Phrase.boolean e).InRange len := by
    unfold connectiveChain
    exact (inRange_condition hi).bind fun first hfirst => link.many.map fun links hlinks hc =>
      BooleanExpr.inRange_ofChain hfirst hlinks hc
  have covered : (connectiveChain inner power).Ensures len BooleanExpr.Covered :=
    Rule.From.ensures fun _ => (inOrder_connectiveChain ho power).mono fun _ _ h => h.covered
  exact parts.apply covered

end

theorem inRange_expressions (n : Nat) : (expressions n).InRange len := by
  induction n with
  | zero => exact ⟨fun _ => Ensures.giveUp, fun _ => Ensures.giveUp⟩
  | succ n ih =>
    exact ⟨fun power => inRange_connectiveChain ih (inOrder_expressions n) power,
      fun power => inRange_operatorChain ih (inOrder_expressions n) power⟩

/-! ## Commands -/

section

variable {inner : Expressions} [inner.Lawful true]

theorem inRange_field (hi : inner.InRange len) : (field inner).InRange len .field := by
  unfold field
  exact Ensures.spanned ((inRange_assigned? plainNames).bind fun name hname =>
    (hi.boolean 0).map fun e he span hspan =>
      Phrase.inRange_of_items trivial hspan ((Item.InRange.assigned hname).append (.phrase he .nil)))

theorem inRange_fields (hi : inner.InRange len) :
    (fields inner).Ensures len fun fs => ∀ f ∈ fs, (Phrase.field f).InRange len :=
  (inRange_field hi).separated .comma

theorem inRange_renameClause : renameClause.InRange len .renameClause := by
  unfold renameClause
  exact Ensures.spanned ((inRange_identifierOf plainNames).bind fun name hname =>
    Ensures.next fun _ => inRange_qualifiedName.map fun old hold span hspan =>
      Phrase.inRange_of_items trivial hspan (.phrase hname (.terminal (.phrase hold .nil))))

theorem inRange_commandOption : commandOption.InRange len .commandOption := by
  unfold commandOption
  exact Ensures.spanned ((inRange_identifierOf plainNames).bind fun name hname =>
    Ensures.next fun _ => inRange_constant.map fun value hvalue span hspan =>
      Phrase.inRange_of_items trivial hspan (.phrase hname (.terminal (.phrase hvalue .nil))))

theorem inRange_sortKey (hi : inner.InRange len) : (sortKey inner).InRange len .sortKey := by
  unfold sortKey
  exact Ensures.spanned ((hi.boolean 0).bind fun e he => Ensures.next fun order =>
    Ensures.next fun nulls => Ensures.pure fun span hspan =>
      Phrase.inRange_of_items trivial hspan
        (.phrase he ((Item.InRange.option fun _ _ => .terminal .nil).append
          (Item.InRange.option fun _ _ => .terminal (.terminal .nil)))))

theorem inRange_enrichClause : enrichClause.InRange len .enrichClause := by
  unfold enrichClause
  exact Ensures.spanned ((inRange_assigned? enrichNames).bind fun name hname =>
    (inRange_identifierOf enrichNames).map fun field hfield span hspan =>
      Phrase.inRange_of_items trivial hspan
        ((Item.InRange.assigned hname).append (.phrase hfield .nil)))

theorem inRange_processingClause (hi : inner.InRange len) {kind : Kind}
    {clause : Rule ProcessingClause} (h : processingClause? inner kind = some clause) :
    clause.Ensures len fun a => ∀ keyword, Item.InRange len (a.items keyword) := by
  have names {f : List QualifiedName → ProcessingClause} {t : Token → Terminal}
      (hf : ∀ names keyword, (f names).items keyword
        = .terminal (t keyword) :: Item.list .qualifiedName names) :
      (do return f (← qualifiedNames) : Rule ProcessingClause).Ensures len fun a =>
        ∀ keyword, Item.InRange len (a.items keyword) :=
    inRange_qualifiedNames.map fun names hnames keyword => by
      rw [hf]
      exact .terminal (.list hnames)
  have stats {fs : Option (List Field)} (hfs : ∀ l ∈ fs, ∀ f ∈ l, (Phrase.field f).InRange len) :
      (do return .stats fs (← behind .kwBy qualifiedNames) : Rule ProcessingClause).Ensures len
        fun a => ∀ keyword, Item.InRange len (a.items keyword) :=
    (inRange_qualifiedNames.behind .kwBy).map fun grouping hgrouping keyword =>
      .terminal ((Item.InRange.option fun l hl => .list (hfs l hl)).append
        (Item.InRange.option fun l hl => .terminal (.list (hgrouping l hl))))
  unfold processingClause? at h
  split at h <;> cases h
  · exact (inRange_fields hi).map fun fs hfs keyword => .terminal (.list hfs)
  · exact (inRange_numberOf _).map fun n hn keyword => .terminal (.phrase hn .nil)
  · exact names fun _ _ => rfl
  · exact names fun _ _ => rfl
  · exact (inRange_renameClause.separated .comma).map fun cs hcs keyword => .terminal (.list hcs)
  · exact names fun _ _ => rfl
  · refine inRange_qualifiedNames.bind fun names hnames => inRange_string.bind fun pattern hpattern =>
      Ensures.next fun _ => Ensures.ite ?_ ?_
    · exact (inRange_commandOption.separated .comma).map fun options hoptions keyword =>
        .terminal ((Item.InRange.list hnames).append (.phrase hpattern (.list hoptions)))
    · exact Ensures.pure fun keyword =>
        .terminal ((Item.InRange.list hnames).append (.phrase hpattern .nil))
  · exact inRange_qualifiedNames.bind fun names hnames => inRange_string.map
      fun pattern hpattern keyword =>
        .terminal ((Item.InRange.list hnames).append (.phrase hpattern .nil))
  · exact ((inRange_sortKey hi).separated .comma).map fun keys hkeys keyword => .terminal (.list hkeys)
  · refine Ensures.next fun _ => Ensures.ite ?_ ?_
    · refine Ensures.bind (P := fun fs => ∀ l ∈ fs, ∀ f ∈ l, (Phrase.field f).InRange len) ?_
        fun fs hfs => stats hfs
      exact (inRange_fields hi).map fun fs hfs l hl => by
        obtain rfl := Option.some.inj hl
        exact hfs
    · exact @stats none (by simp)
  · exact (hi.boolean 0).within.map fun e he keyword => .terminal (.phrase he .nil)
  · exact names fun _ _ => rfl
  · refine (inRange_identifierOf enrichNames).bind fun policy hpolicy =>
      ((inRange_identifierOf enrichNames).behind .kwOn).bind fun matchField hmatch =>
        ((inRange_enrichClause.separated .comma).behind .kwWith).map fun clauses hclauses keyword => ?_
    exact .terminal (.phrase hpolicy
      ((Item.InRange.option fun i hi => .terminal (.phrase (hmatch i hi) .nil)).append
        (Item.InRange.option fun l hl => .terminal (.list (hclauses l hl)))))

theorem inRange_processingCommand (hi : inner.InRange len) :
    (processingCommand inner).InRange len .processingCommand := by
  have hl : Lawful true (processingCommand inner) := inferInstance
  unfold processingCommand at hl ⊢
  refine Ensures.spanned (Ensures.next fun _ => Ensures.next fun kind => ?_)
  split
  · next clause hclause =>
    have := lawful_processingClause inner true hclause
    exact Ensures.next fun keyword => (inRange_processingClause hi hclause).map fun a ha span hspan =>
      Phrase.inRange_of_items trivial hspan (ha keyword)
  · exact Ensures.next fun start => Ensures.giveUp

section

variable {query : Rule Query} [Lawful true query]

theorem inRange_sourceCommand (hi : inner.InRange len) (hq : query.InRange len .query) :
    (sourceCommand inner query).InRange len .sourceCommand := by
  have subquery : (subquery query).InRange len .query := by
    unfold Grammar.subquery
    exact Ensures.next fun _ => Ensures.next fun _ => hq.within.bind fun q hq =>
      Ensures.next fun _ => Ensures.next fun _ => Ensures.pure hq
  have hl : Lawful true (sourceCommand inner query) := inferInstance
  unfold sourceCommand at hl ⊢
  refine Ensures.spanned (Ensures.next fun _ => Ensures.next fun start => Ensures.next fun kind => ?_)
  split
  · exact Ensures.next fun keyword => subquery.map fun q hq span hspan =>
      Phrase.inRange_of_items trivial hspan (.terminal (.terminal (.phrase hq (.terminal .nil))))
  · exact Ensures.next fun keyword => ((inRange_identifierOf sourceNames).separated .comma).map
      fun names hnames span hspan => Phrase.inRange_of_items trivial hspan (.terminal (.list hnames))
  · exact Ensures.next fun keyword => (inRange_fields hi).map fun fs hfs span hspan =>
      Phrase.inRange_of_items trivial hspan (.terminal (.list hfs))
  · refine Ensures.next fun next => ?_
    split
    · exact Ensures.next fun keyword => Ensures.next fun _ => Ensures.pure fun span hspan =>
        Phrase.inRange_of_items trivial hspan (.terminal (.terminal .nil))
    · exact Ensures.next fun _ => Ensures.giveUp
  · exact Ensures.giveUp

end

end

/-! ## Queries -/

/-- A stage is a command in range, or an error over tokens of the text. -/
theorem inRange_stage {r : Rule α} [hl : Lawful true r] {kind : Kind} {span : α → Span}
    {error : Span → α} {phrase : α → Phrase} (hr : r.InRange len phrase)
    (herror : ∀ span, span.Within len → (phrase (error span)).InRange len) (hs : s.Regular)
    (hlen : s.stream.tokens.length = len) :
    (phrase (stage r kind span error s).1).InRange len := by
  have hsteps := hl.steps s
  obtain ⟨a, t, hrun, hstage⟩ | ⟨t, hrun, hstage⟩ := stage_cases r kind span error s
  · rw [hstage]
    exact hr s t a hs hlen hrun
  · rw [hrun] at hsteps
    rw [hstage]
    refine herror _ ?_
    have hpass : s.Steps true (t.passOver t.stream.remaining) :=
      hsteps.trans (steps_passOver t.stream.remaining t)
    have hstart : s.position ≤ (t.passOver t.stream.remaining).stream.tokens.length := by
      rw [hpass.length_tokens]
      exact State.position_le hs
    have hu := State.within_spanFrom (hpass.regular hs) hstart
    rwa [hpass.length_tokens, hlen] at hu

section

variable {inner : Expressions} [inner.Lawful true]

/-- A pipeline of commands in range that covers its sides is in range. -/
theorem Query.inRange_ofStages {first : SourceCommand} {stages : List (Token × ProcessingCommand)}
    (hfirst : (Phrase.sourceCommand first).InRange len)
    (hstages : ∀ stage ∈ stages, (Phrase.processingCommand stage.2).InRange len)
    (hc : (Query.ofStages first stages).Covered) :
    (Phrase.query (.ofStages first stages)).InRange len := by
  induction stages using List.reverseRecOn with
  | nil => exact hfirst.alone trivial rfl rfl
  | append_singleton stages stage ih =>
    rw [Query.ofStages_append_singleton] at hc ⊢
    obtain ⟨hspan, hleft⟩ := hc
    have hq := ih (fun k hk => hstages k (by simp [hk])) hleft
    have hr := hstages stage (by simp)
    refine Phrase.inRange_of_items hspan ?_ (.phrase hq (.terminal (.phrase hr .nil)))
    exact (hq _ (Query.below_sourceCommand _)).1.cover hr.span

theorem inRange_stagesUpTo (hi : inner.InRange len) (n : Nat)
    {stages : List (Token × ProcessingCommand)}
    (hstages : ∀ stage ∈ stages, (Phrase.processingCommand stage.2).InRange len) (hs : s.Regular)
    (hlen : s.stream.tokens.length = len) :
    ∀ stage ∈ (stagesUpTo inner n stages s).1, (Phrase.processingCommand stage.2).InRange len := by
  have hreverse : ∀ stage ∈ stages.reverse, (Phrase.processingCommand stage.2).InRange len :=
    fun stage hstage => hstages stage (List.mem_reverse.1 hstage)
  induction n generalizing stages s with
  | zero => exact hreverse
  | succ n ih =>
    rw [stagesUpTo]
    split
    · have hbump : s.Steps true s.bump := .single (.bump s)
      have hbumplen := hbump.length_tokens.trans hlen
      have hsteps : s.Steps true (processingStage inner s.bump).2 :=
        hbump.trans (steps_processingStage inner s.bump)
      have hstage : (Phrase.processingCommand (processingStage inner s.bump).1).InRange len :=
        inRange_stage (inRange_processingCommand hi)
          (fun span hspan => Phrase.inRange_leaf trivial hspan rfl) (hbump.regular hs) hbumplen
      have hmore : ∀ stage ∈ (s.current, (processingStage inner s.bump).1) :: stages,
          (Phrase.processingCommand stage.2).InRange len :=
        List.forall_mem_cons.2 ⟨hstage, hstages⟩
      exact ih hmore (hsteps.regular hs) (hsteps.length_tokens.trans hlen)
        fun stage h => hmore stage (List.mem_reverse.1 h)
    · split
      · exact hreverse
      · have hsteps := steps_skipExtraneous s
        exact ih hstages (hsteps.regular hs) (hsteps.length_tokens.trans hlen) hreverse

theorem inRange_pipeline {query : Rule Query} [Lawful true query] (hi : inner.InRange len)
    (hq : query.InRange len .query) (hs : s.Regular) (hlen : s.stream.tokens.length = len) :
    (Phrase.query (pipeline inner query s).1).InRange len := by
  have hsteps := steps_sourceStage inner query s
  have hfirst : (Phrase.sourceCommand (sourceStage inner query s).1).InRange len :=
    inRange_stage (inRange_sourceCommand hi hq)
      (fun span hspan => Phrase.inRange_leaf trivial hspan rfl) hs hlen
  exact Query.inRange_ofStages hfirst
    (inRange_stagesUpTo hi _ (by simp) (hsteps.regular hs) (hsteps.length_tokens.trans hlen))
    (covered_pipeline hs)

end

theorem inRange_query (levels : Nat) (hs : s.Regular) (hlen : s.stream.tokens.length = len) :
    (Phrase.query (query levels s).1).InRange len := by
  induction levels generalizing s with
  | zero =>
    rw [query_zero]
    exact inRange_pipeline (inRange_expressions 0) Ensures.giveUp hs hlen
  | succ levels ih =>
    rw [query_succ]
    refine inRange_pipeline (inRange_expressions (levels + 1)) (fun s t q hs hlen hrun => ?_) hs hlen
    rw [run_total, Prod.mk.injEq, Option.some.injEq] at hrun
    exact hrun.1 ▸ ih hs hlen

end Grammar

/-- All the spans of a statement are in range, whatever the tokens are and whatever was reported. -/
theorem within_parse (tokens : List Token) (config : Config) :
    (parse tokens config).statement.span.Within tokens.length ∧
      ∀ p, (Phrase.query (parse tokens config).statement.query).Below p →
        p.span.Within tokens.length := by
  have hs := Grammar.State.regular_start config tokens
  have hlen : (Grammar.query config.maxDepth (.start config tokens)).2.stream.tokens = tokens := by
    obtain ⟨ps, hps⟩ := (Grammar.steps_query config.maxDepth (.start config tokens)).reads
    exact hps.tokens
  refine ⟨⟨Nat.zero_le _, ?_⟩, fun p hp => (Grammar.inRange_query config.maxDepth hs rfl p hp).1⟩
  change min _ (Grammar.query config.maxDepth (.start config tokens)).2.stream.tokens.length ≤ _
  rw [hlen]
  exact Nat.min_le_right ..

/-- Where nothing is reported, every phrase of the query has an exact span, and the query has all
that the grammar sees. Whatever is reported, no span turns back or reaches beyond the text. -/
theorem spans_parse (tokens : List Token) (config : Config) :
    ((∀ t ∈ tokens, t.Fits) → (parse tokens config).isOk = true →
      (parse tokens config).statement.query.span.seen tokens = TokenStream.significant tokens ∧
        ∀ p, (Phrase.query (parse tokens config).statement.query).Below p → p.Exact tokens) ∧
      (parse tokens config).statement.span.Within tokens.length ∧
        ∀ p, (Phrase.query (parse tokens config).statement.query).Below p →
          p.span.Within tokens.length :=
  ⟨fun hfits hok => exact_of_isOk hfits hok, within_parse tokens config⟩

theorem spans_parse_sortedRow :
    (∀ t ∈ sortedRow, t.Fits) ∧ (parse sortedRow {}).isOk = true ∧
      (parse sortedRow {}).statement.query.span.seen sortedRow
        = TokenStream.significant sortedRow ∧
      ∀ p, (Phrase.query (parse sortedRow {}).statement.query).Below p → p.Exact sortedRow :=
  ⟨fits_sortedRow, by decide, (spans_parse sortedRow {}).1 fits_sortedRow (by decide)⟩

end PipeQuery
