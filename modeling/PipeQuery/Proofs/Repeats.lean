import Mathlib.Logic.Basic
import PipeQuery.Proofs.Accepts

/-!
# Repetition without a diagnostic

What the rules for optional parts and for lists accept. A repeated rule ends where it answers that
there is no more, and never by its bound (`accepts_many`): each value takes a token, so the bound is
spent only at the end of the input.
-/

namespace PipeQuery

namespace Grammar

open Rule State

variable {α β : Type} {s t u : State} {ps qs : List Placed} {kind : Kind}

/-! ## Optional parts -/

theorem accepts_accept_some {x : Placed} {rest : List Placed} (hs : s.Clear)
    (hr : s.stream.rest = x :: rest) (hx : x.1.kind = kind) :
    (accept kind).Accepts s [x] (some x.1) s.bump := by
  have hk : s.kind = x.1.kind := by rw [hs.kind_eq, hr, frontKind_cons]
  unfold accept
  rw [accepts_at?_bind, if_pos (by simp [hk, hx])]
  exact accepts_bind_pure.2 ⟨x.1, accepts_take hs hr, rfl⟩

theorem accepts_accept_none (hs : s.Clear) (hk : s.kind ≠ kind) :
    (accept kind).Accepts s [] none s := by
  unfold accept
  rw [accepts_at?_bind, if_neg (by simp [hk])]
  exact accepts_pure.2 ⟨hs, rfl, rfl, rfl⟩

/-- An optional token was matched, or it does not stand there. -/
theorem Rule.Accepts.of_accept {a : Option Token} (h : (accept kind).Accepts s ps a t)
    (he : kind ≠ .endOfInput) :
    (∃ x, ps = [x] ∧ a = some x.1 ∧ x.1.kind = kind ∧ t = s.bump) ∨
      (ps = [] ∧ a = none ∧ s.kind ≠ kind ∧ t = s) := by
  by_cases hk : s.kind = kind
  · obtain ⟨x, rest, hr, -, hkx⟩ := h.clear.exists_rest (by rwa [hk])
    obtain ⟨rfl, rfl, rfl⟩ := h.unique (accepts_accept_some h.clear hr (hkx.symm.trans hk))
    exact .inl ⟨x, rfl, rfl, hkx.symm.trans hk, rfl⟩
  · obtain ⟨rfl, rfl, rfl⟩ := h.unique (accepts_accept_none h.clear hk)
    exact .inr ⟨rfl, rfl, hk, rfl⟩

theorem accepts_behind_some {r : Rule α} {x : Placed} {rest : List Placed} {a : α} (hs : s.Clear)
    (hr : s.stream.rest = x :: rest) (hx : x.1.kind = kind) (h : r.Accepts s.bump qs a t) :
    (behind kind r).Accepts s (x :: qs) (some a) t := by
  change (behind kind r).Accepts s ([x] ++ qs) (some a) t
  unfold behind
  exact Accepts.bind (accepts_accept_some hs hr hx) (accepts_bind_pure.2 ⟨a, h, rfl⟩)

theorem accepts_behind_none {r : Rule α} (hs : s.Clear) (hk : s.kind ≠ kind) :
    (behind kind r).Accepts s [] none s := by
  change (behind kind r).Accepts s ([] ++ []) none s
  unfold behind
  exact Accepts.bind (accepts_accept_none hs hk) (accepts_pure.2 ⟨hs, rfl, rfl, rfl⟩)

/-- An optional part was read behind its token, or the token does not stand there. -/
theorem Rule.Accepts.of_behind {r : Rule α} [Lawful true r] {a : Option α}
    (h : (behind kind r).Accepts s ps a t) (he : kind ≠ .endOfInput) :
    (∃ x qs b, ps = x :: qs ∧ a = some b ∧ x.1.kind = kind ∧ r.Accepts s.bump qs b t) ∨
      (ps = [] ∧ a = none ∧ s.kind ≠ kind ∧ t = s) := by
  by_cases hk : s.kind = kind
  · obtain ⟨x, rest, hr, -, hkx⟩ := h.clear.exists_rest (by rwa [hk])
    unfold behind at h
    obtain ⟨o, u, qs, rs, rfl, ho, hrest⟩ := h.of_bind fun a => by cases a <;> infer_instance
    obtain ⟨rfl, rfl, rfl⟩ := ho.unique (accepts_accept_some h.clear hr (hkx.symm.trans hk))
    obtain ⟨b, hb, rfl⟩ := accepts_bind_pure.1 hrest
    exact .inl ⟨x, rs, b, rfl, rfl, hkx.symm.trans hk, hb⟩
  · obtain ⟨rfl, rfl, rfl⟩ := h.unique (accepts_behind_none h.clear hk)
    exact .inr ⟨rfl, rfl, hk, rfl⟩

/-! ## Repetition -/

/-- A rule that is fit to be repeated: each value takes a token, and where there is none nothing is
read. -/
class Rule.Optional (r : Rule (Option α)) : Prop where
  /-- A value takes a token. -/
  progress {s t : State} {ps : List Placed} {a : α} (h : r.Accepts s ps (some a) t) : ps ≠ []
  /-- Where there is no value nothing is read. -/
  eq_of_none {s t : State} {ps : List Placed} (h : r.Accepts s ps none t) : ps = [] ∧ t = s
  /-- At the end of the input there is no value. -/
  atEnd {s : State} (hs : s.Clear) (hr : s.stream.rest = []) : r.Accepts s [] none s

instance (r : Rule α) [Lawful true r] [hk : Fact (kind ≠ .endOfInput)] :
    Optional (behind kind r) where
  progress h := by
    obtain ⟨x, qs, b, rfl, -⟩ | ⟨-, hn, -⟩ := h.of_behind hk.out
    · simp
    · simp at hn
  eq_of_none h := by
    obtain ⟨x, qs, b, -, hn, -⟩ | ⟨rfl, -, -, rfl⟩ := h.of_behind hk.out
    · simp at hn
    · exact ⟨rfl, rfl⟩
  atEnd hs hr := accepts_behind_none hs (by rw [hs.kind_eq, hr, frontKind_nil]; exact hk.out.symm)

instance : Fact (Kind.comma ≠ .endOfInput) := ⟨by decide⟩

instance : Fact (Kind.dot ≠ .endOfInput) := ⟨by decide⟩

/-- A rule reads values one after another, until there is no more. -/
inductive Rule.Repeats (r : Rule (Option α)) : State → List Placed → List α → State → Prop
  | done {s : State} (last : r.Accepts s [] none s) : Repeats r s [] [] s
  | more {s t u : State} {ps qs : List Placed} {a : α} {as : List α}
    (first : r.Accepts s ps (some a) u) (rest : Repeats r u qs as t) :
    Repeats r s (ps ++ qs) (a :: as) t

/-- A rule reads some values one after another, and there may be more. -/
inductive Rule.Sequence (r : Rule (Option α)) : State → List Placed → List α → State → Prop
  | nil {s : State} (clear : s.Clear) : Sequence r s [] [] s
  | cons {s t u : State} {ps qs : List Placed} {a : α} {as : List α}
    (first : r.Accepts s ps (some a) u) (rest : Sequence r u qs as t) :
    Sequence r s (ps ++ qs) (a :: as) t

theorem Rule.Sequence.append_singleton {r : Rule (Option α)} {as : List α} {a : α}
    (h : r.Sequence s ps as u) (ha : r.Accepts u qs (some a) t) :
    r.Sequence s (ps ++ qs) (as ++ [a]) t := by
  induction h with
  | nil =>
    have hlast : r.Sequence _ (qs ++ []) [a] t := .cons ha (.nil ha.clear')
    rwa [List.append_nil] at hlast
  | cons first _ ih =>
    rw [List.append_assoc]
    exact .cons first (ih ha)

/-- A sequence behind which there is no more is a repetition. -/
theorem Rule.Sequence.repeats {r : Rule (Option α)} {as : List α} (h : r.Sequence s ps as t)
    (last : r.Accepts t [] none t) : r.Repeats s ps as t := by
  induction h with
  | nil => exact .done last
  | cons first _ ih => exact .more first (ih last)

theorem Rule.Sequence.reads {r : Rule (Option α)} {as : List α} (h : r.Sequence s ps as t) :
    s.Reads ps t := by
  induction h with
  | nil clear => exact clear.reads_refl
  | cons first _ ih => exact first.reads.trans ih

/-- Where a repetition ends there is no more. -/
theorem Rule.Repeats.last {r : Rule (Option α)} {as : List α} (h : r.Repeats s ps as t) :
    r.Accepts t [] none t := by
  induction h with
  | done last => exact last
  | more _ _ ih => exact ih

theorem Rule.Repeats.reads {r : Rule (Option α)} {as : List α} (h : r.Repeats s ps as t) :
    s.Reads ps t := by
  induction h with
  | done last => exact last.reads
  | more first _ ih => exact first.reads.trans ih

/-- What one value after another keeps is kept by the repetition. -/
theorem Rule.Repeats.foldl {r : Rule (Option α)} {as : List α} (h : r.Repeats s ps as t)
    {join : β → α → β} {I : β → List Placed → State → Prop}
    (step : ∀ b qs s a ps t, I b qs s → r.Accepts s ps (some a) t → I (join b a) (qs ++ ps) t)
    {b : β} (hb : I b qs s) : I (as.foldl join b) (qs ++ ps) t := by
  induction h generalizing b qs with
  | done => simpa using hb
  | more first _ ih =>
    rw [← List.append_assoc]
    exact ih (step _ _ _ _ _ _ hb first)

theorem Rule.Repeats.of_upTo {r : Rule (Option α)} [Lawful true r] [ho : Optional r] {n : Nat}
    {values as : List α} (h : (upTo r n values).Accepts s ps as t)
    (hn : s.stream.remaining ≤ n) : ∃ bs, as = values.reverse ++ bs ∧ r.Repeats s ps bs t := by
  induction n generalizing values s ps with
  | zero =>
    have hr : s.stream.rest = [] := List.length_eq_zero_iff.1 (Nat.le_zero.1 hn)
    obtain ⟨hs, rfl, rfl, rfl⟩ := accepts_pure.1 h
    exact ⟨[], (List.append_nil _).symm, .done (ho.atEnd hs hr)⟩
  | succ n ih =>
    rw [upTo_succ] at h
    obtain ⟨o, u, qs, rs, rfl, hfirst, hrest⟩ := h.of_bind fun o => by
      cases o with
      | none => infer_instance
      | some a => exact lawful_upTo true r n (a :: values)
    cases o with
    | none =>
      obtain ⟨rfl, rfl⟩ := ho.eq_of_none hfirst
      obtain ⟨-, rfl, rfl, rfl⟩ := accepts_pure.1 hrest
      exact ⟨[], (List.append_nil _).symm, .done hfirst⟩
    | some a =>
      have hlen := hfirst.reads.stream.remaining
      have hpos := List.length_pos_iff.2 (ho.progress hfirst)
      obtain ⟨bs, rfl, hbs⟩ := ih hrest (by omega)
      exact ⟨a :: bs, by simp, .more hfirst hbs⟩

theorem Rule.Repeats.run_upTo {r : Rule (Option α)} [ho : Optional r] {as : List α}
    (h : r.Repeats s ps as t) {n : Nat} {values : List α} (hn : s.stream.remaining ≤ n) :
    (upTo r n values).run s = (some (values.reverse ++ as), t) := by
  induction h generalizing n values with
  | done last =>
    rw [List.append_nil]
    cases n with
    | zero => rfl
    | succ n =>
      rw [upTo_succ, run_bind, last.run]
      rfl
  | @more s t u ps qs a as first _ ih =>
    have hlen := first.reads.stream.remaining
    have hpos := List.length_pos_iff.2 (ho.progress first)
    cases n with
    | zero => omega
    | succ n =>
      have hu : u.stream.remaining ≤ n := by omega
      rw [upTo_succ, run_bind, first.run]
      change (upTo r n (a :: values)).run u = _
      rw [ih hu, List.reverse_cons, List.append_assoc, List.singleton_append]

/-- A repeated rule accepts values one after another, until there is no more. -/
theorem accepts_many {r : Rule (Option α)} [Lawful true r] [Optional r] {as : List α} :
    (many r).Accepts s ps as t ↔ r.Repeats s ps as t := by
  constructor
  · intro h
    have h' : (upTo r s.stream.remaining []).Accepts s ps as t := ⟨h.run, h.reads⟩
    obtain ⟨bs, rfl, hbs⟩ := Rule.Repeats.of_upTo h' (Nat.le_refl _)
    simpa using hbs
  · intro h
    exact ⟨h.run_upTo (Nat.le_refl _), h.reads⟩

/-! ## Lists -/

/-- Elements that were read behind their separators, with one in front of them, are a list. -/
theorem Rule.Repeats.separated {r : Rule α} [Lawful true r] {D : β → List Placed → Prop} {f : α → β}
    (hk : kind ≠ .endOfInput) {start : State}
    (hD : ∀ s ps a t, start.Leads s → r.Accepts s ps a t → D (f a) ps) {as : List α}
    (h : (behind kind r).Repeats s ps as t) (hs : start.Leads s) {b : β} (hb : D b qs) :
    Separated kind D (b :: as.map f) (qs ++ ps) := by
  induction h generalizing b qs with
  | done => simpa using Separated.one hb
  | @more s t u ps qs a as first _ ih =>
    have hu := hs.trans first.reads.leads
    obtain ⟨x, ps', a, rfl, ha, hx, hr⟩ | ⟨-, hn, -⟩ := first.of_behind hk
    · obtain rfl := Option.some.inj ha
      have hbump : s.Leads s.bump := first.reads.clear.reads_bump.leads
      exact .more hb hx (ih hu (hD _ _ _ _ (hs.trans hbump) hr))
    · simp at hn

/-- A list was read element by element, and no further separator follows. -/
theorem Rule.Accepts.of_separated {r : Rule α} [Lawful true r] [hk : Fact (kind ≠ .endOfInput)]
    {D : α → List Placed → Prop} {as : List α} (h : (Grammar.separated kind r).Accepts s ps as t)
    (hD : ∀ s' ps a t, s.Leads s' → r.Accepts s' ps a t → D a ps) :
    Separated kind D as ps ∧ t.kind ≠ kind := by
  unfold Grammar.separated at h
  obtain ⟨a, u, qs, rs, rfl, hfirst, hrest⟩ := accepts_bind.1 h
  obtain ⟨bs, hbs, rfl⟩ := accepts_bind_pure.1 hrest
  have hrep := accepts_many.1 hbs
  have hsep := hrep.separated (f := id) hk.out hD hfirst.reads.leads
    (hD _ _ _ _ hfirst.clear.reads_refl.leads hfirst)
  refine ⟨by simpa using hsep, ?_⟩
  obtain ⟨x, ps', b, -, hn, -⟩ | ⟨-, -, hk, -⟩ := hrep.last.of_behind hk.out
  · simp at hn
  · exact hk

end Grammar

end PipeQuery
