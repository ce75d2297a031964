import PipeQuery.Proofs.Heights
import PipeQuery.Proofs.Limits

/-!
# Heights of what is read

`Limits.Measures` compares the runs of a rule under two limits. As long as the first run reports
nothing, the second one does the same, or the value that the first one answers is too high for it,
and then the second one blames the nesting before anything else. Whatever is reported, the values
of the first run are no higher than the levels that are left to it.

A rule may stand behind others whose values it puts into its own. How high those values are is known
when it begins: its own values are no less high, and a second run whose levels do not suffice for
what is known has not come so far. With this `Limits.Measures` is closed under the combinators
(`Measures.bind`).
-/

namespace PipeQuery

namespace Grammar

open State Rule

variable {α β : Type}

instance : LawfulMonad Rule := .mk' Rule
  (fun r => by
    funext s
    change (r >>= fun a => Pure.pure (id a)).run s = r.run s
    rw [run_bind]
    obtain ⟨_ | a, t⟩ := r.run s <;> rfl)
  (fun _ _ => rfl)
  (fun r f g => by
    funext s
    change (r >>= f >>= g).run s = (r >>= fun a => f a >>= g).run s
    rw [run_bind, run_bind, run_bind]
    obtain ⟨_ | a, t⟩ := r.run s <;> rfl)

/-- Two runs: the levels that are left to each of them, and the limit of the second one. -/
structure Limits where
  /-- The levels that are left to the first run. -/
  levels : Nat
  /-- The levels that are left to the second run. -/
  levels' : Nat
  /-- The limit that the second run blames. -/
  limit : Nat

namespace Limits

/-- What a run and one under another limit come to: they do the same, as the value is not too high
for the second one; or it is, and the second one blames the nesting first; or the first one reports
something. -/
inductive Outcome (L : Limits) (height : α → Nat) :
    Option α × State → Option α × State → Prop
  | within {a : α} {t : State} (fits : height a ≤ L.levels') (clear : t.Clear) :
    Outcome L height (some a, t) (some a, t.limited L.limit)
  | beyond {a : α} {t : State} {x' : Option α × State} (exceeds : L.levels' < height a)
    (first : x'.2.TooDeep L.limit) : Outcome L height (some a, t) x'
  | faulty {x x' : Option α × State} (diagnostics : x.2.diagnostics ≠ #[]) : Outcome L height x x'

/-- Rules whose values are as high as is known at least, and no higher than the levels that are
left; the second one does as the first one, as long as its levels suffice. -/
structure Measures (L : Limits) (known : Nat) (height : α → Nat) (r r' : Rule α) : Prop where
  /-- The first rule is lawful. -/
  lawful : Lawful true r
  /-- The second rule is lawful. -/
  lawful' : Lawful true r'
  /-- The values of the first rule contain what is known already. -/
  known_le {s t : State} {a : α} (h : r.run s = (some a, t)) : known ≤ height a
  /-- The values of the first rule have their levels. -/
  height_le {s t : State} {a : α} (h : r.run s = (some a, t)) (hk : known ≤ L.levels) :
    height a ≤ L.levels
  /-- The second rule does the same, as long as its levels suffice. -/
  outcome {s : State} (hs : s.Clear) (hk : known ≤ L.levels') :
    L.Outcome height (r.run s) (r'.run (s.limited L.limit))

variable {L : Limits} {k : Nat} {height : α → Nat} {r r' : Rule α} {q q' : Rule (Option α)}

/-- It only matters which values fit into the levels. -/
theorem Outcome.congr {L' : Limits} {height' : α → Nat} {x x' : Option α × State}
    (h : L.Outcome height x x') (limit : L'.limit = L.limit)
    (heights : ∀ a, height a ≤ L.levels' ↔ height' a ≤ L'.levels') : L'.Outcome height' x x' := by
  cases h with
  | within fits clear =>
    rw [← limit]
    exact .within ((heights _).1 fits) clear
  | beyond exceeds first =>
    rw [← limit] at first
    exact .beyond (Nat.lt_of_not_le fun hle => Nat.not_le.2 exceeds ((heights _).2 hle)) first
  | faulty diagnostics => exact .faulty diagnostics

namespace Measures

theorem pure {a : α} (h : height a = k) : L.Measures k height (pure a) (pure a) where
  lawful := inferInstance
  lawful' := inferInstance
  known_le hrun := by
    cases hrun
    exact Nat.le_of_eq h.symm
  height_le hrun hk := by
    cases hrun
    exact h ▸ hk
  outcome hs hk := .within (h ▸ hk) hs

/-- What is reported first is so whatever comes behind it. -/
theorem tooDeep_bind {f : α → Rule β} (hf : ∀ a, Lawful true (f a)) {s : State} {limit : Nat}
    (h : (r.run s).2.TooDeep limit) : ((r >>= f).run s).2.TooDeep limit := by
  rw [run_bind]
  generalize r.run s = x at h ⊢
  obtain ⟨_ | a, t⟩ := x
  · exact h
  · exact h.steps ((hf a).steps t)

/-- A rule behind another one, whose value it puts into its own. -/
theorem bind {f f' : α → Rule β} {height' : β → Nat} (hr : L.Measures k height r r')
    (hf : ∀ a, L.Measures (height a) height' (f a) (f' a)) :
    L.Measures k height' (r >>= f) (r' >>= f') where
  lawful := by
    have := hr.lawful
    exact .bind fun a => (hf a).lawful
  lawful' := by
    have := hr.lawful'
    exact .bind fun a => (hf a).lawful'
  known_le h := by
    obtain ⟨a, u, hra, hfb⟩ := run_bind_eq_some.1 h
    exact Nat.le_trans (hr.known_le hra) ((hf a).known_le hfb)
  height_le h hk := by
    obtain ⟨a, u, hra, hfb⟩ := run_bind_eq_some.1 h
    exact (hf a).height_le hfb (hr.height_le hra hk)
  outcome {s} hs hk := by
    have hlawful := hr.lawful
    have hregular : (r.run s).2.Regular := Lawful.regular true r hs.toRegular
    have h := hr.outcome hs hk
    have hdeep : (r'.run (s.limited L.limit)).2.TooDeep L.limit →
        ((r' >>= f').run (s.limited L.limit)).2.TooDeep L.limit :=
      tooDeep_bind fun a => (hf a).lawful'
    rw [run_bind] at hdeep ⊢
    rw [run_bind]
    generalize r.run s = x at h hregular ⊢
    generalize r'.run (s.limited L.limit) = x' at h hdeep ⊢
    cases h with
    | within fits clear => exact (hf _).outcome clear fits
    | @beyond a t x' exceeds first =>
      -- whatever comes behind a value that is too high puts it into its own value
      change L.Outcome height' ((f a).run t) _
      have hblames := (hf a).lawful.blames t hregular
      cases hfa : (f a).run t with
      | mk b u =>
        rw [hfa] at hblames
        cases b with
        | none => exact .faulty (hblames rfl)
        | some b =>
          exact .beyond (Nat.lt_of_lt_of_le exceeds ((hf a).known_le hfa)) (hdeep first)
    | faulty diagnostics =>
      obtain ⟨_ | a, t⟩ := x
      · exact .faulty diagnostics
      · exact .faulty fun hd => diagnostics (((hf a).lawful.steps t).diagnostics hd)

/-- A rule for leaves, which adds nothing to what is known already. -/
theorem leaf (r : Rule α) [hl : Lawful true r] [hr : Steady r] :
    L.Measures k (fun _ => k) r r where
  lawful := hl
  lawful' := hl
  known_le _ := Nat.le_refl k
  height_le _ hk := hk
  outcome {s} hs hk := by
    rw [hr.run_limited]
    have hregular : (r.run s).2.Regular := Lawful.regular true r hs.toRegular
    have hblames := hl.blames s hs.toRegular
    generalize r.run s = x at hregular hblames ⊢
    obtain ⟨_ | a, t⟩ := x
    · exact .faulty (hblames rfl)
    · by_cases hd : t.diagnostics = #[]
      · exact .within hk ⟨hregular, hd⟩
      · exact .faulty hd

/-- What stands behind leaves. -/
theorem after {r : Rule β} [Lawful true r] [Steady r] {f f' : β → Rule α}
    (hf : ∀ b, L.Measures k height (f b) (f' b)) : L.Measures k height (r >>= f) (r >>= f') :=
  (leaf r).bind hf

/-- A value of the state. -/
theorem ask {f : State → α} (h : ∀ s, height (f s) = k)
    (hl : ∀ limit s, f (State.limited limit s) = f s) : L.Measures k height (ask f) (ask f) where
  lawful := inferInstance
  lawful' := inferInstance
  known_le hrun := by
    cases hrun
    exact Nat.le_of_eq (h _).symm
  height_le hrun hk := by
    cases hrun
    exact h _ ▸ hk
  outcome {s} hs hk := by
    rw [run_ask, run_ask, hl]
    exact .within (h s ▸ hk) hs

/-- A rule that always gives up. -/
theorem stopped [hl : Lawful true r] [hl' : Lawful true r'] (h : ∀ s, (r.run s).1 = none) :
    L.Measures k height r r' where
  lawful := hl
  lawful' := hl'
  known_le {s t a} hrun := by
    have hnone := h s
    rw [hrun] at hnone
    cases hnone
  height_le {s t a} hrun := by
    have hnone := h s
    rw [hrun] at hnone
    cases hnone
  outcome {s} hs _ := .faulty (hl.blames s hs.toRegular (h s))

/-- A rule behind what is known already. -/
theorem above (hr : L.Measures 0 height r r') (k : Nat) :
    L.Measures k (fun a => max k (height a)) r r' where
  lawful := hr.lawful
  lawful' := hr.lawful'
  known_le _ := Nat.le_max_left ..
  height_le hrun hk := Nat.max_le.2 ⟨hk, hr.height_le hrun (Nat.zero_le _)⟩
  outcome hs hk := (hr.outcome hs (Nat.zero_le _)).congr rfl fun _ =>
    ⟨fun fits => Nat.max_le.2 ⟨hk, fits⟩, fun fits => (Nat.max_le.1 fits).2⟩

/-- What stands behind a rule that nests something. -/
theorem next {f f' : α → Rule β} {height' : β → Nat} (hr : L.Measures 0 height r r')
    (hf : ∀ a, L.Measures (max k (height a)) height' (f a) (f' a)) :
    L.Measures k height' (r >>= f) (r' >>= f') := (hr.above k).bind hf

protected theorem within (hr : L.Measures k height r r') (scope : Scope → Scope) :
    L.Measures k height (within scope r) (within scope r') where
  lawful := by
    have := hr.lawful
    infer_instance
  lawful' := by
    have := hr.lawful'
    infer_instance
  known_le hrun := by
    rw [run_within, Prod.mk.injEq] at hrun
    exact hr.known_le (Prod.ext hrun.1 rfl)
  height_le hrun := by
    rw [run_within, Prod.mk.injEq] at hrun
    exact hr.height_le (Prod.ext hrun.1 rfl)
  outcome {s} hs hk := by
    have h := hr.outcome (hs.inScope (scope s.scope)) hk
    rw [run_within, run_within]
    change L.Outcome height _ ((r'.run (State.limited L.limit { s with scope := scope s.scope })).1,
      { (r'.run (State.limited L.limit { s with scope := scope s.scope })).2 with
        scope := s.scope })
    generalize r.run { s with scope := scope s.scope } = x at h ⊢
    generalize r'.run (State.limited L.limit { s with scope := scope s.scope }) = x' at h ⊢
    cases h with
    | within fits clear => exact .within fits (clear.inScope s.scope)
    | beyond exceeds first => exact .beyond exceeds first
    | faulty diagnostics => exact .faulty diagnostics

/-- A rule whose value takes the span of its tokens. -/
theorem spanned {f f' : Rule (Span → α)}
    (h : ∀ start, L.Measures k height (f >>= fun g => Rule.ask fun s => g (s.spanFrom start))
      (f' >>= fun g => Rule.ask fun s => g (s.spanFrom start))) :
    L.Measures k height (spanned f) (spanned f') := .after h

/-! ### Repetition -/

theorem upTo (hr : L.Measures 0 (fun o => o.elim 0 height) q q') (n : Nat) (values : List α) :
    L.Measures (tallest height values) (tallest height) (upTo q n values) (upTo q' n values) := by
  induction n generalizing values with
  | zero => exact .pure (tallest_reverse height values)
  | succ n ih =>
    rw [upTo_succ, upTo_succ]
    refine hr.next fun o => ?_
    cases o with
    | none => exact .pure (by simp)
    | some a =>
      have h := ih (a :: values)
      rwa [tallest_cons, Nat.max_comm] at h

theorem many (hr : L.Measures 0 (fun o => o.elim 0 height) q q') :
    L.Measures 0 (tallest height) (many q) (many q') where
  lawful := by
    have := hr.lawful
    infer_instance
  lawful' := by
    have := hr.lawful'
    infer_instance
  known_le _ := Nat.zero_le _
  height_le {s t as} h := (hr.upTo s.stream.remaining []).height_le h
  outcome {s} hs := (hr.upTo s.stream.remaining []).outcome hs

theorem behind (hr : L.Measures 0 height r r') (kind : Kind) :
    L.Measures 0 (fun o => o.elim 0 height) (behind kind r) (behind kind r') := by
  unfold Grammar.behind
  refine .after fun token => ?_
  cases token with
  | none => exact .pure rfl
  | some token => exact hr.bind fun a => .pure rfl

theorem separated (hr : L.Measures 0 height r r') (kind : Kind) :
    L.Measures 0 (tallest height) (separated kind r) (separated kind r') := by
  unfold Grammar.separated
  exact hr.bind fun first => (hr.behind kind).many.next fun rest => .pure rfl

theorem parenthesised (hr : L.Measures k height r r') :
    L.Measures k height (parenthesised r) (parenthesised r') := by
  unfold Grammar.parenthesised
  exact .after fun left => hr.bind fun a => .after fun right => .pure rfl

theorem arguments (hr : L.Measures 0 height r r') :
    L.Measures 0 (tallest height) (arguments r) (arguments r') := by
  refine .parenthesised (.after fun closed => ?_)
  cases closed with
  | true => exact .pure rfl
  | false => exact hr.separated .comma

/-! ### Levels -/

/-- Where no level is left, the second rule blames the nesting. -/
theorem of_tooDeep {n m limit : Nat} (hr : (Limits.mk n m limit).Measures 0 height r r')
    (hpos : ∀ a, 0 < height a) : (Limits.mk n 0 limit).Measures 0 height r tooDeep where
  lawful := hr.lawful
  lawful' := inferInstance
  known_le := hr.known_le
  height_le := hr.height_le
  outcome {s} hs _ := by
    have hblames := hr.lawful.blames s hs.toRegular
    generalize r.run s = x at hblames ⊢
    obtain ⟨_ | a, t⟩ := x
    · exact .faulty (hblames rfl)
    · exact .beyond (hpos a) ((hs.limited limit).tooDeep_blame limit)

/-- A level around what is read takes a level more. -/
theorem deeper {n m limit : Nat} (hr : (Limits.mk n m limit).Measures 0 height r r') :
    (Limits.mk (n + 1) (m + 1) limit).Measures 0 (height · + 1) r r' where
  lawful := hr.lawful
  lawful' := hr.lawful'
  known_le _ := Nat.zero_le _
  height_le hrun _ := Nat.succ_le_succ (hr.height_le hrun (Nat.zero_le _))
  outcome hs _ := (hr.outcome hs (Nat.zero_le _)).congr rfl fun _ => Nat.succ_le_succ_iff.symm

/-- Rules on all levels: there is none on the lowest one, and each other rule nests what it reads
on the level below it. -/
theorem of_levels {n limit : Nat} {R : Nat → Rule α} (zero : R 0 = tooDeep)
    (succ : ∀ m, (Limits.mk n m limit).Measures 0 height (R (n + 1)) (R (m + 1))) (m : Nat) :
    (Limits.mk (n + 1) m limit).Measures 0 (height · + 1) (R (n + 1)) (R m) := by
  cases m with
  | zero =>
    rw [zero]
    exact (succ 0).deeper.of_tooDeep fun a => Nat.succ_pos _
  | succ m => exact (succ m).deeper

end Measures

end Limits

end Grammar

end PipeQuery
