import Mathlib.Data.List.Chain
import PipeQuery.Proofs.Invariants
import PipeQuery.Proofs.StageReadings

/-!
# One mistake, one diagnostic

A run matches tokens and blames tokens, and a `Deed` is one of either with the place of the token
among those that the grammar reads. `State.Does` is a run that is taken down deed by deed. In such a
log each blamed token stands behind the one blamed before it, and some token is matched in between
(`Ordered`).

Each step keeps that, but one: a comparison that turns out to be none of the six is blamed when it
has been matched already. So it must not have been blamed before, which is why a rule that goes on
keeps more than one that gives up (`Going` and `Led`). These are an invariant of runs
(`invariant_going`).
-/

namespace PipeQuery

namespace Grammar

/-- The number of tokens that were read, of those that the grammar sees. -/
def State.place (s : State) : Nat :=
  (TokenStream.significant s.stream.tokens).length - s.stream.remaining

/-- What a run does to a token. -/
inductive Deed where
  /-- The token at a place is matched. -/
  | matched (place : Nat)
  /-- The token at a place is blamed. -/
  | blamed (place : Nat) (diagnostic : Diagnostic)

/-- The place and the diagnostic, if the token is blamed. -/
def Deed.blame? : Deed → Option (Nat × Diagnostic)
  | matched _ => none
  | blamed place diagnostic => some (place, diagnostic)

/-- What is blamed in a log, in order. -/
def blames (log : List Deed) : List (Nat × Diagnostic) := log.filterMap Deed.blame?

/-- A run from one state to another one, with what it does to tokens. A diagnostic is about the next
token, or about a token that has just been matched. -/
inductive State.Does : State → List Deed → State → Prop
  | refl (s : State) : Does s [] s
  | bump {s t : State} {log : List Deed} (run : Does s log t) (rest : t.stream.rest ≠ []) :
    Does s (log ++ [.matched t.place]) t.bump
  | skip {s t : State} {log : List Deed} (run : Does s log t) : Does s log t.skip
  | note {s t : State} {log : List Deed} (run : Does s log t) (e : Event) : Does s log (t.note e)
  | record {s t : State} {log : List Deed} (run : Does s log t) (kind : Kind) (span : Span) :
    Does s log (t.record kind span)
  | inScope {s t : State} {log : List Deed} (run : Does s log t) (scope : Scope) :
    Does s log { t with scope := scope }
  | blame {s t : State} {log : List Deed} (run : Does s log t) (settled : t.recovering = false)
    (cause : Diagnostic.Cause) :
    Does s (log ++ [.blamed t.place ⟨cause, t.current⟩]) (t.blame cause)
  | refuse {s t : State} {log : List Deed} (run : Does s log t) (rest : t.stream.rest ≠ [])
    (cause : Diagnostic.Cause) :
    Does s (log ++ [.matched t.place, .blamed t.place ⟨cause, t.current⟩])
      (t.bump.report ⟨cause, t.current⟩)

@[simp] theorem blames_append (l m : List Deed) : blames (l ++ m) = blames l ++ blames m :=
  List.filterMap_append

@[simp] theorem blames_matched (i : Nat) : blames [.matched i] = [] := rfl

@[simp] theorem blames_blamed (i : Nat) (d : Diagnostic) : blames [.blamed i d] = [(i, d)] := rfl

@[simp] theorem blames_refused (i : Nat) (d : Diagnostic) :
    blames [.matched i, .blamed i d] = [(i, d)] := rfl

variable {start s t : State} {log : List Deed}

/-! ## Places -/

theorem State.place_eq {ps : List Placed}
    (h : (TokenStream.ofTokens s.stream.tokens).Reads ps s.stream) : s.place = ps.length := by
  have hrest : TokenStream.significant s.stream.tokens = ps ++ s.stream.rest := h.rest
  rw [State.place, hrest, List.length_append, TokenStream.remaining, Nat.add_sub_cancel]

/-- The next token stands at the place that the state has come to. -/
theorem State.seen_place (hs : s.stream.Valid) :
    (TokenStream.seen s.stream.tokens)[s.place]? = some s.current := by
  obtain ⟨ps, hps⟩ := hs
  rw [State.place_eq hps]
  exact (seen_getElem? hps).1

theorem State.place_next (hs : s.stream.Valid) (hr : s.stream.rest ≠ []) {u : TokenStream}
    (hu : u = s.stream.next) : State.place { s with stream := u } = s.place + 1 := by
  obtain ⟨ps, hps⟩ := hs
  obtain ⟨x, rest, hrest⟩ := List.exists_cons_of_ne_nil hr
  have hnext := s.stream.reads_next
  rw [hrest] at hnext
  subst hu
  rw [State.place_eq hps, State.place_eq (s := { s with stream := s.stream.next })
    (hnext.tokens ▸ hps.trans hnext)]
  simp

namespace State.Does

theorem tokens (h : start.Does log t) : t.stream.tokens = start.stream.tokens := by
  have hnext (u : State) : u.stream.next.tokens = u.stream.tokens := u.stream.reads_next.tokens
  induction h with
  | refl => rfl
  | bump _ _ ih => exact (hnext _).trans ih
  | skip _ ih => exact (hnext _).trans ih
  | note _ _ ih | record _ _ _ ih | inScope _ _ ih => exact ih
  | blame _ _ _ ih => rwa [State.blame, stream_report]
  | refuse _ _ _ ih =>
    rw [stream_report]
    exact (hnext _).trans ih

theorem valid (h : start.Does log t) (hs : start.stream.Valid) : t.stream.Valid := by
  induction h with
  | refl => exact hs
  | bump _ _ ih => exact ih.reads (TokenStream.reads_next _)
  | skip _ ih => exact ih.reads (TokenStream.reads_next _)
  | note _ _ ih | record _ _ _ ih | inScope _ _ ih => exact ih
  | blame _ _ _ ih => rwa [State.blame, stream_report]
  | refuse _ _ _ ih =>
    rw [stream_report]
    exact ih.reads (TokenStream.reads_next _)

/-- The diagnostics are those that the log has. -/
theorem diagnostics (h : start.Does log t) :
    t.diagnostics.toList = start.diagnostics.toList ++ (blames log).map Prod.snd := by
  induction h with
  | refl => simp [blames]
  | bump _ _ ih => simpa [State.bump] using ih
  | skip _ ih | note _ _ ih | record _ _ _ ih | inScope _ _ ih => exact ih
  | blame _ settled _ ih => simp [State.blame, State.report, settled, ih]
  | refuse _ _ _ ih => simp [State.report, State.bump, ih]

/-- A blamed token stands at its place. -/
theorem seen (h : start.Does log t) (hs : start.stream.Valid) :
    ∀ b ∈ blames log, (TokenStream.seen start.stream.tokens)[b.1]? = some b.2.token := by
  have hplace {u : State} {log : List Deed} (hu : start.Does log u) :
      (TokenStream.seen start.stream.tokens)[u.place]? = some u.current := by
    rw [← hu.tokens]
    exact State.seen_place (hu.valid hs)
  induction h with
  | refl => simp [blames]
  | bump _ _ ih => simpa using ih
  | skip _ ih | note _ _ ih | record _ _ _ ih | inScope _ _ ih => exact ih
  | blame run _ _ ih | refuse run _ _ ih =>
    intro b hb
    simp only [blames_append, blames_blamed, blames_refused, List.mem_append,
      List.mem_singleton] at hb
    rcases hb with hb | rfl
    · exact ih b hb
    · exact hplace run

end State.Does

/-! ## What is kept -/

/-- All that was blamed stands in front of the next token. -/
def Fresh (log : List Deed) (s : State) : Prop := ∀ b ∈ blames log, b.1 < s.place

/-- Blames of one run so far: each stands behind the one before it, with a match in between. -/
structure Ordered (log : List Deed) (s : State) : Prop where
  /-- The tokens are read from their beginning. -/
  valid : s.stream.Valid
  /-- The places of what is blamed grow. -/
  increasing : (blames log).Pairwise fun a b => a.1 < b.1
  /-- No two blames follow each other. -/
  apart : log.IsChain fun x y => x.blame?.isSome = true → y.blame? = none
  /-- Nothing is blamed in advance. -/
  behind : ∀ b ∈ blames log, b.1 ≤ s.place
  /-- Unless diagnostics are held back, a token was matched last. -/
  settled : s.recovering = false → Fresh log s ∧ ∀ x ∈ log.getLast?, x.blame? = none

/-- A run up to a rule that has given up. -/
def Led (start s : State) : Prop := ∃ log, start.Does log s ∧ Ordered log s

/-- A run up to a rule that goes on: a comparison that is next has not been blamed. -/
def Going (start s : State) : Prop :=
  ∃ log, start.Does log s ∧ Ordered log s ∧ (s.kind = .comparison → Fresh log s)

theorem State.blame_of_recovering (h : s.recovering = true) (cause : Diagnostic.Cause) :
    s.blame cause = s.note (.suppressing ⟨cause, s.current⟩) := by
  rw [State.blame, State.report, if_pos h]

theorem kind_ne_of_atBoundary (h : s.atBoundary = true) : s.kind ≠ .comparison := by
  intro hk
  simp [State.atBoundary, hk] at h

/-- Only the tokens that are left and the reports that are held back count. -/
theorem Ordered.congr (h : Ordered log s) (hs : t.stream = s.stream)
    (hr : t.recovering = s.recovering) : Ordered log t := by
  have hplace : t.place = s.place := by rw [State.place, State.place, hs]
  refine ⟨hs ▸ h.valid, h.increasing, h.apart, ?_, ?_⟩
  · rw [hplace]
    exact h.behind
  · rw [hr, Fresh, hplace]
    exact h.settled

/-- A blame of the next token stands behind all the others. -/
theorem Ordered.increasing_append (h : Ordered log s) (hf : Fresh log s) (d : Diagnostic) :
    (blames log ++ [(s.place, d)]).Pairwise fun a b => a.1 < b.1 := by
  refine List.pairwise_append.2 ⟨h.increasing, List.pairwise_singleton .., fun a ha b hb => ?_⟩
  obtain rfl := List.mem_singleton.1 hb
  exact hf a ha

namespace Going

theorem led (h : Going start s) : Led start s := by
  obtain ⟨log, hdoes, hordered, -⟩ := h
  exact ⟨log, hdoes, hordered⟩

theorem of_same (h : Going start s) (hdoes : ∀ log, start.Does log s → start.Does log t)
    (hs : t.stream = s.stream) (hr : t.recovering = s.recovering) : Going start t := by
  obtain ⟨log, hlog, hordered, hfresh⟩ := h
  refine ⟨log, hdoes log hlog, hordered.congr hs hr, ?_⟩
  rw [State.kind, hs, Fresh, State.place, hs]
  exact hfresh

theorem note (h : Going start s) (e : Event) : Going start (s.note e) :=
  h.of_same (fun _ hlog => hlog.note e) rfl rfl

theorem record (h : Going start s) (kind : Kind) (span : Span) :
    Going start (s.record kind span) := h.of_same (fun _ hlog => hlog.record kind span) rfl rfl

theorem inScope (h : Going start s) (scope : Scope) : Going start { s with scope := scope } :=
  h.of_same (fun _ hlog => hlog.inScope scope) rfl rfl

end Going

namespace Led

theorem going (h : Led start s) (hk : s.kind ≠ .comparison) : Going start s := by
  obtain ⟨log, hdoes, hordered⟩ := h
  exact ⟨log, hdoes, hordered, fun h => absurd h hk⟩

theorem valid (h : Led start s) : s.stream.Valid := by
  obtain ⟨log, -, hordered⟩ := h
  exact hordered.valid

theorem of_same (h : Led start s) (hdoes : ∀ log, start.Does log s → start.Does log t)
    (hs : t.stream = s.stream) (hr : t.recovering = s.recovering) : Led start t := by
  obtain ⟨log, hlog, hordered⟩ := h
  exact ⟨log, hdoes log hlog, hordered.congr hs hr⟩

theorem note (h : Led start s) (e : Event) : Led start (s.note e) :=
  h.of_same (fun _ hlog => hlog.note e) rfl rfl

theorem record (h : Led start s) (kind : Kind) (span : Span) : Led start (s.record kind span) :=
  h.of_same (fun _ hlog => hlog.record kind span) rfl rfl

theorem inScope (h : Led start s) (scope : Scope) : Led start { s with scope := scope } :=
  h.of_same (fun _ hlog => hlog.inScope scope) rfl rfl

/-- Behind a token that is passed over, all that was blamed is past. -/
theorem skip (h : Led start s) (hr : s.stream.rest ≠ []) : Going start s.skip := by
  obtain ⟨log, hdoes, hordered⟩ := h
  have hplace : s.skip.place = s.place + 1 := State.place_next hordered.valid hr rfl
  have hfresh : Fresh log s.skip := fun b hb => by
    have := hordered.behind b hb
    omega
  exact ⟨log, hdoes.skip, ⟨hordered.valid.reads (TokenStream.reads_next _), hordered.increasing,
    hordered.apart, fun b hb => Nat.le_of_lt (hfresh b hb),
    fun hr => ⟨hfresh, (hordered.settled hr).2⟩⟩, fun _ => hfresh⟩

/-- Behind a token that is matched, all that was blamed is past. -/
theorem bump (h : Led start s) (hr : s.stream.rest ≠ []) : Going start s.bump := by
  obtain ⟨log, hdoes, hordered⟩ := h
  have hplace : s.bump.place = s.place + 1 := State.place_next hordered.valid hr rfl
  have hfresh : Fresh (log ++ [.matched s.place]) s.bump := fun b hb => by
    have := hordered.behind b (by simpa using hb)
    omega
  refine ⟨_, hdoes.bump hr, ⟨hordered.valid.reads (TokenStream.reads_next _), ?_, ?_,
    fun b hb => Nat.le_of_lt (hfresh b hb), fun _ => ⟨hfresh, ?_⟩⟩, fun _ => hfresh⟩
  · simpa using hordered.increasing
  · exact List.isChain_append.2 ⟨hordered.apart, .singleton _, by simp [Deed.blame?]⟩
  · simp [Deed.blame?]

/-- The next token is blamed behind all that was blamed before, unless the blame is held back. -/
theorem blame (h : Led start s) (cause : Diagnostic.Cause) : Led start (s.blame cause) := by
  cases hrec : s.recovering with
  | true =>
    rw [State.blame_of_recovering hrec]
    exact h.note _
  | false =>
    obtain ⟨log, hdoes, hordered⟩ := h
    obtain ⟨hfresh, hlast⟩ := hordered.settled hrec
    have hstate : (s.blame cause).stream = s.stream := State.stream_report _ _
    have hplace : (s.blame cause).place = s.place := by rw [State.place, State.place, hstate]
    refine ⟨_, hdoes.blame hrec cause, hstate ▸ hordered.valid, ?_, ?_, ?_, ?_⟩
    · rw [blames_append]
      exact hordered.increasing_append hfresh _
    · refine List.isChain_append.2 ⟨hordered.apart, .singleton _, fun x hx y _ hblame => ?_⟩
      simp [hlast x hx] at hblame
    · intro b hb
      rw [hplace]
      simp only [blames_append, blames_blamed, List.mem_append, List.mem_singleton] at hb
      rcases hb with hb | rfl
      · exact hordered.behind b hb
      · exact Nat.le_refl _
    · intro hrec'
      simp [State.blame, State.report, hrec] at hrec'

theorem passOver (h : Led start s) (n : Nat) : Led start (s.passOver n) := by
  induction n generalizing s with
  | zero => exact h
  | succ n ih =>
    rw [State.passOver]
    split
    · exact h
    · next hend =>
      have hr : s.stream.rest ≠ [] := fun hr => hend (by simp [TokenStream.atEnd, hr])
      exact ih (h.skip hr).led

/-- A stage is passed over up to a token that is no comparison. -/
theorem resync (h : Led start s) (i : Nat) : Going start (s.resync i).2 := by
  have hpass := h.passOver s.stream.remaining
  exact ((hpass.note _).record .error _).going
    (kind_ne_of_atBoundary (State.atBoundary_resync h.valid i))

end Led

/-- A comparison that was not blamed is matched and then blamed. -/
theorem Going.refuse (h : Going start s) (hk : s.kind = .comparison) (cause : Diagnostic.Cause) :
    Led start (s.bump.report ⟨cause, s.current⟩) := by
  obtain ⟨log, hdoes, hordered, hfresh⟩ := h
  have hfresh : Fresh log s := hfresh hk
  have hr : s.stream.rest ≠ [] := fun hr => by
    have hend : s.kind = .endOfInput := hordered.valid.kind_eq_endOfInput_iff.2 hr
    simp [hend] at hk
  have hstream : (s.bump.report ⟨cause, s.current⟩).stream = s.stream.next :=
    State.stream_report _ _
  have hplace : (s.bump.report ⟨cause, s.current⟩).place = s.place + 1 := by
    rw [State.place, hstream]
    exact State.place_next hordered.valid hr rfl
  refine ⟨_, hdoes.refuse hr cause, ?_, ?_, ?_, ?_, ?_⟩
  · rw [hstream]
    exact hordered.valid.reads (TokenStream.reads_next _)
  · rw [blames_append]
    exact hordered.increasing_append hfresh _
  · refine List.isChain_append.2 ⟨hordered.apart, ?_, by simp [Deed.blame?]⟩
    simp [Deed.blame?]
  · intro b hb
    rw [hplace]
    simp only [blames_append, blames_refused, List.mem_append, List.mem_singleton] at hb
    rcases hb with hb | rfl
    · exact (hordered.behind b hb).trans (Nat.le_succ _)
    · exact Nat.le_succ _
  · intro hrec
    simp [State.report, State.bump] at hrec

/-- Where no two blames follow each other, a token is matched in between. -/
theorem exists_matched {between behind : List Deed} {i j : Nat} {d e : Diagnostic}
    (h : (.blamed i d :: (between ++ .blamed j e :: behind) : List Deed).IsChain
      fun x y => x.blame?.isSome = true → y.blame? = none) : ∃ k, .matched k ∈ between := by
  cases between with
  | nil => simp [Deed.blame?] at h
  | cons x between =>
    cases x with
    | matched k => exact ⟨k, List.mem_cons_self ..⟩
    | blamed k c => simp [Deed.blame?] at h

/-! ## Runs of the rules -/

theorem invariant_going (start : State) : Invariant (Going start) (Led start) where
  valid h := h.led.valid
  bump h hr := h.led.bump hr
  skip h hr := h.led.skip hr
  note h e := h.note e
  record h kind span := h.record kind span
  inScope h scope := h.inScope scope
  stoppedInScope h scope := h.inScope scope
  delete {s} h hr expected := by
    refine ((h.note _).led.blame _).skip ?_
    rwa [State.blame, State.stream_report]
  insert {s} h hb expected := by
    refine ((h.note _).led.blame _).going ?_
    rw [State.kind, State.blame, State.stream_report]
    exact kind_ne_of_atBoundary hb
  stop h cause := h.led.blame cause
  unknown h hk := h.refuse hk _
  resync h i := h.resync i
  skipExtraneous h _ _ := (h.led.blame _).resync _

theorem going_start (config : Config) (tokens : List Token) :
    Going (.start config tokens) (.start config tokens) :=
  ⟨[], .refl _, ⟨TokenStream.valid_ofTokens tokens, .nil, .nil, by simp [blames],
    fun _ => ⟨by simp [Fresh, blames], by simp⟩⟩, fun _ => by simp [Fresh, blames]⟩

end Grammar

open Grammar

/-- One mistake leads to one diagnostic. A run takes down the tokens that it matches and blames, one
after the other, with their places among the tokens that the grammar reads. The diagnostics are the
blames of that log, in order; each is about the token at its place; the places grow from one blame
to the next one; and in between some token is matched. -/
theorem blames_parse (tokens : List Token) (config : Config) :
    ∃ log : List Deed,
      (State.start config tokens).Does log
        (statement config.maxDepth (.start config tokens)).2 ∧
      (blames log).map Prod.snd = (parse tokens config).diagnostics ∧
      (∀ b ∈ blames log, (TokenStream.seen tokens)[b.1]? = some b.2.token) ∧
      (blames log).Pairwise (fun a b => a.1 < b.1) ∧
      ∀ (before between behind : List Deed) (i j : Nat) (d e : Diagnostic),
        log = before ++ .blamed i d :: (between ++ .blamed j e :: behind) →
          ∃ k, .matched k ∈ between := by
  obtain ⟨log, hdoes, hordered, -⟩ :=
    (invariant_going _).query config.maxDepth (going_start config tokens)
  refine ⟨log, hdoes, ?_, hdoes.seen (TokenStream.valid_ofTokens tokens), hordered.increasing, ?_⟩
  · exact hdoes.diagnostics.symm
  · rintro before between behind i j d e rfl
    exact exists_matched (List.isChain_append.1 hordered.apart).2.1

end PipeQuery
