import Mathlib.Data.List.TakeWhile
import PipeQuery.Proofs.SameStage
import PipeQuery.Proofs.StageReadings

/-!
# From stage to stage

Two streams with a region in common (`Common`) agree on a stage that lies in it. So the stage is read
in the same way (`Common.pipedReading_eq`, `Common.sourceReading_eq`), up to its place.

A stream has all of itself in common with itself. So behind a stage there is the pipe that ends it,
whatever the stage holds, and there everything is as at the beginning of the text
(`State.Fresh.settled_pipedReading`). By induction there is one reading for each pipe, and it begins
right behind the pipe (`getElem?_pipedReadings`).
-/

namespace PipeQuery

open Grammar

namespace Pairing

variable {E : Pairing} {s s' : State}

namespace States

/-- At the end of a stage there is what stands behind it. -/
theorem rest_of_ends (h : E.States s s') (hk : ¬ Inside s.kind) :
    s.stream.rest = E.behind ∧ s'.stream.rest = E.behind' := by
  obtain ⟨c, c', hr, hr', hc, hpipe⟩ := h.streams.stage
  cases c with
  | nil =>
    obtain rfl : c' = [] := by simpa using hc.symm
    exact ⟨hr, hr'⟩
  | cons x c =>
    have hkind : s.kind = x.1.kind := by
      rw [State.kind, TokenStream.kind, s.stream.current_eq_front, hr]
      rfl
    have hx : x ∈ s.stream.rest := by simp [hr]
    exact absurd (hkind ▸ ⟨hpipe x (List.mem_cons_self ..), h.streams.valid.kind_ne_endOfInput hx⟩) hk

/-- Where no more is left than stands behind the stage, the stage has ended. -/
theorem atBoundary_of_remaining (h : E.States s s')
    (hn : s.stream.remaining ≤ E.behind.length) : s.atBoundary = true := by
  obtain ⟨c, c', hr, hr', hc, hpipe⟩ := h.streams.stage
  obtain rfl : c = [] := by
    rw [TokenStream.remaining, hr, List.length_append] at hn
    exact List.length_eq_zero_iff.1 (by omega)
  have hkind : s.kind = (s.stream.front E.behind).1.kind := by
    rw [State.kind, TokenStream.kind, s.stream.current_eq_front, hr]
    rfl
  rw [State.atBoundary_iff, hkind]
  rcases h.streams.ends with h | h
  · exact .inl h
  · exact .inr (.inl h)

theorem symm_remaining (h : E.States s s') :
    s'.stream.remaining ≤ E.behind'.length ↔ s.stream.remaining ≤ E.behind.length := by
  obtain ⟨c, c', hr, hr', hc, hpipe⟩ := h.streams.stage
  have hlen : c.length = c'.length := by simpa using congrArg List.length hc
  unfold TokenStream.remaining
  rw [hr, hr', List.length_append, List.length_append, hlen]
  omega

theorem passOver (h : E.States s s') {n n' : Nat}
    (hn : s.stream.remaining ≤ n + E.behind.length)
    (hn' : s'.stream.remaining ≤ n' + E.behind'.length) :
    E.States (s.passOver n) (s'.passOver n') := by
  induction n generalizing n' s s' with
  | zero =>
    have hb := h.atBoundary_of_remaining (by omega)
    have hb' : s'.atBoundary = true := (Link.atBoundary (E := E.link) h).trans hb
    rw [passOver_boundary hb h.halted, passOver_boundary hb' h.halted']
    exact h
  | succ n ih =>
    have hb' : s'.atBoundary = s.atBoundary := Link.atBoundary (E := E.link) h
    cases hb : s.atBoundary with
    | true =>
      rw [passOver_boundary hb h.halted, passOver_boundary (hb'.trans hb) h.halted']
      exact h
    | false =>
      have hin := Link.inside_of_not_atBoundary hb
      have hleft : ¬ s.stream.remaining ≤ E.behind.length := fun hle => by
        simp [h.atBoundary_of_remaining hle] at hb
      have hleft' := mt h.symm_remaining.1 hleft
      obtain ⟨n', rfl⟩ : ∃ k, n' = k + 1 := Nat.exists_eq_succ_of_ne_zero (by omega)
      have hend : s.stream.atEnd = false := by
        rw [TokenStream.atEnd, List.isEmpty_eq_false_iff]
        exact fun hr => hin.ne_end (h.streams.valid.kind_eq_endOfInput_iff.2 hr)
      have hend' : s'.stream.atEnd = false := by
        rw [TokenStream.atEnd, List.isEmpty_eq_false_iff]
        exact fun hr => hin.ne_end
          ((Link.kind (E := E.link) h).trans (h.streams.valid'.kind_eq_endOfInput_iff.2 hr))
      have hnext : s.skip.stream.remaining = s.stream.remaining - 1 :=
        TokenStream.remaining_next s.stream
      have hnext' : s'.skip.stream.remaining = s'.stream.remaining - 1 :=
        TokenStream.remaining_next s'.stream
      rw [State.passOver, State.passOver, if_neg (by simp [hend, hb]),
        if_neg (by simp [hend', hb', hb])]
      exact ih (h.skip hin) (by omega) (by omega)

/-- The rest of a stage is passed over in both texts. -/
theorem resync (h : E.States s s') {i i' : Nat} (hi : E.Position i i') :
    (s.resync i).1.moved E.left = (s'.resync i').1.moved E.right ∧
      E.States (s.resync i).2 (s'.resync i').2 := by
  have hpass : E.States (s.passOver s.stream.remaining) (s'.passOver s'.stream.remaining) :=
    h.passOver (by omega) (by omega)
  exact ⟨hpass.streams.spanFrom hi, (hpass.note _ _).record _ _ _⟩

theorem settle (h : E.States s s') : E.States s.settle s'.settle := by
  have hb' : s'.atBoundary = s.atBoundary := Link.atBoundary (E := E.link) h
  unfold State.settle
  rw [hb']
  split
  · exact h
  · have hkinds : s'.boundaryKinds = s.boundaryKinds := by
      rw [State.boundaryKinds, State.boundaryKinds, h.scope]
    have hblame : E.States (s.blame (.extraneous s.boundaryKinds))
        (s'.blame (.extraneous s'.boundaryKinds)) := by
      rw [hkinds]
      exact h.blame _
    exact (hblame.resync h.position).2

/-- A command is read in the same way in both texts, or the stage is an error in both. -/
theorem stage (h : E.States s s') {α : Type} {P : State → Prop}
    {recast : Recast → α → α} {r : Rule α}
    (hr : E.link.Rules P (E.link.Alike recast) r r) (hP : P s) (kind : Kind)
    (span : α → Span) (error : Span → α)
    (herror : ∀ σ span, recast σ (error span) = error (σ.span span)) :
    recast (.moved E.left) (stage r kind span error s).1
        = recast (.moved E.right) (stage r kind span error s').1 ∧
      E.States (stage r kind span error s).2 (stage r kind span error s').2 := by
  have hout := hr s s' h hP
  unfold Grammar.stage
  generalize r.run s = x at hout ⊢
  generalize r.run s' = x' at hout ⊢
  cases hout with
  | answer hab ht => exact ⟨hab trivial, States.record ht _ _ _⟩
  | @stop t t' ht =>
    have ht : E.States t t' := ht
    obtain ⟨hspan, hresync⟩ := ht.resync h.position
    refine ⟨?_, hresync⟩
    dsimp only
    rw [herror, herror]
    exact congrArg error hspan

end States

end Pairing

/-! ## Streams with a region in common -/

/-- Whether a token is a pipe. -/
def Placed.isBar (x : Placed) : Bool := x.1.kind == .pipe

/-- Two streams have `q` and `q'` in common, and `r` and `r'` stand behind that: nothing is needed of
these if a stage ends in `q`. -/
structure Common (v : TokenView) (left right : Nat) (q q' r r' : List Placed)
    (s s' : TokenStream) : Prop where
  /-- The first text is read from its beginning. -/
  valid : s.Valid
  /-- The second text is read from its beginning. -/
  valid' : s'.Valid
  /-- What is left of the first text. -/
  rest : s.rest = q ++ r
  /-- What is left of the second text. -/
  rest' : s'.rest = q' ++ r'
  /-- The tokens are the same, up to their places. -/
  same : q.map (fun x => (v.seen x.1, x.2 + left)) = q'.map (fun x => (v.seen x.1, x.2 + right))
  /-- A stage ends in common, or the texts do. -/
  ends : (∃ x ∈ q, x.isBar = true) ∨
    r = [] ∧ r' = [] ∧ v.seen s.endToken = v.seen s'.endToken ∧ s.limit + left = s'.limit + right
  /-- What was read last is the same. -/
  previous : s.previous.map (· + left) = s'.previous.map (· + right)
  /-- The texts are the same, blanks and comments included. -/
  texts (i i' : Nat) (h : i + left = i' + right) (hlow : s.position ≤ i) (hlimit : i < s.limit)
    (hhigh : (∀ x ∈ q, x.isBar = false) ∨ ∃ x ∈ q, i ≤ x.2) :
    s.tokens[i]?.map Token.text = s'.tokens[i']?.map Token.text

namespace Common

variable {v : TokenView} {left right : Nat} {q q' r r' : List Placed} {s s' : TokenStream}

/-- The tokens behind the next stage. -/
def behind (q r : List Placed) : List Placed := q.dropWhile (!·.isBar) ++ r

/-- The pairing of the next stage. -/
def pairing (v : TokenView) (left right : Nat) (q q' r r' : List Placed) (s s' : State) :
    Pairing where
  view := v
  left := left
  right := right
  low := s.position
  high := (s.stream.front (behind q r)).2
  behind := behind q r
  behind' := behind q' r'
  reported := s.diagnostics.toList
  reported' := s'.diagnostics.toList

theorem isBar_place (v : TokenView) (n : Nat) (x : Placed) :
    Placed.isBar (v.seen x.1, x.2 + n) = x.isBar := by
  unfold Placed.isBar
  rw [v.kind_seen]

theorem takeWhile_place (v : TokenView) (n : Nat) (q : List Placed) :
    (q.map fun x => (v.seen x.1, x.2 + n)).takeWhile (!Placed.isBar ·)
      = (q.takeWhile (!Placed.isBar ·)).map fun x => (v.seen x.1, x.2 + n) := by
  rw [List.takeWhile_map]
  congr 2
  funext x
  exact congrArg _ (isBar_place v n x)

theorem dropWhile_place (v : TokenView) (n : Nat) (q : List Placed) :
    (q.map fun x => (v.seen x.1, x.2 + n)).dropWhile (!Placed.isBar ·)
      = (q.dropWhile (!Placed.isBar ·)).map fun x => (v.seen x.1, x.2 + n) := by
  rw [List.dropWhile_map]
  congr 2
  funext x
  exact congrArg _ (isBar_place v n x)

/-- What stands behind a stage begins with a pipe, or the input ends there. -/
theorem dropWhile_cases (q : List Placed) :
    (∃ x xs, q.dropWhile (!·.isBar) = x :: xs ∧ x ∈ q ∧ x.isBar = true) ∨
      q.dropWhile (!·.isBar) = [] ∧ ∀ x ∈ q, x.isBar = false := by
  cases hd : q.dropWhile (!·.isBar) with
  | nil =>
    refine .inr ⟨rfl, fun x hx => ?_⟩
    have := List.dropWhile_eq_nil_iff.1 hd x hx
    simpa using this
  | cons x xs =>
    have hmem : x ∈ q := (List.dropWhile_sublist _).mem (hd ▸ List.mem_cons_self ..)
    have hbar := List.head_dropWhile_not (fun x : Placed => !x.isBar) (l := q) (by simp [hd])
    refine .inl ⟨x, xs, rfl, hmem, ?_⟩
    simpa [hd] using hbar

/-- What ends the next stage: a pipe that is in common, or the input in both texts. -/
theorem front_cases (h : Common v left right q q' r r' s s') :
    (∃ x x', x ∈ q ∧ x' ∈ q' ∧ x.isBar = true ∧ s.front (behind q r) = x ∧
        s'.front (behind q' r') = x' ∧ v.seen x.1 = v.seen x'.1 ∧ x.2 + left = x'.2 + right) ∨
      (∀ x ∈ q, x.isBar = false) ∧ s.front (behind q r) = (s.endToken, s.limit) ∧
        s'.front (behind q' r') = (s'.endToken, s'.limit) ∧ v.seen s.endToken = v.seen s'.endToken ∧
        s.limit + left = s'.limit + right := by
  have hsame := congrArg (List.dropWhile (!Placed.isBar ·)) h.same
  rw [dropWhile_place, dropWhile_place] at hsame
  rcases dropWhile_cases q with ⟨x, xs, hx, hmem, hbar⟩ | ⟨hnil, hbars⟩
  · rw [hx] at hsame
    obtain ⟨x', xs', hx', hplace, -⟩ := List.map_eq_cons_iff.1 hsame.symm
    have hmem' : x' ∈ q' := (List.dropWhile_sublist _).mem (hx' ▸ List.mem_cons_self ..)
    refine .inl ⟨x, x', hmem, hmem', hbar, ?_, ?_, (congrArg Prod.fst hplace).symm,
      (congrArg Prod.snd hplace).symm⟩
    · rw [behind, hx]
      rfl
    · rw [behind, hx']
      rfl
  · obtain ⟨hr, hr', hend⟩ : r = [] ∧ r' = [] ∧ _ := by
      rcases h.ends with ⟨x, hx, hbar⟩ | h
      · simp [hbars x hx] at hbar
      · exact h
    rw [hnil] at hsame
    have hnil' : q'.dropWhile (!Placed.isBar ·) = [] := List.map_eq_nil_iff.1 hsame.symm
    refine .inr ⟨hbars, ?_, ?_, hend⟩
    · rw [behind, hnil, hr]
      rfl
    · rw [behind, hnil', hr']
      rfl

/-- Streams with a region in common agree on the next stage. -/
theorem streams {u u' : State} (h : Common v left right q q' r r' u.stream u'.stream) :
    (pairing v left right q q' r r' u u').Streams u.stream u'.stream := by
  have hsame := congrArg (List.takeWhile (!Placed.isBar ·)) h.same
  rw [takeWhile_place, takeWhile_place] at hsame
  have hstage (ps qs : List Placed) :
      ps ++ qs = ps.takeWhile (!Placed.isBar ·) ++ behind ps qs := by
    rw [behind, ← List.append_assoc, List.takeWhile_append_dropWhile]
  have hpipe (x : Placed) (hx : x ∈ q.takeWhile (!Placed.isBar ·)) : x.1.kind ≠ .pipe := by
    simpa [Placed.isBar] using List.mem_takeWhile_imp hx
  have hfront := h.front_cases
  refine ⟨h.valid, h.valid', ⟨_, _, h.rest.trans (hstage q r), h.rest'.trans (hstage q' r'), hsame,
    hpipe⟩, ?_, ?_, rfl, Nat.le_refl _, h.previous, ?_, ?_⟩
  · rcases hfront with ⟨x, x', -, -, -, hx, hx', hseen, hplace⟩ | ⟨-, hx, hx', hseen, hplace⟩
    all_goals
      change (v.seen (u.stream.front (behind q r)).1, (u.stream.front (behind q r)).2 + left)
        = (v.seen (u'.stream.front (behind q' r')).1, (u'.stream.front (behind q' r')).2 + right)
      rw [hx, hx']
      exact Prod.ext hseen hplace
  · rcases hfront with ⟨x, x', -, -, hbar, hx, -⟩ | ⟨-, hx, -⟩
    · refine .inl ((congrArg (·.1.kind) hx).trans ?_)
      simpa [Placed.isBar] using hbar
    · exact .inr ((congrArg (·.1.kind) hx).trans h.valid.kind_endToken)
  · intro i i' hi hlimit
    refine h.texts i i' hi.eq hi.low_le hlimit ?_
    rcases hfront with ⟨x, x', hmem, -, -, hx, -⟩ | ⟨hbars, -⟩
    · exact .inr ⟨x, hmem, hi.le_high.trans_eq (congrArg Prod.snd hx)⟩
    · exact .inl hbars
  · have hlt {t : TokenStream} (ht : t.Valid) {x : Placed} (hx : x ∈ t.rest) : x.2 < t.limit := by
      rw [ht.limit_eq]
      exact (TokenStream.mem_significant.1 (ht.mem_significant hx)).1
    rcases hfront with ⟨x, x', hmem, hmem', -, hx, -, -, hplace⟩ | ⟨-, -, -, -, hplace⟩
    · have hhigh : (pairing v left right q q' r r' u u').high = x.2 := congrArg Prod.snd hx
      have hxlt := hlt h.valid (h.rest ▸ List.mem_append_left _ hmem)
      have hxlt' := hlt h.valid' (h.rest' ▸ List.mem_append_left _ hmem')
      refine .inr ⟨hhigh ▸ hxlt, ?_⟩
      rw [hhigh]
      change x.2 + left < u'.stream.limit + right
      omega
    · exact .inl hplace

end Common

/-! ## Stages with a region in common -/

namespace Grammar

/-- A state in front of a stage of the outermost query. -/
structure State.Fresh (s : State) : Prop where
  /-- The tokens are read from their beginning. -/
  valid : s.stream.Valid
  /-- Reading goes on behind mistakes. -/
  recover : s.config.recover = true
  /-- The query is not in brackets. -/
  scope : s.scope = .outermost
  /-- Nothing is held back. -/
  recovering : s.recovering = false
  /-- The reading goes on. -/
  halted : s.halted = false

theorem State.fresh_start (tokens : List Token) {config : Config} (hr : config.recover = true) :
    (State.start config tokens).Fresh :=
  ⟨TokenStream.valid_ofTokens tokens, hr, rfl, rfl, rfl⟩

end Grammar

/-- A reading of a stage further on. -/
def StageReading.moved (ρ : Token → Token) (n : Nat) (x : StageReading) : StageReading :=
  ⟨x.command.map (SourceCommand.recast ρ (.moved n)) (ProcessingCommand.recast ρ (.moved n)),
    x.reported.map (Diagnostic.moved ρ)⟩

namespace Common

variable {v : TokenView} {left right : Nat} {q q' r r' : List Placed} {u u' : State}

theorem states (h : Common v left right q q' r r' u.stream u'.stream) (hu : u.Fresh) (hu' : u'.Fresh)
    (hc : u'.config = u.config) : (pairing v left right q q' r r' u u').States u u' where
  streams := h.streams
  config := hc
  recover := hu.recover
  scope := by rw [hu.scope, hu'.scope]
  recovering := by rw [hu.recovering, hu'.recovering]
  halted := hu.halted
  halted' := hu'.halted
  diagnostics := ⟨[], [], (List.append_nil _).symm, (List.append_nil _).symm, rfl⟩

theorem reported_eq {t t' : State} (h : (pairing v left right q q' r r' u u').States t t') :
    (t.reportedSince u).map (Diagnostic.moved v.seen)
      = (t'.reportedSince u').map (Diagnostic.moved v.seen) := by
  obtain ⟨ds, ds', hds, hds', heq⟩ := h.diagnostics
  have hdrop {a b : State} {es : List Diagnostic}
      (he : a.diagnostics.toList = b.diagnostics.toList ++ es) : a.reportedSince b = es := by
    rw [State.reportedSince, he, ← Array.length_toList, List.drop_left]
  rw [hdrop hds, hdrop hds']
  exact heq

variable {inner : Expressions}

/-- A stage is read in the same way, if the rule for its command is the same for both texts. -/
theorem reading_eq (h : Common v left right q q' r r' u.stream u'.stream) (hu : u.Fresh)
    (hu' : u'.Fresh) (hc : u'.config = u.config) {α : Type} {P : State → Prop}
    {recast : Recast → α → α} {r₀ : Rule α}
    (hr : (pairing v left right q q' r r' u u').link.Rules P
      ((pairing v left right q q' r r' u u').link.Alike recast) r₀ r₀) (hP : P u)
    (kind : Kind) (span : α → Span) (error : Span → α)
    (herror : ∀ σ span, recast σ (error span) = error (σ.span span))
    (f : α → SourceCommand ⊕ ProcessingCommand)
    (hf : ∀ σ a, (f a).map (SourceCommand.recast v.seen σ) (ProcessingCommand.recast v.seen σ)
      = f (recast σ a)) :
    (⟨f (stage r₀ kind span error u).1,
        (stage r₀ kind span error u).2.settle.reportedSince u⟩ : StageReading).moved v.seen left
      = (⟨f (stage r₀ kind span error u').1,
        (stage r₀ kind span error u').2.settle.reportedSince u'⟩ : StageReading).moved
          v.seen right := by
  obtain ⟨hcommand, hs⟩ := (h.states hu hu' hc).stage hr hP kind span error herror
  rw [StageReading.moved, StageReading.moved, hf, hf, reported_eq hs.settle]
  exact congrArg (fun a => StageReading.mk (f a) _) hcommand

/-- A stage behind a pipe is read in the same way. -/
theorem pipedReading_eq (n : Nat) (h : Common v left right q q' r r' u.stream u'.stream)
    (hu : u.Fresh) (hu' : u'.Fresh) (hc : u'.config = u.config) :
    (pipedReading (expressions n) u).1.moved v.seen left
      = (pipedReading (expressions n) u').1.moved v.seen right :=
  h.reading_eq hu hu' hc (P := Link.Any)
    (Link.Rules.processingCommand (Link.Rules.expressions n)) trivial _ _ _
    (fun _ _ => rfl) .inr fun _ _ => rfl

/-- A source command that is no `EXPLAIN` is read in the same way. -/
theorem sourceReading_eq (n : Nat) (h : Common v left right q q' r r' u.stream u'.stream)
    (hu : u.Fresh) (hu' : u'.Fresh) (hc : u'.config = u.config) (hk : u.kind ≠ .kwExplain) :
    (sourceReading n u).1.moved v.seen left = (sourceReading n u').1.moved v.seen right :=
  h.reading_eq hu hu' hc
    (Link.Rules.sourceCommand_of_ne (Link.Rules.expressions n) (innerQuery n)) hk _ _ _
    (fun _ _ => by rw [SourceCommand.recast]) .inl fun _ _ => rfl

end Common

/-! ## From stage to stage -/

/-- A stream has all of itself in common with itself. -/
theorem Common.self {s : TokenStream} (hs : s.Valid) :
    Common .whole 0 0 s.rest s.rest [] [] s s where
  valid := hs
  valid' := hs
  rest := (List.append_nil _).symm
  rest' := (List.append_nil _).symm
  same := rfl
  ends := .inr ⟨rfl, rfl, rfl, rfl⟩
  previous := rfl
  texts i i' h _ _ _ := by
    obtain rfl : i = i' := h
    rfl

/-- What a stage has in common with itself. -/
def Pairing.own (s : State) : Pairing :=
  Common.pairing .whole 0 0 s.stream.rest s.stream.rest [] [] s s

theorem Pairing.states_own {s : State} (hv : s.stream.Valid) (hr : s.config.recover = true)
    (hh : s.halted = false) : (Pairing.own s).States s s where
  streams := (Common.self hv).streams
  config := rfl
  recover := hr
  scope := rfl
  recovering := rfl
  halted := hh
  halted' := hh
  diagnostics := ⟨[], [], (List.append_nil _).symm, (List.append_nil _).symm, rfl⟩

namespace Grammar

variable {s u : State}

/-- A state at the end of a stage of the outermost query. -/
structure State.Settled (s : State) : Prop where
  /-- The tokens are read from their beginning. -/
  valid : s.stream.Valid
  /-- Reading goes on behind mistakes. -/
  recover : s.config.recover = true
  /-- The query is not in brackets. -/
  scope : s.scope = .outermost
  /-- The reading goes on. -/
  halted : s.halted = false
  /-- A pipe or the end of the input is next. -/
  kind : ¬ Inside s.kind

/-- At a pipe everything is as at the beginning of the text. -/
theorem State.Settled.fresh_bump (h : s.Settled) : s.bump.Fresh :=
  ⟨h.valid.reads s.stream.reads_next, h.recover, h.scope, rfl, h.halted⟩

theorem not_inside_of_atBoundary (hs : s.scope = .outermost) (hb : s.atBoundary = true) :
    ¬ Inside s.kind := by
  intro hin
  rcases State.atBoundary_iff.1 hb with h | h | ⟨-, h⟩
  · exact hin.ne_pipe h
  · exact hin.ne_end h
  · simp [hs, Scope.outermost] at h

/-- Whatever a stage holds, behind it there is the pipe that ends it, or the end of the input. -/
theorem State.Fresh.settled {t : State} (hu : u.Fresh) (hsteps : u.Steps true t)
    (ht : (Pairing.own u).States t t)
    (hb : t.atBoundary = true) :
    t.Settled ∧ t.stream.rest = u.stream.rest.dropWhile (!Placed.isBar ·) := by
  have hscope : t.scope = .outermost := hsteps.scope.trans hu.scope
  have hk := not_inside_of_atBoundary hscope hb
  refine ⟨⟨ht.streams.valid, ht.recover, hscope, ht.halted, hk⟩, ?_⟩
  exact (ht.rest_of_ends hk).1.trans (List.append_nil _)

theorem State.Fresh.settled_pipedReading (hu : u.Fresh) (n : Nat) :
    u.Steps true (pipedReading (expressions n) u).2 ∧ (pipedReading (expressions n) u).2.Settled ∧
      (pipedReading (expressions n) u).2.stream.rest
        = u.stream.rest.dropWhile (!Placed.isBar ·) := by
  have hsteps := steps_processingStage (expressions n) u
  have hstates := (Pairing.states_own hu.valid hu.recover hu.halted).stage (P := Link.Any)
    (Link.Rules.processingCommand (Link.Rules.expressions n)) trivial .processingCommand
    ProcessingCommand.span .error fun _ _ => rfl
  have hall := hsteps.trans (State.steps_settle _)
  exact ⟨hall, hu.settled hall hstates.2.settle
    (State.atBoundary_settle hstates.2.streams.valid)⟩

theorem State.Fresh.settled_sourceReading (hu : u.Fresh) (n : Nat) (hk : u.kind ≠ .kwExplain) :
    u.Steps true (sourceReading n u).2 ∧ (sourceReading n u).2.Settled ∧
      (sourceReading n u).2.stream.rest = u.stream.rest.dropWhile (!Placed.isBar ·) := by
  have hsteps := steps_sourceStage (expressions n) (innerQuery n) u
  have hstates := (Pairing.states_own hu.valid hu.recover hu.halted).stage
    (Link.Rules.sourceCommand_of_ne (Link.Rules.expressions n) (innerQuery n)) hk .sourceCommand
    SourceCommand.span .error fun _ _ => by rw [SourceCommand.recast]
  have hall := hsteps.trans (State.steps_settle _)
  exact ⟨hall, hu.settled hall hstates.2.settle
    (State.atBoundary_settle hstates.2.streams.valid)⟩

/-- At the end of a stage the next token is a pipe if any token is left. -/
theorem State.Settled.exists_cons (hs : s.Settled) (hr : s.stream.rest ≠ []) :
    ∃ bar qs, s.stream.rest = bar :: qs ∧ Placed.isBar bar = true ∧ s.kind = .pipe := by
  have hk : s.kind = .pipe := by
    by_contra hne
    exact hs.kind ⟨hne, fun hend => hr (hs.valid.kind_eq_endOfInput_iff.1 hend)⟩
  obtain ⟨bar, qs, hcons⟩ := List.exists_cons_of_ne_nil hr
  refine ⟨bar, qs, hcons, ?_, hk⟩
  have hfront := hs.valid.kind_eq
  rw [hcons] at hfront
  simpa [Placed.isBar, frontKind] using hfront.symm.trans hk

theorem countP_dropWhile_isBar (q : List Placed) :
    (q.dropWhile (!Placed.isBar ·)).countP Placed.isBar = q.countP Placed.isBar := by
  induction q with
  | nil => rfl
  | cons x q ih =>
    cases hx : x.isBar with
    | true => rw [List.dropWhile_cons_of_neg (by simp [hx])]
    | false => rw [List.dropWhile_cons_of_pos (by simp [hx]), ih, List.countP_cons_of_neg (by simp [hx])]

/-- A pipe ends whatever stands in front of it. -/
theorem dropWhile_append_bar (ps : List Placed) {bar : Placed} (hbar : bar.isBar = true)
    (qs : List Placed) :
    (ps ++ bar :: qs).dropWhile (!Placed.isBar ·) = ps.dropWhile (!Placed.isBar ·) ++ bar :: qs := by
  rw [List.dropWhile_append, List.dropWhile_cons_of_neg (by simp [hbar])]
  split
  · next hempty => rw [List.isEmpty_iff.1 hempty, List.nil_append]
  · rfl

/-- There is one reading for each pipe. -/
theorem length_pipedReadings (levels : Nat) (n : Nat) (hs : s.Settled)
    (hn : s.stream.remaining ≤ n) :
    (pipedReadings (expressions levels) n s).length = s.stream.rest.countP Placed.isBar := by
  induction n generalizing s with
  | zero =>
    have hr : s.stream.rest = [] := List.length_eq_zero_iff.1 (Nat.le_zero.1 hn)
    rw [hr]
    rfl
  | succ n ih =>
    by_cases hr : s.stream.rest = []
    · have hk : s.kind = .endOfInput := hs.valid.kind_eq_endOfInput_iff.2 hr
      rw [pipedReadings_of_ne (by simp [hk]), hr]
      rfl
    · obtain ⟨bar, qs, hcons, hbar, hk⟩ := hs.exists_cons hr
      have hbump : s.bump.stream.rest = qs := by
        change s.stream.next.rest = qs
        rw [TokenStream.next, hcons]
      obtain ⟨hsteps, hsettled, hrest⟩ := hs.fresh_bump.settled_pipedReading levels
      have hlt := remaining_bump_lt hs.valid (by simp [hk])
      have hle := remaining_le_of_steps hsteps
      rw [pipedReadings_pipe hk, List.length_cons, ih hsettled (by omega), hrest, hbump,
        countP_dropWhile_isBar, hcons, List.countP_cons_of_pos hbar]

/-- The reading behind a pipe begins right there, as if it were the beginning of the text. -/
theorem getElem?_pipedReadings (levels : Nat) (n : Nat) (hs : s.Settled)
    (hn : s.stream.remaining ≤ n) {ps qs : List Placed} {bar : Placed}
    (hr : s.stream.rest = ps ++ bar :: qs) (hbar : bar.isBar = true) :
    ∃ u, u.Fresh ∧ u.stream.rest = qs ∧ u.stream.previous = some bar.2 ∧ s.Steps true u ∧
      (pipedReadings (expressions levels) n s)[ps.countP Placed.isBar]?
        = some (pipedReading (expressions levels) u).1 := by
  induction n generalizing s ps with
  | zero =>
    rw [TokenStream.remaining, hr] at hn
    simp at hn
  | succ n ih =>
    obtain ⟨first, rest, hcons, hfirst, hk⟩ := hs.exists_cons (by simp [hr])
    have hbump : s.bump.stream.rest = rest ∧ s.bump.stream.previous = some first.2 := by
      change s.stream.next.rest = rest ∧ s.stream.next.previous = some first.2
      rw [TokenStream.next, hcons]
      exact ⟨rfl, rfl⟩
    have hfresh := hs.fresh_bump
    rw [pipedReadings_pipe hk]
    cases ps with
    | nil =>
      obtain ⟨rfl, rfl⟩ : first = bar ∧ rest = qs := by simpa [hr] using hcons.symm
      exact ⟨s.bump, hfresh, hbump.1, hbump.2, .single (.bump s), rfl⟩
    | cons p ps =>
      obtain ⟨rfl, rfl⟩ : first = p ∧ rest = ps ++ bar :: qs := by simpa [hr] using hcons.symm
      obtain ⟨hsteps, hsettled, hrest⟩ := hfresh.settled_pipedReading levels
      have hlt := remaining_bump_lt hs.valid (by simp [hk])
      have hle := remaining_le_of_steps hsteps
      rw [hbump.1, dropWhile_append_bar ps hbar] at hrest
      obtain ⟨u, hu, hrestu, hprev, hstepsu, hreading⟩ := ih hsettled (by omega) hrest
      refine ⟨u, hu, hrestu, hprev, .head (.bump s) (hsteps.trans hstepsu), ?_⟩
      rw [List.countP_cons_of_pos hfirst, List.getElem?_cons_succ, ← countP_dropWhile_isBar]
      exact hreading

end Grammar

end PipeQuery
