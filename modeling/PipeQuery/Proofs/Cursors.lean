import Mathlib.Logic.Function.Iterate
import PipeQuery.Proofs.Reading

/-!
# Cursors

The grammar reads its tokens through a cursor. It looks at the next token and at tokens ahead, goes
on, remembers a place and goes back to it. `Cursor` is such a set of operations, whatever a place is
made of, and `Cursor.replies` are the answers to any sequence of requests.

The simplest cursor is a number (`plainCursor`): the number of tokens that were read, of those that
the grammar sees. Behind the last one there is the end of the input, as often as one asks for it. A
`TokenStream` gives the same answers, whatever it is asked and wherever it goes back to. So does a
cursor that runs over all the tokens and passes over blanks and comments when it gets to them
(`skippingCursor`).

## Main statement

* `replies_ofTokens`
-/

namespace PipeQuery

/-! ## Operations -/

/-- The operations of a cursor with places in `σ`; a place is remembered in `μ`. -/
structure Cursor (σ μ : Type) where
  /-- The next token. -/
  current : σ → Token
  /-- The kind of the next token. -/
  kind : σ → Kind
  /-- The token that is a number of tokens ahead of the next one. -/
  lookahead : σ → Nat → Token
  /-- Reads a token. -/
  next : σ → σ
  /-- Remembers the place. -/
  mark : σ → μ
  /-- Goes back to a place that was remembered. -/
  reset : σ → μ → σ
  /-- Whether only the end of the input is left. -/
  atEnd : σ → Bool
  /-- The position of the next token among all the tokens. -/
  position : σ → Nat
  /-- The position of the token that was read last. -/
  previous : σ → Option Nat

/-- What a cursor is asked for. -/
inductive Request where
  /-- The next token. -/
  | current
  /-- The kind of the next token. -/
  | kind
  /-- The token that is `k` tokens ahead of the next one. -/
  | lookahead (k : Nat)
  /-- To read a token and to answer it. -/
  | advance
  /-- To remember the place. -/
  | mark
  /-- To go back to the place that was remembered as number `n`, counted from zero. -/
  | reset (n : Nat)
  /-- Whether only the end of the input is left. -/
  | atEnd
  /-- The position of the next token. -/
  | position
  /-- The position of the token that was read last. -/
  | previous
deriving DecidableEq, Repr

/-- What a cursor answers. -/
inductive Reply where
  /-- A token. -/
  | token (token : Token)
  /-- A kind. -/
  | kind (kind : Kind)
  /-- Whether something is so. -/
  | flag (flag : Bool)
  /-- A position, if there is one. -/
  | position (position : Option Nat)
  /-- Nothing but that the request is done. -/
  | done
deriving DecidableEq, Repr

namespace Cursor

variable {σ τ μ ν : Type}

/-- Answers one request, at a place and with the places that are remembered so far. -/
def serve (C : Cursor σ μ) (s : σ) (marks : List μ) : Request → Reply × σ × List μ
  | .current => (.token (C.current s), s, marks)
  | .kind => (.kind (C.kind s), s, marks)
  | .lookahead k => (.token (C.lookahead s k), s, marks)
  | .advance => (.token (C.current s), C.next s, marks)
  | .mark => (.done, s, marks ++ [C.mark s])
  | .reset n => (.done, marks[n]?.elim s (C.reset s), marks)
  | .atEnd => (.flag (C.atEnd s), s, marks)
  | .position => (.position (C.position s), s, marks)
  | .previous => (.position (C.previous s), s, marks)

/-- The answers to requests, one after the other. -/
def replies (C : Cursor σ μ) : σ → List μ → List Request → List Reply
  | _, _, [] => []
  | s, marks, request :: requests =>
    (C.serve s marks request).1
      :: C.replies (C.serve s marks request).2.1 (C.serve s marks request).2.2 requests

/-- Places of one cursor stand for those of another one, and so do the places that are remembered.
Each operation answers the same at both and leads to places that stand for each other. -/
structure Represents (C : Cursor σ μ) (D : Cursor τ ν) (place : τ → σ) (memory : ν → μ) :
    Prop where
  current (p : τ) : C.current (place p) = D.current p
  kind (p : τ) : C.kind (place p) = D.kind p
  lookahead (p : τ) (k : Nat) : C.lookahead (place p) k = D.lookahead p k
  next (p : τ) : C.next (place p) = place (D.next p)
  mark (p : τ) : C.mark (place p) = memory (D.mark p)
  reset (p : τ) (m : ν) : C.reset (place p) (memory m) = place (D.reset p m)
  atEnd (p : τ) : C.atEnd (place p) = D.atEnd p
  position (p : τ) : C.position (place p) = D.position p
  previous (p : τ) : C.previous (place p) = D.previous p

variable {C : Cursor σ μ} {D : Cursor τ ν} {place : τ → σ} {memory : ν → μ}

theorem Represents.serve (h : C.Represents D place memory) (p : τ) (marks : List ν)
    (request : Request) :
    C.serve (place p) (marks.map memory) request
      = ((D.serve p marks request).1, place (D.serve p marks request).2.1,
        (D.serve p marks request).2.2.map memory) := by
  cases request with
  | current => simp only [Cursor.serve, h.current]
  | kind => simp only [Cursor.serve, h.kind]
  | lookahead k => simp only [Cursor.serve, h.lookahead]
  | advance => simp only [Cursor.serve, h.current, h.next]
  | mark => simp only [Cursor.serve, h.mark, List.map_append, List.map_singleton]
  | reset n =>
    rw [Cursor.serve, Cursor.serve, List.getElem?_map]
    cases marks[n]? with
    | none => rfl
    | some m => simp only [Option.map_some, Option.elim_some, h.reset]
  | atEnd => simp only [Cursor.serve, h.atEnd]
  | position => simp only [Cursor.serve, h.position]
  | previous => simp only [Cursor.serve, h.previous]

/-- Cursors whose places stand for each other cannot be told apart. -/
theorem Represents.replies (h : C.Represents D place memory) (p : τ) (marks : List ν)
    (requests : List Request) :
    C.replies (place p) (marks.map memory) requests = D.replies p marks requests := by
  induction requests generalizing p marks with
  | nil => rfl
  | cons request requests ih => rw [Cursor.replies, Cursor.replies, h.serve, ih]

end Cursor

/-! ## The plain cursor -/

/-- The end of the input: the first token that says so, or one made up behind the last token. -/
def sentinel (tokens : List Token) : Token :=
  (tokens.find? Token.isEnd).getD (TokenStream.endAfter tokens.getLast?)

theorem kind_sentinel (tokens : List Token) : (sentinel tokens).kind = .endOfInput :=
  (TokenStream.valid_ofTokens tokens).kind_endToken

section

variable (tokens : List Token)

/-- The token behind `p` of those that the grammar sees. -/
def tokenAt (p : Nat) : Token :=
  (TokenStream.significant tokens)[p]?.elim (sentinel tokens) Prod.fst

/-- The position of that token among all the tokens. -/
def positionAt (p : Nat) : Nat :=
  (TokenStream.significant tokens)[p]?.elim (tokens.findIdx Token.isEnd) Prod.snd

/-- The position of the last of the first `p` tokens. -/
def previousAt : Nat → Option Nat
  | 0 => none
  | p + 1 => (TokenStream.significant tokens)[p]?.map Prod.snd

/-- One token on, up to the end of the input. -/
def placeAfter (p : Nat) : Nat :=
  if p < (TokenStream.significant tokens).length then p + 1 else p

/-- A cursor that counts the tokens that were read, of those that the grammar sees. To look ahead is
to look at what would be next after so many tokens. -/
def plainCursor : Cursor Nat Nat where
  current := tokenAt tokens
  kind p := (tokenAt tokens p).kind
  lookahead p k := tokenAt tokens ((placeAfter tokens)^[k] p)
  next := placeAfter tokens
  mark p := p
  reset _ m := m
  atEnd p := decide ((TokenStream.significant tokens).length ≤ p)
  position := positionAt tokens
  previous := previousAt tokens

end

variable {tokens : List Token} {p : Nat}

theorem placeAfter_of_lt (h : p < (TokenStream.significant tokens).length) :
    placeAfter tokens p = p + 1 := if_pos h

theorem placeAfter_of_le (h : (TokenStream.significant tokens).length ≤ p) :
    placeAfter tokens p = p := if_neg (Nat.not_lt.2 h)

/-! ## Token streams -/

namespace TokenStream

/-- The operations of a stream. -/
def cursor : Cursor TokenStream Mark where
  current := current
  kind := kind
  lookahead := lookahead
  next := next
  mark := mark
  reset := reset
  atEnd := atEnd
  position := position
  previous := previous

/-- The stream behind the first `p` tokens that the grammar sees. -/
def placed (tokens : List Token) (p : Nat) : TokenStream :=
  { ofTokens tokens with rest := (significant tokens).drop p, previous := previousAt tokens p }

/-- The same place, as it is remembered. -/
def markAt (tokens : List Token) (p : Nat) : Mark :=
  ⟨(significant tokens).drop p, previousAt tokens p⟩

theorem next_placed (tokens : List Token) (p : Nat) :
    (placed tokens p).next = placed tokens (placeAfter tokens p) := by
  rcases Nat.lt_or_ge p (significant tokens).length with h | h
  · rw [placeAfter_of_lt h]
    have hdrop : (significant tokens).drop p
        = (significant tokens)[p] :: (significant tokens).drop (p + 1) :=
      List.drop_eq_getElem_cons h
    rw [placed, next, hdrop, placed, previousAt, List.getElem?_eq_getElem h]
    rfl
  · rw [placeAfter_of_le h]
    exact next_eq_self_of_atEnd (by simp [atEnd, placed, List.drop_eq_nil_of_le h])

theorem rest_placed (tokens : List Token) (p : Nat) :
    (placed tokens p).rest = (significant tokens).drop p := rfl

theorem current_placed (tokens : List Token) (p : Nat) :
    (placed tokens p).current = tokenAt tokens p := by
  rw [tokenAt, ← List.head?_drop, current, rest_placed]
  cases (significant tokens).drop p <;> rfl

theorem position_placed (tokens : List Token) (p : Nat) :
    (placed tokens p).position = positionAt tokens p := by
  rw [positionAt, ← List.head?_drop, position, rest_placed]
  cases (significant tokens).drop p <;> rfl

/-- To look ahead is to look at the next token after so many steps. -/
theorem lookahead_placed (tokens : List Token) (p k : Nat) :
    (placed tokens p).lookahead k = tokenAt tokens ((placeAfter tokens)^[k] p) := by
  induction k generalizing p with
  | zero => exact current_placed tokens p
  | succ k ih => rw [lookahead_succ, next_placed, ih, Function.iterate_succ_apply]

theorem represents_placed (tokens : List Token) :
    cursor.Represents (plainCursor tokens) (placed tokens) (markAt tokens) where
  current := current_placed tokens
  kind p := congrArg Token.kind (current_placed tokens p)
  lookahead := lookahead_placed tokens
  next := next_placed tokens
  mark _ := rfl
  reset _ _ := rfl
  atEnd p := by
    rw [Bool.eq_iff_iff]
    simp [cursor, plainCursor, atEnd, placed]
  position := position_placed tokens
  previous _ := rfl

end TokenStream

/-! ## Passing over blanks and comments -/

/-- A place among all the tokens, and the position of the token that was read last. -/
structure SkippingPlace where
  /-- The position of the next token. -/
  position : Nat
  /-- The position of the token that was read last. -/
  previous : Option Nat
deriving DecidableEq, Repr

section

variable (tokens : List Token)

/-- The first position from `i` on where there is neither a blank nor a comment, in front of the end
of the input; or the end of the input. -/
def skipHidden (i : Nat) : Nat :=
  (((tokens.take (tokens.findIdx Token.isEnd)).zipIdx.drop i).find?
    (·.1.isSignificant)).elim (tokens.findIdx Token.isEnd) Prod.snd

/-- The position of the token that is `k` tokens ahead of the one at position `i`. -/
def skipAhead (i : Nat) : Nat → Nat
  | 0 => i
  | k + 1 =>
    if tokens.findIdx Token.isEnd ≤ i then i else skipAhead (skipHidden tokens (i + 1)) k

/-- The token at a position, up to the end of the input. -/
def tokenOrSentinel (i : Nat) : Token :=
  if tokens.findIdx Token.isEnd ≤ i then sentinel tokens else tokens[i]?.getD (sentinel tokens)

/-- Reads the token at a place. -/
def SkippingPlace.next (s : SkippingPlace) : SkippingPlace :=
  if s.position < tokens.findIdx Token.isEnd then
    ⟨skipHidden tokens (s.position + 1), some s.position⟩
  else s

/-- A cursor that runs over all the tokens, and passes over blanks and comments when it gets to
them. -/
def skippingCursor : Cursor SkippingPlace SkippingPlace where
  current s := tokenOrSentinel tokens s.position
  kind s := (tokenOrSentinel tokens s.position).kind
  lookahead s k := tokenOrSentinel tokens (skipAhead tokens s.position k)
  next := SkippingPlace.next tokens
  mark s := s
  reset _ m := m
  atEnd s := decide (tokens.findIdx Token.isEnd ≤ s.position)
  position := SkippingPlace.position
  previous := SkippingPlace.previous

end

/-- To drop the first elements is to keep those whose numbers are large enough. -/
theorem drop_zipIdx_eq_filter {α : Type} (l : List α) (i : Nat) :
    l.zipIdx.drop i = l.zipIdx.filter (i ≤ ·.2) := by
  have hfront : (l.zipIdx.take i).filter (i ≤ ·.2) = [] := by
    rw [List.filter_eq_nil_iff]
    intro x hx
    obtain ⟨j, hj, rfl⟩ := List.mem_take_iff_getElem.1 hx
    simp only [List.getElem_zipIdx, decide_eq_true_eq]
    omega
  have hback : (l.zipIdx.drop i).filter (i ≤ ·.2) = l.zipIdx.drop i := by
    rw [List.filter_eq_self]
    intro x hx
    obtain ⟨j, hj, rfl⟩ := List.mem_drop_iff_getElem.1 hx
    simp
  conv => rhs; rw [← List.take_append_drop i l.zipIdx, List.filter_append, hfront, hback]
  rfl

/-- The tokens that the grammar sees are found one after the other: from some position on, the first
one is the first whose position is no less. -/
theorem skipHidden_eq {ps qs : List Placed} {i : Nat}
    (hs : TokenStream.significant tokens = ps ++ qs) (hp : ∀ x ∈ ps, x.2 < i)
    (hq : ∀ x ∈ qs, i ≤ x.2) :
    skipHidden tokens i = qs.head?.elim (tokens.findIdx Token.isEnd) Prod.snd := by
  have hseen : (((tokens.take (tokens.findIdx Token.isEnd)).zipIdx).drop i).filter
      (·.1.isSignificant) = qs := by
    have hcomm (l : List Placed) : (l.filter (i ≤ ·.2)).filter (·.1.isSignificant)
        = (l.filter (·.1.isSignificant)).filter (i ≤ ·.2) := by
      rw [List.filter_filter, List.filter_filter]
      simp only [Bool.and_comm]
    rw [drop_zipIdx_eq_filter, hcomm, ← TokenStream.significant_eq, hs, List.filter_append,
      List.filter_eq_nil_iff.2 (by simpa using hp),
      List.filter_eq_self.2 (by simpa using hq), List.nil_append]
  rw [skipHidden, ← List.head?_filter, hseen]

theorem skipHidden_zero (tokens : List Token) : skipHidden tokens 0 = positionAt tokens 0 := by
  rw [skipHidden_eq (List.nil_append _).symm (by simp) (by simp), positionAt,
    List.head?_eq_getElem?]

/-- Behind a token that the grammar sees, the next such token is found. -/
theorem skipHidden_succ {x : Placed} (h : (TokenStream.significant tokens)[p]? = some x) :
    skipHidden tokens (x.2 + 1) = positionAt tokens (p + 1) := by
  obtain ⟨hlt, hx⟩ := List.getElem?_eq_some_iff.1 h
  have hsplit : TokenStream.significant tokens
      = ((TokenStream.significant tokens).take p ++ [x])
        ++ (TokenStream.significant tokens).drop (p + 1) := by
    rw [← hx, List.append_assoc, List.singleton_append, ← List.drop_eq_getElem_cons hlt,
      List.take_append_drop]
  have hasc := TokenStream.ascending_significant tokens
  rw [hsplit] at hasc
  obtain ⟨hfront, -, hback⟩ := List.pairwise_append.1 hasc
  have hlast : ∀ y ∈ (TokenStream.significant tokens).take p, y.2 < x.2 := fun y hy =>
    (List.pairwise_append.1 hfront).2.2 y hy x (List.mem_singleton_self x)
  rw [skipHidden_eq hsplit, List.head?_drop, positionAt]
  · intro y hy
    rcases List.mem_append.1 hy with hy | hy
    · exact Nat.lt_succ_of_lt (hlast y hy)
    · rw [List.mem_singleton.1 hy]
      exact Nat.lt_succ_self _
  · intro y hy
    exact hback x (List.mem_append_right _ (List.mem_singleton_self x)) y hy

/-- The place behind the first `p` tokens that the grammar sees. -/
def SkippingPlace.placed (tokens : List Token) (p : Nat) : SkippingPlace :=
  ⟨positionAt tokens p, previousAt tokens p⟩

theorem positionAt_lt_iff :
    positionAt tokens p < tokens.findIdx Token.isEnd
      ↔ p < (TokenStream.significant tokens).length := by
  rw [positionAt]
  cases h : (TokenStream.significant tokens)[p]? with
  | none =>
    have hle := List.getElem?_eq_none_iff.1 h
    simp only [Option.elim_none, Nat.lt_irrefl, false_iff]
    omega
  | some x =>
    have hx := (TokenStream.mem_significant.1 (List.mem_of_getElem? h)).1
    exact iff_of_true hx (List.getElem?_eq_some_iff.1 h).1

theorem tokenOrSentinel_positionAt (tokens : List Token) (p : Nat) :
    tokenOrSentinel tokens (positionAt tokens p) = tokenAt tokens p := by
  rw [tokenOrSentinel, positionAt, tokenAt]
  cases h : (TokenStream.significant tokens)[p]? with
  | none => simp
  | some x =>
    obtain ⟨hlt, hx, -⟩ := TokenStream.mem_significant.1 (List.mem_of_getElem? h)
    simp [Nat.not_le.2 hlt, hx]

/-- From the position of a token the next one is found. -/
theorem skipHidden_positionAt (h : p < (TokenStream.significant tokens).length) :
    skipHidden tokens (positionAt tokens p + 1) = positionAt tokens (placeAfter tokens p) := by
  have hx := List.getElem?_eq_getElem h
  rw [placeAfter_of_lt h, ← skipHidden_succ hx, positionAt, hx]
  rfl

namespace SkippingPlace

theorem next_placed (tokens : List Token) (p : Nat) :
    (placed tokens p).next tokens = placed tokens (placeAfter tokens p) := by
  rw [next]
  split
  · next hlt =>
    have hp := positionAt_lt_iff.1 hlt
    have hskip := skipHidden_positionAt hp
    rw [placeAfter_of_lt hp] at hskip ⊢
    have hx := List.getElem?_eq_getElem hp
    have hread : positionAt tokens p = (TokenStream.significant tokens)[p].2 := by
      rw [positionAt, hx]
      rfl
    rw [placed, placed, hskip, previousAt, hx, hread]
    rfl
  · next hle =>
    rw [placeAfter_of_le (Nat.not_lt.1 (mt positionAt_lt_iff.2 hle))]

theorem skipAhead_positionAt (tokens : List Token) (p k : Nat) :
    skipAhead tokens (positionAt tokens p) k = positionAt tokens ((placeAfter tokens)^[k] p) := by
  induction k generalizing p with
  | zero => rfl
  | succ k ih =>
    rw [skipAhead, Function.iterate_succ_apply]
    split
    · next hle =>
      have hp := Nat.not_lt.1 (mt positionAt_lt_iff.2 (Nat.not_lt.2 hle))
      rw [placeAfter_of_le hp, Function.iterate_fixed (placeAfter_of_le hp)]
    · next hlt => rw [skipHidden_positionAt (positionAt_lt_iff.1 (Nat.not_le.1 hlt)), ih]

theorem represents_placed (tokens : List Token) :
    (skippingCursor tokens).Represents (plainCursor tokens) (placed tokens) (placed tokens) where
  current := tokenOrSentinel_positionAt tokens
  kind p := congrArg Token.kind (tokenOrSentinel_positionAt tokens p)
  lookahead p k :=
    (congrArg (tokenOrSentinel tokens) (skipAhead_positionAt tokens p k)).trans
      (tokenOrSentinel_positionAt tokens _)
  next := next_placed tokens
  mark _ := rfl
  reset _ _ := rfl
  atEnd p := decide_eq_decide.2 (by
    rw [← Nat.not_lt, ← Nat.not_lt]
    exact not_congr positionAt_lt_iff)
  position _ := rfl
  previous _ := rfl

end SkippingPlace

/-! ## All cursors are alike -/

/-- Whatever it is asked, a stream of tokens answers as the plain cursor does, which counts the tokens
that were read, of those in front of the end of the input that are no blanks or comments; and so does
a cursor that passes over blanks and comments one by one. The end of the input is there as often as
one asks for it. -/
theorem replies_ofTokens (tokens : List Token) (requests : List Request) :
    TokenStream.cursor.replies (.ofTokens tokens) [] requests
        = (plainCursor tokens).replies 0 [] requests ∧
      (skippingCursor tokens).replies ⟨skipHidden tokens 0, none⟩ [] requests
        = (plainCursor tokens).replies 0 [] requests ∧
      (sentinel tokens).kind = .endOfInput := by
  refine ⟨?_, ?_, kind_sentinel tokens⟩
  · exact (TokenStream.represents_placed tokens).replies 0 [] requests
  · rw [skipHidden_zero]
    exact (SkippingPlace.represents_placed tokens).replies 0 [] requests

end PipeQuery
