import PipeQuery.Span
import PipeQuery.TokenStream

/-!
# Reading a stream

What reading does to a `TokenStream`. Reading takes a stretch of tokens off the front of what is
left, and `TokenStream.Reads` says which: the stretch, the stream in front of it and the stream
behind it. Two stretches in a row make up one stretch (`Reads.trans`), and the streams in front and
behind determine it (`Reads.unique`).

A stream is `Valid` when it was read from the beginning of its tokens. What is left of such a stream
are tokens that the grammar sees, in the order of their positions, and the last token that was read
lies in front of them. `Span.around` is the span of a stretch, from its first token to its last one,
and `Separated` is a list whose elements have stretches with single tokens between them.
-/

namespace PipeQuery

/-- A token with its position among all the tokens. -/
abbrev Placed : Type := Token × Nat

/-- The kind at the front of a stretch; behind its last token the input ends. -/
def frontKind : List Placed → Kind
  | [] => .endOfInput
  | x :: _ => x.1.kind

@[simp] theorem frontKind_nil : frontKind [] = .endOfInput := rfl

@[simp] theorem frontKind_cons (x : Placed) (ps : List Placed) :
    frontKind (x :: ps) = x.1.kind := rfl

theorem frontKind_append {ps : List Placed} (h : ps ≠ []) (qs : List Placed) :
    frontKind (ps ++ qs) = frontKind ps := by
  cases ps with
  | nil => exact absurd rfl h
  | cons x ps => rfl

/-- The elements of a list, each with its stretch, and tokens of a kind between them. -/
inductive Separated {α : Type} (kind : Kind) (D : α → List Placed → Prop) :
    List α → List Placed → Prop
  | one {a : α} {ps : List Placed} (first : D a ps) : Separated kind D [a] ps
  | more {a : α} {as : List α} {ps qs : List Placed} {x : Placed} (first : D a ps)
    (separator : x.1.kind = kind) (rest : Separated kind D as qs) :
    Separated kind D (a :: as) (ps ++ x :: qs)

theorem Separated.mono {α : Type} {kind : Kind} {D D' : α → List Placed → Prop} {as : List α}
    {ps : List Placed} (h : Separated kind D as ps) (hD : ∀ a ps, D a ps → D' a ps) :
    Separated kind D' as ps := by
  induction h with
  | one first => exact .one (hD _ _ first)
  | more first separator _ ih => exact .more (hD _ _ first) separator ih

theorem Separated.ne_nil {α : Type} {kind : Kind} {D : α → List Placed → Prop} {as : List α}
    {ps : List Placed} (h : Separated kind D as ps) : as ≠ [] := by
  cases h <;> simp

/-- What holds of whatever has a stretch holds of all the elements. -/
theorem Separated.forall_mem {α : Type} {kind : Kind} {D : α → List Placed → Prop} {P : α → Prop}
    {as : List α} {ps : List Placed} (h : Separated kind D as ps) (hD : ∀ a ps, D a ps → P a) :
    ∀ a ∈ as, P a := by
  induction h with
  | one first => simpa using hD _ _ first
  | more first _ _ ih => simpa using ⟨hD _ _ first, ih⟩

/-- Two lists with a separator between them. -/
theorem Separated.append {α : Type} {kind : Kind} {D : α → List Placed → Prop} {as bs : List α}
    {ps qs : List Placed} {x : Placed} (h : Separated kind D as ps) (hx : x.1.kind = kind)
    (k : Separated kind D bs qs) : Separated kind D (as ++ bs) (ps ++ x :: qs) := by
  induction h with
  | one first => exact .more first hx k
  | more first separator _ ih =>
    rw [List.append_assoc]
    exact .more first separator ih

/-- A list begins as its first element does. -/
theorem Separated.exists_first {α : Type} {kind : Kind} {D : α → List Placed → Prop} {as : List α}
    {ps : List Placed} (h : Separated kind D as ps) :
    ∃ a qs rs, D a qs ∧ ps = qs ++ rs := by
  cases h with
  | one first => exact ⟨_, _, [], first, (List.append_nil _).symm⟩
  | more first => exact ⟨_, _, _, first, rfl⟩

/-- The span from the first token of a stretch to its last one. -/
def Span.around (ps : List Placed) : Span where
  start := (ps.head?.map (·.2)).getD 0
  stop := (ps.getLast?.map (·.2 + 1)).getD 0

@[simp] theorem Span.around_singleton (x : Placed) : Span.around [x] = ⟨x.2, x.2 + 1⟩ := rfl

theorem Span.start_around {ps : List Placed} (hp : ps ≠ []) :
    (Span.around ps).start = (ps.head hp).2 := by
  rw [Span.around, List.head?_eq_some_head hp]
  rfl

theorem Span.stop_around {ps : List Placed} (hp : ps ≠ []) :
    (Span.around ps).stop = (ps.getLast hp).2 + 1 := by
  rw [Span.around, List.getLast?_eq_some_getLast hp]
  rfl

theorem Span.around_append {ps qs : List Placed} (hp : ps ≠ []) (hq : qs ≠ []) :
    Span.around (ps ++ qs) = ⟨(Span.around ps).start, (Span.around qs).stop⟩ := by
  simp [Span.around, List.head?_append, List.getLast?_append, List.getLast?_eq_some_getLast hq,
    List.head?_eq_some_head hp]

/-- The positions of a stretch grow. -/
def Ascending (ps : List Placed) : Prop := ps.Pairwise (·.2 < ·.2)

namespace Ascending

variable {ps qs rs : List Placed}

theorem left (h : Ascending (ps ++ qs)) : Ascending ps := (List.pairwise_append.1 h).1

theorem right (h : Ascending (ps ++ qs)) : Ascending qs := (List.pairwise_append.1 h).2.1

theorem filter (h : Ascending ps) (p : Placed → Bool) : Ascending (ps.filter p) :=
  List.Pairwise.filter p h

theorem start_lt_stop (h : Ascending ps) (hp : ps ≠ []) :
    (Span.around ps).start < (Span.around ps).stop := by
  obtain ⟨x, qs, rfl⟩ := List.exists_cons_of_ne_nil hp
  rw [Span.start_around hp, Span.stop_around hp, List.head_cons]
  obtain hmem | hmem := List.mem_cons.1 (List.getLast_mem hp)
  · rw [hmem]
    exact Nat.lt_succ_self _
  · exact Nat.lt_succ_of_lt ((List.pairwise_cons.1 h).1 _ hmem)

theorem stop_le_start (h : Ascending (ps ++ qs)) (hp : ps ≠ []) (hq : qs ≠ []) :
    (Span.around ps).stop ≤ (Span.around qs).start := by
  rw [Span.stop_around hp, Span.start_around hq]
  exact (List.pairwise_append.1 h).2.2 _ (List.getLast_mem hp) _ (List.head_mem hq)

/-- Two parts of a stretch, the first one at its front and the second one at its end, cover it. -/
theorem cover_around (h : Ascending (ps ++ qs ++ rs)) (hp : ps ≠ []) (hr : rs ≠ []) :
    (Span.around ps).cover (Span.around rs) = Span.around (ps ++ qs ++ rs) := by
  have hpr : Ascending (ps ++ rs) :=
    List.Pairwise.sublist (by simp) h
  have h1 := hpr.left.start_lt_stop hp
  have h2 := hpr.right.start_lt_stop hr
  have h3 := hpr.stop_le_start hp hr
  have hps : (Span.around (ps ++ qs)).start = (Span.around ps).start := by
    by_cases hq : qs = []
    · rw [hq, List.append_nil]
    · rw [Span.around_append hp hq]
  rw [Span.around_append (by simp [hp]) hr, hps, Span.cover, Nat.min_eq_left (by omega),
    Nat.max_eq_right (by omega)]

end Ascending

theorem ascending_zipIdx (ts : List Token) (n : Nat) : Ascending (ts.zipIdx n) := by
  rw [Ascending, ← List.pairwise_map, List.zipIdx_map_snd]
  exact List.pairwise_lt_range'

/-- To pick tokens out with their positions is to pick them out. -/
theorem map_fst_filter_zipIdx (p : Token → Bool) (ts : List Token) :
    (ts.zipIdx.filter (p ·.1)).map Prod.fst = ts.filter p := by
  have hfilter := List.filter_map (f := (Prod.fst : Placed → Token)) (p := p) (l := ts.zipIdx)
  rw [List.zipIdx_map_fst] at hfilter
  exact hfilter.symm

namespace TokenStream

/-- Reading the stretch `ps` leads from one stream to another. -/
structure Reads (s : TokenStream) (ps : List Placed) (t : TokenStream) : Prop where
  /-- The stretch stands in front of what is left. -/
  rest : s.rest = ps ++ t.rest
  /-- All else is as it was, but for the token that was read last. -/
  eq : t = { s with rest := t.rest, previous := (ps.getLast?.map Prod.snd).or s.previous }

namespace Reads

variable {s t u : TokenStream} {ps qs : List Placed}

theorem refl (s : TokenStream) : s.Reads [] s := ⟨rfl, rfl⟩

theorem tokens (h : s.Reads ps t) : t.tokens = s.tokens := by rw [h.eq]

theorem limit (h : s.Reads ps t) : t.limit = s.limit := by rw [h.eq]

theorem endToken (h : s.Reads ps t) : t.endToken = s.endToken := by rw [h.eq]

theorem previous (h : s.Reads ps t) : t.previous = (ps.getLast?.map Prod.snd).or s.previous := by
  rw [h.eq]

theorem previous_of_ne_nil (h : s.Reads ps t) (hps : ps ≠ []) :
    t.previous = some (ps.getLast hps).2 := by
  rw [h.previous, List.getLast?_eq_some_getLast hps]
  rfl

theorem trans (h : s.Reads ps t) (k : t.Reads qs u) : s.Reads (ps ++ qs) u := by
  refine ⟨by rw [h.rest, k.rest, List.append_assoc], ?_⟩
  rw [k.eq, h.eq, List.getLast?_append]
  cases qs.getLast? <;> simp

/-- The streams in front of a stretch and behind it determine the stretch. -/
theorem unique (h : s.Reads ps t) (k : s.Reads qs t) : ps = qs :=
  List.append_cancel_right (h.rest.symm.trans k.rest)

theorem eq_of_nil (h : s.Reads [] t) : t = s := by
  have hr : s.rest = t.rest := h.rest
  rw [h.eq, ← hr]
  rfl

theorem remaining (h : s.Reads ps t) : s.remaining = ps.length + t.remaining := by
  rw [TokenStream.remaining, h.rest, List.length_append, TokenStream.remaining]

end Reads

/-- At the end, reading on reads nothing; elsewhere it reads the next token. -/
theorem reads_next (s : TokenStream) : s.Reads (s.rest.take 1) s.next := by
  obtain ⟨tokens, limit, endToken, rest, previous⟩ := s
  cases rest with
  | nil => exact Reads.refl _
  | cons x rest => exact ⟨rfl, rfl⟩

/-! ## What the grammar sees -/

/-- The tokens that are still to be read, with the one that ends the input. -/
def ahead (s : TokenStream) : List Token := s.rest.map Prod.fst ++ [s.endToken]

theorem length_ahead (s : TokenStream) : s.ahead.length = s.remaining + 1 := by
  rw [ahead, List.length_append, List.length_map]
  rfl

theorem exists_ahead (s : TokenStream) : ∃ ts, s.ahead = s.current :: ts := by
  unfold ahead current
  cases s.rest with
  | nil => exact ⟨[], rfl⟩
  | cons x rest => exact ⟨_, rfl⟩

theorem ahead_next_of_ne_nil {s : TokenStream} (h : s.rest ≠ []) :
    s.ahead = s.current :: s.next.ahead := by
  obtain ⟨tokens, limit, endToken, rest, previous⟩ := s
  cases rest with
  | nil => exact absurd rfl h
  | cons x rest => rfl

/-- The tokens that the grammar reads: those it sees and the one that ends the input. -/
def seen (tokens : List Token) : List Token :=
  (significant tokens).map Prod.fst ++ [(ofTokens tokens).endToken]

/-- The tokens in front of the end of the input. -/
theorem takeWhile_isEnd (tokens : List Token) :
    tokens.takeWhile (!·.isEnd) = tokens.take (tokens.findIdx Token.isEnd) := by
  rw [List.takeWhile_eq_take_findIdx_not]
  simp only [Bool.not_not]

theorem significant_eq (tokens : List Token) :
    significant tokens
      = ((tokens.take (tokens.findIdx Token.isEnd)).zipIdx).filter (·.1.isSignificant) := by
  rw [← takeWhile_isEnd]
  rfl

variable {tokens : List Token} {x : Placed}

/-- The grammar sees the tokens in front of the end of the input, but for blanks and comments. -/
theorem mem_significant :
    x ∈ significant tokens ↔
      x.2 < tokens.findIdx Token.isEnd ∧ tokens[x.2]? = some x.1 ∧ x.1.isSignificant = true := by
  obtain ⟨token, i⟩ := x
  rw [significant_eq, List.mem_filter, List.mem_zipIdx_iff_getElem?, List.getElem?_take]
  by_cases hi : i < tokens.findIdx Token.isEnd <;> simp [hi]

/-- Of kinds that are not trivia, the grammar sees all tokens in front of the end of the input. -/
theorem filter_significant (tokens : List Token) {p : Kind → Bool}
    (hp : ∀ k, p k = true → k.isTrivia = false) :
    (significant tokens).filter (p ·.1.kind)
      = (tokens.takeWhile (!·.isEnd)).zipIdx.filter (p ·.1.kind) := by
  rw [significant, List.filter_filter]
  refine List.filter_congr fun x _ => ?_
  cases hx : p x.1.kind with
  | false => rfl
  | true => simp [Token.isSignificant, hp _ hx]

theorem isEnd_of_mem_significant (h : x ∈ significant tokens) : x.1.isEnd = false := by
  obtain ⟨hi, hx, -⟩ := mem_significant.1 h
  obtain ⟨hlt, hx⟩ := List.getElem?_eq_some_iff.1 hx
  rw [← hx]
  simpa using List.not_of_lt_findIdx hi

/-- In front of the token that ends the input the grammar sees all but blanks and comments. -/
theorem map_fst_significant {ts us : List Token} {e : Token} (hts : ∀ t ∈ ts, t.isEnd = false)
    (he : e.isEnd = true) :
    (significant (ts ++ e :: us)).map Prod.fst = ts.filter Token.isSignificant := by
  have htake : (ts ++ e :: us).takeWhile (!·.isEnd) = ts := by
    rw [List.takeWhile_append_of_pos (by simpa using hts)]
    simp [he]
  rw [significant, htake, map_fst_filter_zipIdx]

/-- Up to the token that ends the input the grammar reads all but blanks and comments. -/
theorem seen_append {ts us : List Token} {e : Token} (hts : ∀ t ∈ ts, t.isEnd = false)
    (he : e.isEnd = true) : seen (ts ++ e :: us) = ts.filter Token.isSignificant ++ [e] := by
  have hfind : (ts ++ e :: us).find? Token.isEnd = some e := by
    rw [List.find?_append, List.find?_eq_none.2 (by simpa using hts)]
    simp [he]
  rw [seen, map_fst_significant hts he, ofTokens, hfind]
  rfl

/-- Positions grow along what the grammar sees. -/
theorem ascending_significant (tokens : List Token) :
    Ascending (significant tokens) := (ascending_zipIdx _ _).filter _

/-! ## Streams that are read from their beginning -/

/-- A stream that was read from the beginning of its tokens. -/
def Valid (s : TokenStream) : Prop := ∃ ps, (ofTokens s.tokens).Reads ps s

theorem valid_ofTokens (tokens : List Token) : (ofTokens tokens).Valid := ⟨[], .refl _⟩

namespace Valid

variable {s t : TokenStream} {ps qs : List Placed}

theorem reads (h : s.Valid) (k : s.Reads ps t) : t.Valid := by
  obtain ⟨qs, h⟩ := h
  refine ⟨qs ++ ps, ?_⟩
  rw [k.tokens]
  exact h.trans k

theorem limit_eq (h : s.Valid) : s.limit = s.tokens.findIdx Token.isEnd := by
  obtain ⟨ps, h⟩ := h
  rw [h.limit]
  rfl

theorem limit_le (h : s.Valid) : s.limit ≤ s.tokens.length := by
  rw [h.limit_eq]
  exact List.findIdx_le_length

theorem kind_endToken (h : s.Valid) : s.endToken.kind = .endOfInput := by
  obtain ⟨ps, h⟩ := h
  rw [h.endToken]
  change ((s.tokens.find? Token.isEnd).getD (endAfter s.tokens.getLast?)).kind = _
  cases hf : s.tokens.find? Token.isEnd with
  | some token => simpa [Token.isEnd] using List.find?_some hf
  | none => cases s.tokens.getLast? <;> rfl

theorem kind_eq (h : s.Valid) : s.kind = frontKind s.rest := by
  rw [TokenStream.kind, current]
  cases s.rest with
  | nil => exact h.kind_endToken
  | cons x rest => rfl

theorem kind_lookahead_one (h : s.Valid) : (s.lookahead 1).kind = frontKind s.rest.tail := by
  rw [lookahead, List.drop_one]
  cases s.rest.tail with
  | nil => exact h.kind_endToken
  | cons x rest => rfl

/-- What was read and what is left make up what the grammar sees. -/
theorem exists_append_eq_significant (h : s.Valid) :
    ∃ ps, significant s.tokens = ps ++ s.rest ∧ s.previous = ps.getLast?.map Prod.snd := by
  obtain ⟨ps, h⟩ := h
  refine ⟨ps, h.rest, ?_⟩
  rw [h.previous]
  exact Option.or_none

theorem mem_significant (h : s.Valid) {x : Placed} (hx : x ∈ s.rest) :
    x ∈ significant s.tokens := by
  obtain ⟨ps, hs, -⟩ := h.exists_append_eq_significant
  rw [hs]
  exact List.mem_append_right ps hx

theorem kind_ne_endOfInput (h : s.Valid) {x : Placed} (hx : x ∈ s.rest) :
    x.1.kind ≠ .endOfInput := by
  simpa [Token.isEnd] using isEnd_of_mem_significant (h.mem_significant hx)

theorem ascending_rest (h : s.Valid) : Ascending s.rest := by
  obtain ⟨ps, hs, -⟩ := h.exists_append_eq_significant
  have hp := ascending_significant s.tokens
  rw [hs] at hp
  exact hp.right

/-- Only at the end of the input no token is left. -/
theorem kind_eq_endOfInput_iff (h : s.Valid) : s.kind = .endOfInput ↔ s.rest = [] := by
  rw [h.kind_eq]
  cases hr : s.rest with
  | nil => simp
  | cons x rest => simpa using h.kind_ne_endOfInput (x := x) (by simp [hr])

theorem position_le_limit (h : s.Valid) : s.position ≤ s.limit := by
  rw [position]
  split
  · exact Nat.le_refl _
  · next x i rest hr =>
    have hx := (TokenStream.mem_significant.1 (h.mem_significant (x := (x, i)) (by simp [hr]))).1
    rw [h.limit_eq]
    exact Nat.le_of_lt hx

/-- The token that was read last lies in front of the next one. -/
theorem previous_lt_position (h : s.Valid) {i : Nat} (hi : s.previous = some i) :
    i < s.position := by
  obtain ⟨ps, hs, hp⟩ := h.exists_append_eq_significant
  rw [hp, Option.map_eq_some_iff] at hi
  obtain ⟨x, hx, rfl⟩ := hi
  have hmem := List.mem_of_getLast? hx
  rw [position]
  split
  · rw [h.limit_eq]
    exact (TokenStream.mem_significant.1 (hs ▸ List.mem_append_left _ hmem)).1
  · next y j rest hr =>
    have hpair := ascending_significant s.tokens
    rw [hs] at hpair
    exact (List.pairwise_append.1 hpair).2.2 x hmem (y, j) (by simp [hr])

theorem position_eq (h : s.Reads ps t) (hps : ps ≠ []) : s.position = (Span.around ps).start := by
  cases ps with
  | nil => exact absurd rfl hps
  | cons x ps =>
    rw [position, h.rest]
    rfl

end Valid

end TokenStream

/-- The token that is next behind what was read. -/
theorem seen_getElem? {tokens : List Token} {ps : List Placed} {t : TokenStream}
    (h : (TokenStream.ofTokens tokens).Reads ps t) :
    (TokenStream.seen tokens)[ps.length]? = some t.current ∧
      (TokenStream.seen tokens).take ps.length = ps.map Prod.fst := by
  have hrest : TokenStream.significant tokens = ps ++ t.rest := h.rest
  have hseen : TokenStream.seen tokens
      = ps.map Prod.fst ++ (t.rest.map Prod.fst ++ [(TokenStream.ofTokens tokens).endToken]) := by
    rw [TokenStream.seen, hrest, List.map_append, List.append_assoc]
  rw [hseen]
  constructor
  · rw [List.getElem?_append_right (by simp), List.length_map, Nat.sub_self]
    cases hr : t.rest with
    | nil => simp [TokenStream.current, hr, h.endToken]
    | cons x rest => simp [TokenStream.current, hr]
  · exact List.take_left' (by simp)

end PipeQuery
