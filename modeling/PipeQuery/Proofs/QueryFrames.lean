import PipeQuery.Proofs.Brackets
import PipeQuery.Proofs.Wrapped

/-!
# The frames of queries in brackets

The tokenizer and the grammar find the end of a query in brackets by themselves. The tokenizer puts a
frame on those around it at the bracket that opens the query, and leaves the frame at some closing
bracket (`Encloses`). The grammar reads the query and asks for a bracket behind it.

Where the tokens of an `EXPLAIN` are derived from the grammar, both are the same bracket
(`exists_encloses`): the query begins and ends in the same frame (`Yields.through_query`), and it
never leaves it in between, whatever is around it (`Yields.suffix_outer`). So it is in every text
that is read without a diagnostic (`exists_encloses_parse`). It is not so in others: a stage that is
given up within a list leaves a bracket of the list open for the tokenizer only.
-/

namespace PipeQuery

open Lexer

variable {ρ : Token → Token} {exact : Bool} {c : Context} {ps qs : List Placed} {q : Query}
  {text : String}

/-! ## Frames that are kept -/

namespace Lexer.Frames

variable {fs : Frames} {frame : Frame} {ks ls : List Kind}

/-- Tokens that do not close the query around them lead to the same frames inside it, up to each of
them. -/
theorem Keeps.through_inside (h : fs.Keeps (ks ++ ls)) (frame : Frame) :
    (fs.inside frame).through ks = (fs.through ks).inside frame := by
  induction ks generalizing fs with
  | nil => rfl
  | cons k ks ih =>
    rw [through_cons, through_cons, ← ih h.behind, h.behind_inside]

end Lexer.Frames

/-- A query leaves none of the frames around it. -/
theorem Yields.suffix_outer (h : Yields ρ exact c [.same (.query q)] (ps ++ qs))
    (outer : List Frame) :
    outer <:+ ((Frames.mk ⟨.command, 0⟩ outer).through (ps.map (·.1.kind))).outer := by
  induction outer using List.reverseRecOn with
  | nil => exact List.nil_suffix
  | append_singleton outer frame ih =>
    let fs : Frames := ⟨⟨.command, 0⟩, outer⟩
    have hkeeps : fs.Keeps (ps.map (·.1.kind) ++ qs.map (·.1.kind)) := by
      intro frame heq
      rw [← List.map_append] at heq
      obtain ⟨m, hm⟩ := h.through_query outer
      obtain ⟨m', hm'⟩ := h.through_query (outer ++ [frame])
      have hsame := congrArg Frames.outer (hm'.symm.trans (heq.trans hm))
      simp at hsame
    have hinside := hkeeps.through_inside frame
    rw [show Frames.mk ⟨.command, 0⟩ (outer ++ [frame]) = fs.inside frame from rfl, hinside]
    obtain ⟨front, hfront⟩ := ih
    exact ⟨front, by rw [Frames.inside, ← hfront, List.append_assoc]⟩

/-! ## The frames of a text -/

/-- The frames behind the first `n` tokens of a text. -/
def framesAt (text : String) (n : Nat) : Frames :=
  ((Scan.start .command text.toList).steps n).frames

/-- The frames behind some tokens of a scan are those behind their kinds. -/
theorem Lexer.Scan.frames_steps {s : Scan} {m n : Nat} {ts : List Token} (hm : s.rest.length ≤ m)
    (hts : (s.steps m).tokens = ts.reverse ++ s.tokens) (hn : n ≤ ts.length) :
    (s.steps n).frames = s.frames.through ((ts.take n).map Token.kind) := by
  induction n generalizing s m ts with
  | zero => rfl
  | succ n ih =>
    have hrest : s.rest ≠ [] := by
      intro hnil
      rw [Scan.steps_of_rest_eq_nil hnil] at hts
      have hlen : s.tokens.length = ts.length + s.tokens.length := by
        simpa using congrArg List.length hts
      omega
    obtain ⟨m, rfl⟩ : ∃ m', m = m' + 1 := by
      have hpos := List.length_pos_iff.2 hrest
      exact ⟨m - 1, by omega⟩
    have hstep (n : Nat) : s.steps (n + 1) = s.step.steps n := by
      rw [Scan.steps, if_neg (by simpa using hrest)]
    obtain ⟨shape, w, t, -, htokens, hcut⟩ := exists_cut_step hrest
    have hlt := Scan.length_rest_step hrest
    obtain ⟨us, hus, -⟩ := exists_cuts_steps m (s := s.step) (by omega)
    obtain rfl : ts = t :: us := by
      rw [hstep, hus, htokens, List.append_cons, List.append_left_inj] at hts
      rw [← List.reverse_inj, ← hts, List.reverse_cons]
    rw [hstep, ih (by omega) hus (by simpa using hn), hcut.frames_eq]
    rfl

/-- The frames in front of a token of a text are those behind the tokens in front of it. -/
theorem framesAt_eq {n : Nat} (hn : n < (tokenize text).length) :
    framesAt text n = (Frames.start .command).through (((tokenize text).take n).map Token.kind) := by
  let s := Scan.start .command text.toList
  have hlen : s.rest.length ≤ text.length := Nat.le_of_eq String.length_toList
  obtain ⟨ts, hts, -⟩ := exists_cuts_steps text.length hlen
  let last := s.steps text.length
  have htokens : tokenize text
      = ts ++ [.endOfInput last.place.offset last.place.line last.place.column] := by
    rw [tokenize, tokenizeFrom, Scan.finish, List.reverse_cons, hts]
    simp [last, s, Scan.start]
  rw [htokens, List.length_append, List.length_singleton] at hn
  rw [htokens, List.take_append_of_le_length (by omega)]
  exact Scan.frames_steps hlen hts (by omega)

/-- Behind a token of a text the frames are those behind its kind. -/
theorem framesAt_succ {n : Nat} {t : Token} (ht : (tokenize text)[n]? = some t)
    (hn : n + 1 < (tokenize text).length) :
    framesAt text (n + 1) = (framesAt text n).behind t.kind := by
  rw [framesAt_eq hn, framesAt_eq (by omega), List.take_add_one, ht, List.map_append,
    Frames.through_append]
  rfl

namespace Ascending

variable {x : Placed}

/-- What stands in front of a position is in front of the tokens that do not. -/
theorem filter_lt_of_le {n : Nat} (h : Ascending (ps ++ x :: qs)) (hn : n ≤ x.2) :
    (ps ++ x :: qs).filter (·.2 < n) = ps.filter (·.2 < n) := by
  have hnil : (x :: qs).filter (·.2 < n) = [] := by
    refine List.filter_eq_nil_iff.2 fun y hy => ?_
    have hle : x.2 ≤ y.2 := h.right.start_le hy
    simp only [decide_eq_true_eq]
    omega
  rw [List.filter_append, hnil, List.append_nil]

/-- What stands in front of a position comes first. -/
theorem filter_lt_prefix (h : Ascending ps) (n : Nat) : ps.filter (·.2 < n) <+: ps := by
  induction ps with
  | nil => exact List.nil_prefix
  | cons x ps ih =>
    by_cases hn : x.2 < n
    · rw [List.filter_cons_of_pos (by simpa using hn), List.prefix_cons_inj]
      exact ih (List.pairwise_cons.1 h).2
    · have hnone : (x :: ps).filter (·.2 < n) = [] :=
        filter_lt_of_le (show Ascending ([] ++ x :: ps) from h) (Nat.le_of_not_lt hn)
      rw [hnone]
      exact List.nil_prefix

/-- Behind a token that stands in front of a position, so do all tokens before it. -/
theorem filter_lt_of_lt {n : Nat} (h : Ascending (ps ++ x :: qs)) (hn : x.2 < n) :
    (ps ++ x :: qs).filter (·.2 < n) = ps ++ x :: qs.filter (·.2 < n) := by
  rw [List.filter_append, List.filter_cons_of_pos (by simpa using hn), List.filter_eq_self.2]
  intro y hy
  have hlt : y.2 < x.2 := (List.pairwise_append.1 h).2.2 y hy x (List.mem_cons_self ..)
  simp only [decide_eq_true_eq]
  omega

/-- What stands in front of one of the tokens comes before it. -/
theorem filter_lt (h : Ascending (ps ++ x :: qs)) : (ps ++ x :: qs).filter (·.2 < x.2) = ps := by
  rw [h.filter_lt_of_le (Nat.le_refl _), List.filter_eq_self]
  intro y hy
  simpa using (List.pairwise_append.1 h).2.2 y hy x (List.mem_cons_self ..)

end Ascending

/-- The frames at a position are those behind what the grammar sees in front of it. -/
theorem framesAt_significant {n : Nat} (hn : n ≤ (tokenize text).findIdx Token.isEnd)
    (hlen : n < (tokenize text).length) :
    framesAt text n = (Frames.start .command).through
      (((TokenStream.significant (tokenize text)).filter (·.2 < n)).map (·.1.kind)) := by
  have hseen : (TokenStream.significant (tokenize text)).filter (·.2 < n)
      = ((tokenize text).take n).zipIdx.filter (·.1.isSignificant) := by
    have hasc := TokenStream.ascending_significant (tokenize text)
    refine (hasc.filter _).eq_of_mem_iff ((ascending_zipIdx _ _).filter _) fun x => ?_
    obtain ⟨token, i⟩ := x
    rw [List.mem_filter, TokenStream.mem_significant, List.mem_filter,
      List.mem_zipIdx_iff_getElem?, List.getElem?_take]
    by_cases hi : i < n
    · have hend : i < (tokenize text).findIdx Token.isEnd := by omega
      simp [hi, hend]
    · simp [hi]
  rw [framesAt_eq hlen, ← Frames.through_filter, hseen,
    ← map_fst_filter_zipIdx Token.isSignificant, List.map_map]
  rfl

/-- A token that the grammar sees has another one of the text behind it, if only the end of the
input. -/
theorem getElem?_of_mem_significant {x : Placed}
    (hx : x ∈ TokenStream.significant (tokenize text)) :
    x.2 < (tokenize text).findIdx Token.isEnd ∧ (tokenize text)[x.2]? = some x.1 ∧
      x.2 + 1 < (tokenize text).length := by
  obtain ⟨hend, hget, -⟩ := TokenStream.mem_significant.1 hx
  obtain ⟨ts, e, htokens, he, -⟩ := exists_cuts_tokenizeFrom .command text
  have hlen : (tokenize text).findIdx Token.isEnd < (tokenize text).length := by
    refine List.findIdx_lt_length_of_exists ⟨e, ?_, by simp [Token.isEnd, he]⟩
    rw [tokenize, htokens]
    exact List.mem_append_right _ (List.mem_singleton_self e)
  exact ⟨hend, hget, by omega⟩

/-- The frames in front of a token that the grammar sees are those behind what it sees in front of
this token. -/
theorem framesAt_of_significant {x : Placed}
    (h : TokenStream.significant (tokenize text) = ps ++ x :: qs) :
    framesAt text x.2 = (Frames.start .command).through (ps.map (·.1.kind)) ∧
      framesAt text (x.2 + 1) = (framesAt text x.2).behind x.1.kind := by
  have hasc := TokenStream.ascending_significant (tokenize text)
  have hx : x ∈ TokenStream.significant (tokenize text) := by simp [h]
  obtain ⟨hend, hget, hlen⟩ := getElem?_of_mem_significant hx
  refine ⟨?_, framesAt_succ hget hlen⟩
  rw [framesAt_significant (Nat.le_of_lt hend) (by omega), h]
  rw [h] at hasc
  rw [hasc.filter_lt]

/-- The frames between two tokens that the grammar sees are those behind some of what is in between
for the grammar. -/
theorem exists_framesAt_between {x y : Placed} {rs : List Placed} {n : Nat}
    (h : TokenStream.significant (tokenize text) = ps ++ x :: (qs ++ y :: rs)) (hx : x.2 < n)
    (hy : n ≤ y.2) :
    ∃ us vs, qs = us ++ vs ∧
      framesAt text n = (framesAt text (x.2 + 1)).through (us.map (·.1.kind)) := by
  have hasc := TokenStream.ascending_significant (tokenize text)
  have hmem : y ∈ TokenStream.significant (tokenize text) := by simp [h]
  obtain ⟨hend, -, hlen⟩ := getElem?_of_mem_significant hmem
  obtain ⟨hfront, hnext⟩ := framesAt_of_significant h
  rw [h] at hasc
  have hright : Ascending (qs ++ y :: rs) := (List.pairwise_cons.1 hasc.right).2
  obtain ⟨vs, hvs⟩ := hright.left.filter_lt_prefix n
  refine ⟨qs.filter (·.2 < n), vs, hvs.symm, ?_⟩
  rw [framesAt_significant (by omega) (by omega), h, hasc.filter_lt_of_lt hx,
    hright.filter_lt_of_le hy, List.map_append, Frames.through_append, hnext, hfront]
  rfl

/-! ## The frame of a query in brackets -/

/-- The tokenizer puts a frame on those around it at the token at position `i`, and leaves this
frame at the token at position `j`. -/
structure Encloses (text : String) (i j : Nat) : Prop where
  /-- It is left later on. -/
  lt : i < j
  /-- One frame more. -/
  opens : (framesAt text (i + 1)).outer.length = (framesAt text i).outer.length + 1
  /-- The frame is kept in between. -/
  keeps : ∀ n, i < n → n ≤ j → (framesAt text i).outer.length < (framesAt text n).outer.length
  /-- The frames are those that were around it. -/
  closes : (framesAt text (j + 1)).outer.length = (framesAt text i).outer.length

/-- A frame is left once. -/
theorem Encloses.unique {i j j' : Nat} (h : Encloses text i j) (h' : Encloses text i j') :
    j = j' := by
  have hle {j j' : Nat} (h : Encloses text i j) (h' : Encloses text i j') : j' ≤ j := by
    by_contra hlt
    have hlater := h'.keeps (j + 1) (Nat.lt_succ_of_lt h.lt) (by omega)
    rw [h.closes] at hlater
    exact Nat.lt_irrefl _ hlater
  exact Nat.le_antisymm (hle h' h) (hle h h')

/-- The tokenizer puts down a frame at the bracket behind an `EXPLAIN`, and leaves it at the bracket
behind the query that follows. -/
theorem Yields.encloses {word left right : Placed} {before after : List Placed}
    (h : Yields ρ exact c [.same (.query q)] qs) (hword : word.1.kind = .kwExplain)
    (hleft : left.1.kind = .leftBracket) (hright : right.1.kind = .rightBracket)
    (hseen : TokenStream.significant (tokenize text)
      = (before ++ [word]) ++ left :: (qs ++ right :: after)) :
    Encloses text left.2 right.2 := by
  obtain ⟨hopening, hinner⟩ := framesAt_of_significant hseen
  have hseen' : TokenStream.significant (tokenize text)
      = ((before ++ [word]) ++ left :: qs) ++ right :: after := by simp [hseen]
  obtain ⟨hclosing, hbehind⟩ := framesAt_of_significant hseen'
  let fs : Frames := (Frames.start .command).through (before.map (·.1.kind))
  let frame : Frame := ⟨.expression, fs.current.brackets⟩
  rw [List.map_append, Frames.through_append, List.map_singleton, hword] at hopening
  have houter : (framesAt text left.2).outer = fs.outer := by
    rw [hopening]
    rfl
  -- the query begins and ends in a frame of its own, with that of the `EXPLAIN` around it
  have hfirst : framesAt text (left.2 + 1) = ⟨⟨.command, 0⟩, frame :: fs.outer⟩ := by
    rw [hinner, hopening, hleft]
    rfl
  obtain ⟨m, hlast⟩ : ∃ m, framesAt text right.2 = ⟨⟨m, 0⟩, frame :: fs.outer⟩ := by
    obtain ⟨m, hm⟩ := h.through_query (frame :: fs.outer)
    refine ⟨m, ?_⟩
    rw [← hm, ← hfirst, hinner, hopening, hclosing]
    simp [hword]
  refine ⟨?_, ?_, fun n hn hn' => ?_, ?_⟩
  · have hasc := TokenStream.ascending_significant (tokenize text)
    rw [hseen] at hasc
    exact (List.pairwise_cons.1 hasc.right).1 right (by simp)
  · rw [hfirst, houter]
    rfl
  · obtain ⟨us, vs, rfl, hframes⟩ := exists_framesAt_between hseen hn hn'
    have hsuffix := h.suffix_outer (frame :: fs.outer)
    rw [← hfirst, ← hframes] at hsuffix
    rw [houter]
    exact hsuffix.length_le
  · rw [hbehind, hlast, hright, houter]
    rfl

/-- Where the tokens of an `EXPLAIN` are derived from the grammar, the brackets of its query are the
tokens at which the tokenizer enters and leaves a frame. -/
theorem Yields.exists_encloses {keyword : Token} {span : Span}
    (h : Yields ρ exact c [.same (.sourceCommand (.command keyword (.explain q) span))] ps)
    (hps : ps <:+: TokenStream.significant (tokenize text)) :
    ∃ word left qs right, ps = word :: left :: (qs ++ [right]) ∧
      Yields ρ exact c [.deeper (.query q)] qs ∧ left.1.kind = .leftBracket ∧
      right.1.kind = .rightBracket ∧ Encloses text left.2 right.2 := by
  obtain ⟨-, hitems, -⟩ := Yields.same_iff.1 h
  obtain ⟨word, _, rfl, hword, hitems⟩ := Yields.terminal_iff.1 hitems
  obtain ⟨left, _, rfl, hleft, hitems⟩ := Yields.terminal_iff.1 hitems
  obtain ⟨qs, _, rfl, hq, hitems⟩ := Yields.cons_iff.1 hitems
  obtain ⟨right, rfl, hright⟩ := Yields.singleton_terminal_iff.1 hitems
  refine ⟨word, left, qs, right, rfl, hq, hleft, hright, ?_⟩
  obtain ⟨d, -, hadmissible, hparts, hspan⟩ := Yields.singleton_phrase_iff.1 hq
  have hquery : Yields ρ exact d [.same (.query q)] qs :=
    Yields.same_iff.2 ⟨hadmissible, hparts, hspan⟩
  obtain ⟨before, after, hseen⟩ := hps
  have hseen : TokenStream.significant (tokenize text)
      = (before ++ [word]) ++ left :: (qs ++ right :: after) := by simp [← hseen]
  exact hquery.encloses (List.mem_singleton.1 hword.1) hleft hright hseen

/-- In a text that is read without a diagnostic, the tokenizer and the grammar agree on where the
query of each `EXPLAIN` begins and ends. The tokens of the command are its word, an opening bracket,
those of the query and a closing bracket; and the frame that is put down at the first bracket is left
at the other one. -/
theorem exists_encloses_parse {config : Config}
    (hok : (parse (tokenize text) config).isOk = true) {keyword : Token} {span : Span}
    (hbelow : (Phrase.query (parse (tokenize text) config).statement.query).Below
      (.sourceCommand (.command keyword (.explain q) span))) :
    ∃ word left right, span.seen (tokenize text)
        = word :: left :: (q.span.seen (tokenize text) ++ [right]) ∧
      left.1.kind = .leftBracket ∧ right.1.kind = .rightBracket ∧
      Encloses text left.2 right.2 := by
  obtain ⟨hyields, -⟩ := Grammar.derives_statement config (fits_tokenize text) (isOk_parse.1 hok)
  obtain ⟨d, ps, hps, hcommand⟩ := hyields.exists_part (List.mem_singleton.2 rfl) hbelow
  obtain ⟨word, left, qs, right, rfl, hq, hleft, hright, hencloses⟩ := hcommand.exists_encloses hps
  have hspan : span = Span.around (word :: left :: (qs ++ [right])) := hcommand.span_eq
  have hqs : qs <:+: word :: left :: (qs ++ [right]) := ⟨[word, left], [right], by simp⟩
  refine ⟨word, left, right, ?_, hleft, hright, hencloses⟩
  have hquery : q.span = Span.around qs := hq.span_eq
  rw [hspan, Span.seen_around hps (by simp), hquery,
    Span.seen_around (hqs.trans hps) hq.ne_nil_of_phrase]

end PipeQuery
