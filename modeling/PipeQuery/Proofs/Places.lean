import Mathlib.Data.String.Basic
import PipeQuery.Proofs.Cuts

/-!
# The places of tokens

The tokens of a text are the text: each one is the piece that its byte range says, one range begins
where the one before it stops, and the line and column are those of the first character. A scan
keeps its place in step with what it has read, since a place is a function of the text in front of
it (`Place.afterText_start`). So what a whole scan lays down stands in a row (`InRow`), and
`tokens_tokenizeFrom` reads the ranges, lines and columns off the row.
-/

open String (utf8Len)

namespace PipeQuery

namespace Lexer

/-! ## Lines and columns -/

/-- The number of the line that a text ends in. -/
def lineOf (text : List Char) : Nat := 1 + text.count '\n'

/-- The number of characters in the line that a text ends in. -/
def columnOf (text : List Char) : Nat := (text.reverse.takeWhile (· ≠ '\n')).length

variable {before l m : List Char} {t : Token} {ts : List Token}

/-- The place behind a text counts its bytes, its line breaks, and the characters of its last
line. -/
theorem Place.afterText_start (l : List Char) :
    Place.start.afterText l = ⟨utf8Len l, lineOf l, columnOf l⟩ := by
  induction l using List.reverseRecOn with
  | nil => rfl
  | append_singleton l c ih =>
    rw [afterText_append, ih]
    by_cases hc : c = '\n'
    · subst hc
      simp [afterText, after, lineOf, columnOf, Nat.add_assoc]
    · simp [afterText, after, lineOf, columnOf, hc]

/-! ## Tokens in a row -/

/-- A token is placed behind some text. -/
structure StandsBehind (before : List Char) (t : Token) : Prop where
  start : t.start = utf8Len before
  stop : t.stop = utf8Len (before ++ t.text.toList)
  line : t.line = lineOf before
  column : t.column = columnOf before

/-- Tokens with a text are placed one behind the other, the first one behind some text. -/
inductive InRow : List Char → List Token → Prop
  | nil (before : List Char) : InRow before []
  | cons {before : List Char} {t : Token} {ts : List Token} (stands : StandsBehind before t)
    (ne : t.text.toList ≠ []) (rest : InRow (before ++ t.text.toList) ts) : InRow before (t :: ts)

/-- The characters of some tokens. -/
def charsOf (ts : List Token) : List Char := ts.flatMap (·.text.toList)

theorem InRow.ne_empty (h : InRow before ts) : ∀ t ∈ ts, t.text ≠ "" := by
  induction h with
  | nil => simp
  | @cons before t ts _ ne _ ih =>
    have ht : t.text ≠ "" := fun h => ne (by simp [h])
    simpa using ⟨ht, ih⟩

/-- What stands in a row stands behind what is in front of it. -/
theorem InRow.stands {us : List Token} (h : InRow before (us ++ t :: ts)) :
    StandsBehind (before ++ charsOf us) t := by
  induction us generalizing before with
  | nil =>
    cases h with
    | cons stands => simpa [charsOf] using stands
  | cons u us ih =>
    cases h with
    | cons _ _ rest => simpa [charsOf, List.append_assoc] using ih rest

/-- In a row each range starts where the one before it stops, up to what comes last. -/
theorem InRow.chain {e u : Token} (h : InRow before ts)
    (he : StandsBehind (before ++ charsOf ts) e) (hu : u.stop = utf8Len before) :
    (u :: (ts ++ [e])).IsChain (·.stop = ·.start) := by
  induction h generalizing u with
  | nil before =>
    have hstart := he.start
    rw [charsOf, List.flatMap_nil, List.append_nil] at hstart
    simpa using hu.trans hstart.symm
  | @cons before t ts stands _ _ ih =>
    rw [List.cons_append, List.isChain_cons_cons]
    refine ⟨hu.trans stands.start.symm, ih ?_ stands.stop⟩
    simpa [charsOf, List.append_assoc] using he

/-- A step of a scan that is in step with what it has read lays down the next token of the row. -/
theorem Scan.step_inRow {s : Scan} (hp : s.place = Place.start.afterText before)
    (hr : s.rest ≠ []) :
    ∃ t, s.step.tokens = t :: s.tokens ∧ StandsBehind before t ∧ t.text.toList ≠ [] ∧
      s.rest = t.text.toList ++ s.step.rest ∧
      s.step.place = Place.start.afterText (before ++ t.text.toList) := by
  have htext : s.token.1.text.toList = s.rest.take s.width := String.toList_ofList
  have hstop : s.place.afterText (s.rest.take s.width)
      = Place.start.afterText (before ++ s.token.1.text.toList) := by
    rw [hp, htext, Place.afterText_append]
  have hplace := Place.afterText_start before
  refine ⟨s.token.1, rfl, ⟨?_, ?_, ?_, ?_⟩, ?_, ?_, hstop⟩
  · change s.place.offset = _
    rw [hp, hplace]
  · change (s.place.afterText (s.rest.take s.width)).offset = _
    rw [hstop, Place.afterText_start]
  · change s.place.line = _
    rw [hp, hplace]
  · change s.place.column = _
    rw [hp, hplace]
  · rw [htext]
    have := s.width_pos
    simp only [ne_eq, List.take_eq_nil_iff, hr, or_false]
    omega
  · rw [htext]
    exact s.text_step.symm

/-- A scan with steps enough lays down a row of tokens that makes up all that was left. -/
theorem Scan.steps_inRow (n : Nat) {s : Scan} (hp : s.place = Place.start.afterText before)
    (hn : s.rest.length ≤ n) :
    ∃ ts, (Scan.steps n s).tokens = ts.reverse ++ s.tokens ∧ InRow before ts ∧
      charsOf ts = s.rest ∧
      (Scan.steps n s).place = Place.start.afterText (before ++ s.rest) := by
  induction n generalizing s before with
  | zero =>
    have hnil : s.rest = [] := by simpa using hn
    exact ⟨[], rfl, .nil _, hnil.symm, by simpa [Scan.steps, hnil] using hp⟩
  | succ n ih =>
    rw [Scan.steps]
    split
    · next hnil =>
      have hnil : s.rest = [] := List.isEmpty_iff.1 hnil
      exact ⟨[], rfl, .nil _, hnil.symm, by simpa [hnil] using hp⟩
    · next hne =>
      have hne : s.rest ≠ [] := fun hnil => hne (List.isEmpty_iff.2 hnil)
      obtain ⟨t, htokens, hstands, ht, hrest, hplace⟩ := s.step_inRow hp hne
      have hlt := Scan.length_rest_step hne
      obtain ⟨ts, hts, hrow, hchars, hend⟩ := ih hplace (by omega)
      refine ⟨t :: ts, ?_, .cons hstands ht hrow, ?_, ?_⟩
      · rw [hts, htokens]
        simp
      · rw [hrest, ← hchars]
        rfl
      · rw [hend, hrest, List.append_assoc]

end Lexer

open Lexer

/-! ## The tokens of a text -/

/-- The characters of a text in front of a byte. -/
def charsBefore (text : String) (offset : Nat) : List Char :=
  (String.Pos.Raw.extract text 0 ⟨offset⟩).toList

/-- A token is the piece of a text that its byte range says, from one character on up to another
one, and its line and column are those of its first character. -/
structure Token.StandsIn (text : String) (t : Token) : Prop where
  /-- A character begins where the range starts. -/
  start : (⟨t.start⟩ : String.Pos.Raw).IsValid text
  /-- A character ends where the range stops. -/
  stop : (⟨t.stop⟩ : String.Pos.Raw).IsValid text
  /-- The text of the token is the piece of the range. -/
  slice : String.Pos.Raw.extract text ⟨t.start⟩ ⟨t.stop⟩ = t.text
  /-- The line counts the line breaks in front of the token. -/
  line : t.line = lineOf (charsBefore text t.start)
  /-- The column counts the characters since the last line break. -/
  column : t.column = columnOf (charsBefore text t.start)

/-- Tokens that make up a text, with the end of the input behind them. -/
structure MakeUp (text : String) (ts : List Token) (e : Token) : Prop where
  /-- The last one is the end of the input. -/
  isEnd : e.kind = .endOfInput ∧ e.text = ""
  /-- No other one is. -/
  inner : ∀ t ∈ ts, t.kind ≠ .endOfInput ∧ t.text ≠ ""
  /-- The texts make up the text. -/
  join : String.join (ts.map Token.text) = text
  /-- The first range starts with the text. -/
  first : ∀ t ∈ (ts ++ [e]).head?, t.start = 0
  /-- Each range starts where the one before it stops. -/
  chain : (ts ++ [e]).IsChain (·.stop = ·.start)
  /-- The end of the input stands at the end of the text. -/
  last : e.start = text.utf8ByteSize ∧ e.stop = text.utf8ByteSize
  /-- Each token stands in the text. -/
  standsIn : ∀ t ∈ ts ++ [e], t.StandsIn text

theorem charsBefore_append (l m : List Char) :
    charsBefore (String.ofList (l ++ m)) (utf8Len l) = l := by
  have h := String.extract_of_valid [] l m
  rw [charsBefore]
  simpa using congrArg String.toList h

/-- A token that is placed behind what is in front of it in the text stands in the text. -/
theorem Lexer.StandsBehind.standsIn {before : List Char} {t : Token} (h : StandsBehind before t)
    (behind : List Char) : t.StandsIn (String.ofList (before ++ t.text.toList ++ behind)) := by
  have hbefore :
      charsBefore (String.ofList (before ++ t.text.toList ++ behind)) t.start = before := by
    rw [h.start, List.append_assoc, charsBefore_append]
  refine ⟨?_, ?_, ?_, ?_, ?_⟩
  · refine String.Pos.Raw.isValid_iff_exists_append.2
      ⟨String.ofList before, String.ofList (t.text.toList ++ behind), ?_, ?_⟩
    · rw [← String.ofList_append, List.append_assoc]
    · rw [h.start, String.rawEndPos_ofList]
  · refine String.Pos.Raw.isValid_iff_exists_append.2
      ⟨String.ofList (before ++ t.text.toList), String.ofList behind, String.ofList_append, ?_⟩
    rw [h.stop, String.rawEndPos_ofList]
  · rw [h.start, h.stop, String.utf8Len_append, String.extract_of_valid, String.ofList_toList]
  · rw [hbefore, h.line]
  · rw [hbefore, h.column]

theorem charsOf_append (ts us : List Token) : charsOf (ts ++ us) = charsOf ts ++ charsOf us :=
  List.flatMap_append

theorem join_eq_ofList_charsOf (ts : List Token) :
    String.join (ts.map Token.text) = String.ofList (charsOf ts) := by
  rw [String.join_eq, charsOf, List.map_map, List.flatMap_def]
  rfl

/-- A scan ends with the end of the input, which stands behind all of the text. -/
theorem Lexer.Scan.exists_inRow (mode : Mode) (text : String) :
    ∃ ts e, tokenizeFrom mode text = ts ++ [e] ∧ e.kind = .endOfInput ∧ e.text = "" ∧
      InRow [] ts ∧ charsOf ts = text.toList ∧ StandsBehind text.toList e := by
  have hlen : (Scan.start mode text.toList).rest.length ≤ text.length := by
    rw [Scan.start, String.length_toList]
  have hstart : (Scan.start mode text.toList).place = Place.start.afterText [] := rfl
  obtain ⟨ts, htokens, hrow, hchars, hplace⟩ := Scan.steps_inRow text.length hstart hlen
  let last := (Scan.start mode text.toList).steps text.length
  have hplace : last.place = ⟨utf8Len text.toList, lineOf text.toList, columnOf text.toList⟩ :=
    hplace.trans (Place.afterText_start _)
  refine ⟨ts, .endOfInput last.place.offset last.place.line last.place.column, ?_, rfl, rfl, hrow,
    hchars, ?_⟩
  · rw [tokenizeFrom, Scan.finish, List.reverse_cons, htokens]
    simp [Scan.start, last]
  · rw [hplace]
    exact ⟨rfl, by simp [Token.endOfInput], rfl, rfl⟩

/-- The tokens of a text make it up and stand where they say, whatever mode it begins in. -/
theorem tokens_tokenizeFrom (mode : Mode) (text : String) :
    ∃ ts e, tokenizeFrom mode text = ts ++ [e] ∧ MakeUp text ts e := by
  obtain ⟨ts, e, htokens, hkind, htext, hrow, hchars, he⟩ := Scan.exists_inRow mode text
  have hsize : utf8Len text.toList = text.utf8ByteSize := by
    rw [← String.utf8ByteSize_ofList, String.ofList_toList]
  have hchain := hrow.chain (u := .endOfInput 0 1 0) (by simpa [hchars] using he) rfl
  rw [List.isChain_cons] at hchain
  refine ⟨ts, e, htokens, ⟨hkind, htext⟩, fun t ht => ⟨?_, hrow.ne_empty t ht⟩, ?_,
    fun t ht => (hchain.1 t ht).symm, hchain.2, ⟨?_, ?_⟩, fun t ht => ?_⟩
  · -- a text is cut into tokens in one way, and no piece of a text is the end of the input
    obtain ⟨ts', e', htokens', -, hcuts⟩ := exists_cuts_tokenizeFrom mode text
    obtain ⟨rfl, -⟩ := List.append_inj' (htokens.symm.trans htokens') rfl
    simpa [Token.isEnd] using (hcuts.spelled t ht).2
  · rw [join_eq_ofList_charsOf, hchars, String.ofList_toList]
  · rw [he.start, hsize]
  · rw [he.stop, htext, String.utf8Len_append, hsize]
    rfl
  · rcases List.mem_append.1 ht with ht | ht
    · obtain ⟨us, vs, rfl⟩ := List.append_of_mem ht
      have hstands : StandsBehind (charsOf us) t := hrow.stands
      have hwhole : charsOf us ++ t.text.toList ++ charsOf vs = text.toList := by
        rw [← hchars, charsOf_append, List.append_assoc]
        rfl
      have := hstands.standsIn (charsOf vs)
      rwa [hwhole, String.ofList_toList] at this
    · obtain rfl := List.mem_singleton.1 ht
      have := he.standsIn []
      rwa [htext, List.append_nil, String.toList_empty, List.append_nil, String.ofList_toList]
        at this

/-! ## Texts of a single token -/

/-- A scan is done where nothing is left. -/
theorem Lexer.Scan.steps_of_rest_eq_nil {s : Scan} (h : s.rest = []) (n : Nat) : s.steps n = s := by
  cases n with
  | zero => rfl
  | succ n => rw [steps, if_pos (by simp [h])]

/-- A text that is a single lexeme of a fixed kind is a single token. -/
theorem tokenizeFrom_of_lexeme {m : Mode} {text : String} {k : Kind} (hne : text ≠ "")
    (h : m.lexeme text.toList = ⟨.fixed k, text.length⟩) :
    tokenizeFrom m text = [⟨k, text, 0, text.utf8ByteSize, 1, 0⟩,
      .endOfInput text.utf8ByteSize (lineOf text.toList) (columnOf text.toList)] := by
  have hpos : 0 < text.length := by
    rw [← String.length_toList]
    exact List.length_pos_iff.2 (by simpa using hne)
  obtain ⟨n, hn⟩ : ∃ n, text.length = n + 1 := ⟨text.length - 1, by omega⟩
  let s := Scan.start m text.toList
  have hwidth : s.width = text.length := by
    show max 1 (m.lexeme text.toList).length = text.length
    rw [h]
    show max 1 text.length = text.length
    omega
  have htake : s.rest.take s.width = text.toList := by
    rw [hwidth, ← String.length_toList]
    exact List.take_length
  have hrest : s.step.rest = [] := by
    show s.rest.drop s.width = []
    rw [hwidth, ← String.length_toList]
    exact List.drop_length
  have hplace : s.step.place = ⟨text.utf8ByteSize, lineOf text.toList, columnOf text.toList⟩ := by
    show Place.start.afterText (s.rest.take s.width) = _
    rw [htake, Place.afterText_start, ← String.utf8ByteSize_ofList, String.ofList_toList]
  have htoken : s.token.1 = ⟨k, text, 0, text.utf8ByteSize, 1, 0⟩ := by
    have hshape : (s.frames.current.mode.lexeme s.rest).shape = .fixed k := congrArg Lexeme.shape h
    have hstop : (s.place.afterText (s.rest.take s.width)).offset = text.utf8ByteSize :=
      congrArg Place.offset hplace
    rw [Scan.token, hshape]
    show (⟨k, String.ofList (s.rest.take s.width), 0,
      (s.place.afterText (s.rest.take s.width)).offset, 1, 0⟩ : Token) = _
    rw [hstop, htake, String.ofList_toList]
  have hsteps : s.steps text.length = s.step := by
    have hcons : s.rest.isEmpty = false := by simpa [s, Scan.start] using hne
    rw [hn, Scan.steps, hcons, if_neg Bool.false_ne_true, Scan.steps_of_rest_eq_nil hrest]
  show (s.steps text.length).finish = _
  rw [hsteps, Scan.finish, hplace]
  show [s.token.1, _] = _
  rw [htoken]

end PipeQuery
