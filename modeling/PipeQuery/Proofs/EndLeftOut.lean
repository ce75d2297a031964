import PipeQuery.Proofs.Places
import PipeQuery.Proofs.Regions
import PipeQuery.Proofs.SameTokens

/-!
# Texts that leave out their end

Where no token marks the end of the input, one is made up behind the last token. It is placed by the
width of that token, so it stands on the line of that token, and where the token has line breaks this
is not the line on which the text ends.

Two texts with the same tokens in front of their ends are read in lockstep (`Sight.Twins`), now with
the texts that are quoted in a diagnostic: quotations are cut out in front of the end.

## Main statements

* `parse_dropLast`: without the token that ends it, a text is read with the same diagnostics, up to
  the lines and columns of the end of the input.
* `parse_dropLast_eq_iff`: the end of the input is where it would be just when the last token has no
  line break, and no column is too great; then all the diagnostics are the same.
-/

open String (utf8Len)

namespace PipeQuery

open Grammar

/-! ## Diagnostics with quotations -/

/-- A diagnostic about a token as it is seen. -/
def Diagnostic.viewed (view : Token → Token) (d : Diagnostic) : Diagnostic := ⟨d.cause, view d.token⟩

/-- A token without its line and column, if it is the end of the input. -/
def Token.unplaced (t : Token) : Token := if t.isEnd then { t with line := 0, column := 0 } else t

namespace Token

variable {t t' : Token}

@[simp] theorem kind_unplaced (t : Token) : t.unplaced.kind = t.kind := by
  unfold unplaced
  split <;> rfl

@[simp] theorem text_unplaced (t : Token) : t.unplaced.text = t.text := by
  unfold unplaced
  split <;> rfl

theorem kind_of_unplaced (h : t.unplaced = t'.unplaced) : t.kind = t'.kind := by
  simpa using congrArg Token.kind h

theorem text_of_unplaced (h : t.unplaced = t'.unplaced) : t.text = t'.text := by
  simpa using congrArg Token.text h

end Token

/-- Tokens are seen but for the line and column of the end of the input. -/
def Sight.unplaced : Sight where
  view := Token.unplaced
  values := True
  spell := id
  kind_of_view := Token.kind_of_unplaced
  text_of_view h _ := Token.text_of_unplaced h
  toLower_of_spell h := congrArg String.toLower h
  operator_of_view h _ := congrArg ComparisonOp.ofText? (Token.text_of_unplaced h)
  comparison_of_view h _ :=
    congrArg (fun text => (ComparisonOp.ofText? text).isSome) (Token.text_of_unplaced h)

/-! ## Quotations -/

/-- A quotation depends on the tokens in front of the end only. -/
theorem TokenStream.textBetween_congr {s s' : TokenStream} (hs : s.Valid) (hs' : s'.Valid)
    (hlimit : s'.limit = s.limit) (htokens : s'.tokens.take s.limit = s.tokens.take s.limit)
    (start stop : Nat) : s'.textBetween start stop = s.textBetween start stop := by
  have hshown : s'.endToken.shown = s.endToken.shown := by
    simp [Token.shown, Token.isEnd, hs.kind_endToken, hs'.kind_endToken]
  have hextract (tokens : List Token) (n : Nat) :
      tokens.extract start (min n s.limit) = (tokens.take s.limit).extract start n := by
    rw [List.extract_eq_take_drop, List.extract_eq_take_drop, List.drop_take, List.take_take]
    congr 1
    omega
  rw [textBetween, textBetween, hlimit, hshown, hextract, hextract, htokens]

namespace Sight

variable (V : Sight)

/-- States in the middle of two texts that have the same tokens in front of their ends. -/
structure Twins (s s' : State) : Prop extends V.States s s' where
  /-- The same tokens are left, at the same places. -/
  rest : s'.stream.rest = s.stream.rest
  /-- The ends are at the same place. -/
  limit : s'.stream.limit = s.stream.limit
  /-- The same tokens stand in front of the ends. -/
  tokens : s'.stream.tokens.take s.stream.limit = s.stream.tokens.take s.stream.limit
  /-- The same was reported, quotations included. -/
  reported : s.diagnostics.toList.map (Diagnostic.viewed V.view)
    = s'.diagnostics.toList.map (Diagnostic.viewed V.view)

namespace Twins

variable {V} {s s' : State}

theorem position (h : V.Twins s s') : s'.position = s.position := by
  rw [State.position, State.position, TokenStream.position, TokenStream.position, h.rest, h.limit]

/-- What does not touch the stream and reports nothing leaves twins. -/
theorem of_states {t t' : State} (h : V.Twins s s') (ht : V.States t t')
    (hs : t.stream = s.stream) (hs' : t'.stream = s'.stream) (hd : t.diagnostics = s.diagnostics)
    (hd' : t'.diagnostics = s'.diagnostics) : V.Twins t t' := by
  refine ⟨ht, ?_, ?_, ?_, ?_⟩
  · rw [hs, hs', h.rest]
  · rw [hs, hs', h.limit]
  · rw [hs, hs', h.tokens]
  · rw [hd, hd', h.reported]

theorem next (h : V.Twins s s') : s'.stream.next.rest = s.stream.next.rest ∧
    s'.stream.next.limit = s.stream.next.limit ∧
    s'.stream.next.tokens.take s.stream.next.limit
      = s.stream.next.tokens.take s.stream.next.limit := by
  have hread := s.stream.reads_next
  have hread' := s'.stream.reads_next
  refine ⟨?_, by rw [hread.limit, hread'.limit, h.limit],
    by rw [hread.limit, hread.tokens, hread'.tokens, h.tokens]⟩
  have hrest := h.rest
  rw [hread.rest, hread'.rest, h.rest] at hrest
  exact List.append_cancel_left hrest

theorem skip (h : V.Twins s s') : V.Twins s.skip s'.skip :=
  ⟨h.toStates.skip, h.next.1, h.next.2.1, h.next.2.2, h.reported⟩

theorem bump (h : V.Twins s s') : V.Twins s.bump s'.bump :=
  ⟨h.toStates.bump, h.next.1, h.next.2.1, h.next.2.2, h.reported⟩

theorem note (h : V.Twins s s') (e e' : Event) : V.Twins (s.note e) (s'.note e') :=
  h.of_states (h.toStates.note e e') rfl rfl rfl rfl

theorem record (h : V.Twins s s') (kind : Kind) (span span' : Span) :
    V.Twins (s.record kind span) (s'.record kind span') :=
  h.of_states (h.toStates.record kind span span') rfl rfl rfl rfl

theorem inScope (h : V.Twins s s') (scope : Scope) :
    V.Twins { s with scope := scope } { s' with scope := scope } :=
  h.of_states (h.toStates.inScope scope) rfl rfl rfl rfl

theorem report (h : V.Twins s s') {cause : Diagnostic.Cause} {t t' : Token}
    (ht : V.view t = V.view t') : V.Twins (s.report ⟨cause, t⟩) (s'.report ⟨cause, t'⟩) := by
  have hstates : V.States (s.report ⟨cause, t⟩) (s'.report ⟨cause, t'⟩) :=
    h.toStates.report (by rw [Diagnostic.seenAs, Diagnostic.seenAs, ht])
  refine ⟨hstates, ?_, ?_, ?_, ?_⟩
  · rw [State.stream_report, State.stream_report, h.rest]
  · rw [State.stream_report, State.stream_report, h.limit]
  · rw [State.stream_report, State.stream_report, h.tokens]
  · rw [State.report, State.report, h.recovering]
    split
    · exact h.reported
    · simp [h.reported, Diagnostic.viewed, ht]

theorem blame (h : V.Twins s s') (cause : Diagnostic.Cause) :
    V.Twins (s.blame cause) (s'.blame cause) := h.report h.current

theorem noViable (h : V.Twins s s') (start : Nat) (expected : KindSet) :
    V.Twins
      (s.blame (.noViableAlternative (s.stream.textBetween start s.position) expected))
      (s'.blame (.noViableAlternative (s'.stream.textBetween start s'.position) expected)) := by
  rw [h.position, TokenStream.textBetween_congr h.valid h.valid' h.limit h.tokens]
  exact h.blame _

theorem passOver (h : V.Twins s s') (n : Nat) : V.Twins (s.passOver n) (s'.passOver n) := by
  induction n generalizing s s' with
  | zero => exact h
  | succ n ih =>
    rw [State.passOver, State.passOver, h.atEnd, h.halted, h.atBoundary]
    split
    · exact h
    · exact ih h.skip

theorem resync (h : V.Twins s s') (start start' : Nat) :
    V.Twins (s.resync start).2 (s'.resync start').2 := by
  have hpass := h.passOver s.stream.remaining
  rw [State.resync, State.resync, ← h.remaining]
  exact (hpass.note _ _).record _ _ _

end Twins

/-- Texts with the same tokens in front of their ends are read in lockstep. -/
def twinLink : Link where
  view := V.view
  values := False
  left _ := default
  right _ := default
  spell := V.spell
  behind := 0
  behind' := 0
  States := V.Twins
  Stopped := V.Twins
  Position i i' := i = i'
  kind_of_view := V.kind_of_view
  text_of_view _ hv := hv.elim
  toLower_of_spell := V.toLower_of_spell
  operator_of_view _ hv := hv.elim
  comparison_of_view := V.comparison_of_view
  valid h := h.valid
  valid' h := h.valid'
  current h := h.current
  kindAfter h _ := h.kindAfter
  config h := h.config
  scope h := h.scope
  position h := h.position.symm
  span _ _ _ _ _ := rfl
  remaining h := ⟨Nat.zero_le _, Nat.zero_le _, .inl h.remaining⟩
  bump h _ := h.bump
  skip h _ := h.skip
  note h e e' := h.note e e'
  record h kind span span' := h.record kind span span'
  inScope h scope := h.inScope scope
  stoppedInScope h scope := h.inScope scope
  delete h _ _ _ := ((h.note _ _).blame _).skip
  insert h _ _ := (h.note _ _).blame _
  stop h cause := h.blame cause
  noViable h _ _ hi expected := hi ▸ h.noViable _ expected
  unknown h _ := h.bump.report h.current

theorem lasting_twinLink : V.twinLink.Lasting where
  remaining h := h.remaining
  bump h _ := h.bump
  resync h _ _ _ := ⟨fun hv => hv.elim, h.resync _ _⟩
  skipExtraneous {s s'} h _ _ := by
    have h : V.Twins s s' := h
    have hkinds : s'.boundaryKinds = s.boundaryKinds := by
      rw [State.boundaryKinds, State.boundaryKinds, h.scope]
    rw [State.skipExtraneous, State.skipExtraneous, hkinds]
    exact (h.blame _).resync _ _

variable {V} {tokens tokens' : List Token}

/-- Two texts with the same tokens in front of their ends begin as twins. -/
theorem twins_start (hfront : tokens.takeWhile (!·.isEnd) = tokens'.takeWhile (!·.isEnd))
    (hend : V.view (TokenStream.ofTokens tokens).endToken
      = V.view (TokenStream.ofTokens tokens').endToken) (config : Config) :
    V.Twins (.start config tokens) (.start config tokens') := by
  have hsignificant : TokenStream.significant tokens' = TokenStream.significant tokens := by
    rw [TokenStream.significant, TokenStream.significant, hfront]
  have hseen : (TokenStream.seen tokens).map V.view = (TokenStream.seen tokens').map V.view := by
    simp [TokenStream.seen, hsignificant, hend]
  have hlimit : tokens'.findIdx Token.isEnd = tokens.findIdx Token.isEnd := by
    have hlength (tokens : List Token) :
        (tokens.takeWhile (!·.isEnd)).length = tokens.findIdx Token.isEnd := by
      rw [TokenStream.takeWhile_isEnd, List.length_take, Nat.min_eq_left List.findIdx_le_length]
    rw [← hlength, ← hlength, hfront]
  refine ⟨Sight.states_start hseen config, hsignificant, hlimit, ?_, rfl⟩
  change tokens'.take (tokens.findIdx Token.isEnd) = tokens.take (tokens.findIdx Token.isEnd)
  rw [← TokenStream.takeWhile_isEnd, hfront, TokenStream.takeWhile_isEnd, hlimit]

/-- The same is reported about two texts with the same tokens in front of their ends, as far as the
ends look the same. -/
theorem diagnostics_parse_of_front
    (hfront : tokens.takeWhile (!·.isEnd) = tokens'.takeWhile (!·.isEnd))
    (hend : V.view (TokenStream.ofTokens tokens).endToken
      = V.view (TokenStream.ofTokens tokens').endToken) (config : Config) :
    (parse tokens config).diagnostics.map (Diagnostic.viewed V.view)
      = (parse tokens' config).diagnostics.map (Diagnostic.viewed V.view) :=
  (V.lasting_twinLink.query config.maxDepth (twins_start hfront hend config)).2.reported

end Sight

/-! ## The tokens of a text -/

namespace Lexer

theorem lineOf_append (l m : List Char) : lineOf (l ++ m) = lineOf l + m.count '\n' := by
  simp [lineOf, Nat.add_assoc]

/-- Text without a line break stays on its line. -/
theorem columnOf_append {l m : List Char} (hm : '\n' ∉ m) :
    columnOf (l ++ m) = columnOf l + m.length := by
  have hall : ∀ c ∈ m.reverse, decide (c ≠ '\n') = true := by
    intro c hc
    exact decide_eq_true fun h => hm (h ▸ List.mem_reverse.1 hc)
  rw [columnOf, List.reverse_append, List.takeWhile_append_of_pos hall, List.length_append,
    List.length_reverse, columnOf, Nat.add_comm]

/-- The end that is made up behind some tokens in a row is where their text ends. Its line and column
are right just when the last token has no line break, and the column is not too great. -/
theorem exists_endAfter {ts : List Token} (h : InRow [] ts) :
    ∃ line column,
      TokenStream.endAfter ts.getLast? = .endOfInput (utf8Len (charsOf ts)) line column ∧
        (line = lineOf (charsOf ts) ∧ column = columnOf (charsOf ts) ↔
          ∀ last ∈ ts.getLast?,
            '\n' ∉ last.text.toList ∧ last.column + last.text.length ≤ TokenStream.maxColumn) := by
  rcases List.eq_nil_or_concat ts with rfl | ⟨us, last, rfl⟩
  · exact ⟨1, 0, rfl, by simp [charsOf, lineOf, columnOf]⟩
  rw [List.concat_eq_append] at h ⊢
  have hstands : StandsBehind (charsOf us) last := h.stands
  have hchars : charsOf (us ++ [last]) = charsOf us ++ last.text.toList := by
    simp [charsOf]
  refine ⟨last.line, min (last.column + last.text.length) TokenStream.maxColumn, ?_, ?_⟩
  · rw [List.getLast?_append, hchars, ← hstands.stop]
    rfl
  · simp only [List.getLast?_append, List.getLast?_singleton, Option.some_or, Option.mem_def,
      Option.some.injEq, forall_eq']
    rw [hchars, hstands.line, hstands.column, lineOf_append, Nat.left_eq_add, List.count_eq_zero,
      ← String.length_toList]
    refine and_congr_right fun hm => ?_
    rw [columnOf_append hm]
    exact min_eq_left_iff

end Lexer

open Lexer

/-- What marks the end of a text that leaves out its end: it is where the text ends, but for its line
and column, which are right just when the last token has no line break and no column is too great. -/
structure MadeUp (tokens : List Token) : Prop where
  /-- All other tokens are in front of the end. -/
  front : tokens.takeWhile (!·.isEnd) = tokens.dropLast.takeWhile (!·.isEnd)
  /-- The end is where the text ends, but for its line and column. -/
  unplaced : (TokenStream.ofTokens tokens.dropLast).endToken.unplaced
    = (TokenStream.ofTokens tokens).endToken.unplaced
  /-- The condition for the line and column. -/
  eq_iff : (TokenStream.ofTokens tokens.dropLast).endToken = (TokenStream.ofTokens tokens).endToken ↔
    ∀ last ∈ tokens.dropLast.getLast?,
      '\n' ∉ last.text.toList ∧ last.column + last.text.length ≤ TokenStream.maxColumn

theorem madeUp_tokenizeFrom (mode : Mode) (text : String) : MadeUp (tokenizeFrom mode text) := by
  obtain ⟨ts, e, htokens, hmake⟩ := tokens_tokenizeFrom mode text
  obtain ⟨ts', e', htokens', hkind, htext, hrow, hchars, he⟩ := Scan.exists_inRow mode text
  obtain ⟨rfl, h⟩ := List.append_inj' (htokens.symm.trans htokens') rfl
  obtain rfl := List.singleton_inj.1 h
  have hinner : ∀ t ∈ ts, (!t.isEnd) = true := fun t ht => by
    simpa [Token.isEnd] using (hmake.inner t ht).1
  have hend : e.isEnd = true := by simp [Token.isEnd, hkind]
  have hfind : ts.find? Token.isEnd = none := List.find?_eq_none.2 (by simpa using hinner)
  have hfirst : (TokenStream.ofTokens ts).endToken = TokenStream.endAfter ts.getLast? := by
    rw [TokenStream.ofTokens, hfind]
    rfl
  have hsecond : (TokenStream.ofTokens (ts ++ [e])).endToken = e := by
    rw [TokenStream.ofTokens, List.find?_append, hfind]
    simp [hend]
  have hplace : e = .endOfInput (utf8Len (charsOf ts)) (lineOf (charsOf ts))
      (columnOf (charsOf ts)) := by
    have hstop := he.stop
    rw [htext, String.toList_empty, List.append_nil] at hstop
    rw [hchars, ← hstop, ← he.line, ← he.column]
    obtain ⟨kind, etext, start, stop, line, column⟩ := e
    have hstart := he.start
    simp only at hkind htext hstart hstop
    rw [Token.endOfInput, hkind, htext, hstart, hstop]
  obtain ⟨line, column, hmade, hiff⟩ := exists_endAfter hrow
  rw [htokens]
  refine ⟨?_, ?_, ?_⟩
  · rw [List.dropLast_concat, List.takeWhile_append_of_pos hinner,
      List.takeWhile_eq_self_iff.2 hinner]
    simp [hend]
  · rw [List.dropLast_concat, hfirst, hsecond, hmade, hplace]
    rfl
  · rw [List.dropLast_concat, hfirst, hsecond, hmade, ← hiff, hplace]
    simp [Token.endOfInput]

/-- Where a text leaves out its end, the same is reported, up to the lines and columns of the end of
the input, which is at the same byte. -/
theorem parse_dropLast (mode : Mode) (text : String) (config : Config) :
    (parse (tokenizeFrom mode text).dropLast config).statement.endToken.unplaced
        = (parse (tokenizeFrom mode text) config).statement.endToken.unplaced ∧
      (parse (tokenizeFrom mode text).dropLast config).diagnostics.map
          (Diagnostic.viewed Token.unplaced)
        = (parse (tokenizeFrom mode text) config).diagnostics.map
          (Diagnostic.viewed Token.unplaced) := by
  obtain ⟨hfront, hend, -⟩ := madeUp_tokenizeFrom mode text
  refine ⟨?_, Sight.unplaced.diagnostics_parse_of_front hfront.symm hend config⟩
  exact (congrArg Token.unplaced (endToken_statement _ _ _)).trans
    (hend.trans (congrArg Token.unplaced (endToken_statement _ _ _)).symm)

/-- Where a text leaves out its end, the end of the input is where it would be just when the last
token has no line break and the column of the end is not too great; and then the same is reported,
and the same query is read, up to its spans. -/
theorem parse_dropLast_eq_iff (mode : Mode) (text : String) (config : Config) :
    ((parse (tokenizeFrom mode text).dropLast config).statement.endToken
        = (parse (tokenizeFrom mode text) config).statement.endToken ↔
      ∀ last ∈ (tokenizeFrom mode text).dropLast.getLast?,
        '\n' ∉ last.text.toList ∧ last.column + last.text.length ≤ TokenStream.maxColumn) ∧
    ((parse (tokenizeFrom mode text).dropLast config).statement.endToken
        = (parse (tokenizeFrom mode text) config).statement.endToken →
      (parse (tokenizeFrom mode text).dropLast config).diagnostics
          = (parse (tokenizeFrom mode text) config).diagnostics ∧
        (parse (tokenizeFrom mode text).dropLast config).statement.query.erase id
          = (parse (tokenizeFrom mode text) config).statement.query.erase id) := by
  obtain ⟨hfront, -, hiff⟩ := madeUp_tokenizeFrom mode text
  have hend : (parse (tokenizeFrom mode text).dropLast config).statement.endToken
        = (parse (tokenizeFrom mode text) config).statement.endToken ↔
      (TokenStream.ofTokens (tokenizeFrom mode text).dropLast).endToken
        = (TokenStream.ofTokens (tokenizeFrom mode text)).endToken := by
    rw [← endToken_statement config.maxDepth config, ← endToken_statement config.maxDepth config]
    rfl
  refine ⟨hend.trans hiff, fun h => ?_⟩
  have hviewed := Sight.whole.diagnostics_parse_of_front hfront.symm (hend.1 h) config
  have hid : Diagnostic.viewed Sight.whole.view = id := rfl
  rw [hid, List.map_id, List.map_id] at hviewed
  refine ⟨hviewed, (states_parse_of_seen ?_ config).1⟩
  rw [TokenStream.seen, TokenStream.seen, TokenStream.significant, TokenStream.significant, hfront,
    hend.1 h]

/-- The line break behind `FROM` is the last token, so the end is put on the wrong line. -/
example : (parse (tokenize "FROM\n").dropLast {}).statement.endToken = .endOfInput 5 1 5 ∧
    (parse (tokenize "FROM\n") {}).statement.endToken = .endOfInput 5 2 0 := by decide +kernel

end PipeQuery
