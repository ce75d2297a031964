import PipeQuery.Parsed
import PipeQuery.Proofs.Cuts
import PipeQuery.Proofs.Lockstep
import PipeQuery.Proofs.Shown

/-!
# The case of letters never matters

Every recogniser finds the same in a text in lower case, so a text in lower case is cut into the same
tokens in lower case (`tokenizeFrom_toLower`). Two such texts look the same through a sight of their
tokens (`Sight.cased`), so they are read in lockstep: the same is read and the same is reported, up
to the case of letters (`read_of_toLower`).
-/

namespace PipeQuery

open Lexer Grammar

/-! ## Lexemes -/

namespace Lexer

variable {text : List Char} {p : Char → Bool}

theorem run_toLower (h : ∀ c : Char, p c.toLower = p c) :
    run p (text.map Char.toLower) = run p text := by
  have hp : p ∘ Char.toLower = p := funext h
  rw [run, run, List.takeWhile_map, List.length_map, hp]

theorem commentBody_toLower : commentBody (text.map Char.toLower) = commentBody text := by
  fun_induction commentBody text with
  | case1 | case3 | case5 => rfl
  | case2 c rest hc ih => simp [commentBody, toLower_ne hc rfl, ih]
  | case4 c rest hclose hnext hend ih =>
    have hc : c ≠ '*' := by
      rintro rfl
      cases rest with
      | nil => exact hend rfl rfl
      | cons d rest => exact hnext d rest rfl rfl
    simp [commentBody, toLower_ne hc rfl, ih]

theorem nameBody_toLower : nameBody (text.map Char.toLower) = nameBody text := by
  fun_induction nameBody text with
  | case1 rest ih => simp [nameBody, ih]
  | case2 rest h =>
    cases rest with
    | nil => rfl
    | cons c rest =>
      have hc : c ≠ '\x60' := fun hc => h rest (by rw [hc])
      simp [nameBody, toLower_ne hc rfl]
  | case3 c rest htwo hone ih => simp [nameBody, toLower_ne hone rfl, ih]
  | case4 => rfl

theorem stringBody_toLower : stringBody (text.map Char.toLower) = stringBody text := by
  fun_induction stringBody text with
  | case1 | case2 | case4 | case7 => rfl
  | case3 c rest hc ih => simp [stringBody, toLower_ne hc rfl, ih]
  | case5 c rest _ _ _ h => rcases h with rfl | rfl <;> rfl
  | case6 c rest hquote hnext hend hline ih =>
    have hc : c ≠ '\\' := by
      rintro rfl
      cases rest with
      | nil => exact hend rfl rfl
      | cons d rest => exact hnext d rest rfl rfl
    obtain ⟨hr, hn⟩ := not_or.1 hline
    simp [stringBody, toLower_ne hc rfl, toLower_ne hquote rfl, toLower_ne hr rfl,
      toLower_ne hn rfl, ih]

theorem verbatimBody_toLower : verbatimBody (text.map Char.toLower) = verbatimBody text := by
  fun_induction verbatimBody text with
  | case1 | case3 | case5 | case7 => rfl
  | case2 c rest hc ih => simp [verbatimBody, toLower_ne hc rfl, ih]
  | case4 c rest hclose hnext hend ih =>
    have hc : c ≠ '"' := by
      rintro rfl
      cases rest with
      | nil => exact hend rfl rfl
      | cons d rest => exact hnext d rest rfl rfl
    simp [verbatimBody, toLower_ne hc rfl, ih]
  | case6 c rest _ _ _ hnext hend ih =>
    have hc : c ≠ '"' := by
      rintro rfl
      cases rest with
      | nil => exact hend rfl rfl
      | cons d rest => exact hnext d rest rfl rfl
    simp [verbatimBody, toLower_ne hc rfl, ih]

theorem isBlank_toLower (c : Char) : isBlank c.toLower = isBlank c := by
  refine @class_toLower _ isBlank false (fun c hc => ?_) c
  have hne (d : Char) (hd : d.isAlpha = false) : c ≠ d := ne_of_isAlpha hc hd
  simp [isBlank, hne]

theorem isDigit_toLower (c : Char) : c.toLower.isDigit = c.isDigit := by
  refine @class_toLower _ Char.isDigit false (fun c hc => ?_) c
  exact (word_first (.inl hc)).2.2.2.2.2

/-- Both cases of the letter of an exponent are known. -/
theorem isExponent_toLower (c : Char) :
    (c.toLower == 'e' || c.toLower == 'E') = (c == 'e' || c == 'E') := by
  have hupper : c.toLower ≠ 'E' := by
    intro h
    have := Char.isUpper_toLower_eq_false c
    rw [h] at this
    exact absurd this (by decide)
  have hlower : c.toLower = 'e' ↔ c = 'e' ∨ c = 'E' := by
    constructor
    · intro h
      have hback := Char.toUpper_toLower_eq_toUpper c
      by_cases hl : c.isLower = true
      · have hu := Char.not_isUpper_of_isLower hl
        rw [Char.toLower_eq_of_not_isUpper hu] at h
        exact .inl h
      · rw [h, Char.toUpper_eq_of_not_isLower hl] at hback
        exact .inr hback.symm
    · rintro (rfl | rfl) <;> rfl
  rw [Bool.eq_iff_iff]
  simp [hlower, hupper]

theorem isWordPart_toLower (c : Char) : isWordPart c.toLower = isWordPart c :=
  @class_toLower _ isWordPart true (fun c hc => by simp [isWordPart, Char.isAlphanum, hc]) c

theorem blanks?_toLower : blanks? (text.map Char.toLower) = blanks? text := by
  cases text with
  | nil => rfl
  | cons c text => simp only [List.map_cons, blanks?, isBlank_toLower, run_toLower isBlank_toLower]

theorem comment?_toLower : comment? (text.map Char.toLower) = comment? text := by
  fun_cases comment? text with
  | case1 rest =>
    have hrun : run (· != '\n') (rest.map Char.toLower) = run (· != '\n') rest := by
      refine run_toLower fun c => ?_
      rw [Bool.eq_iff_iff, bne_iff_ne, bne_iff_ne, Ne, Ne, toLower_eq_iff (by decide)]
    simp [comment?, hrun]
  | case2 rest => simp [comment?, commentBody_toLower]
  | case3 text hslash hstar =>
    refine comment?_eq_none_iff.2 fun rest => ⟨fun h => ?_, fun h => ?_⟩ <;>
      obtain ⟨c, t, rfl, hc, ht⟩ := List.map_eq_cons_iff.1 h <;>
      obtain ⟨d, u, rfl, hd, -⟩ := List.map_eq_cons_iff.1 ht <;>
      rw [toLower_eq_iff (by decide)] at hc hd
    · exact hslash u (by rw [hc, hd])
    · exact hstar u (by rw [hc, hd])

theorem quotedName?_toLower {kind : Kind} :
    quotedName? kind (text.map Char.toLower) = quotedName? kind text := by
  cases text with
  | nil => rfl
  | cons c text =>
    by_cases hc : c = '\x60'
    · simp [quotedName?, hc, nameBody_toLower]
    · simp [quotedName?, hc, toLower_ne hc rfl]

theorem string?_toLower : string? (text.map Char.toLower) = string? text := by
  cases text with
  | nil => rfl
  | cons c text =>
    by_cases hc : c = '"'
    · subst hc
      -- two more quotes make the string a verbatim one
      cases text with
      | nil => rfl
      | cons d text =>
        have hbody := @stringBody_toLower (d :: text)
        by_cases hd : d = '"'
        · subst hd
          cases text with
          | nil => rfl
          | cons e text =>
            by_cases he : e = '"'
            · simp [string?, he, verbatimBody_toLower]
            · simp [string?, he, toLower_ne he rfl, stringBody]
        · rw [List.map_cons] at hbody
          simp [string?, hd, toLower_ne hd rfl, hbody]
    · simp [string?, hc, toLower_ne hc rfl]

theorem exponentLength_toLower : exponentLength (text.map Char.toLower) = exponentLength text := by
  cases text with
  | nil => rfl
  | cons e text =>
    obtain ⟨sign, after, rfl, hsigned⟩ := exists_sign text
    have hsame : sign.map Char.toLower = sign := by
      rcases hsigned with rfl | rfl | ⟨rfl, -⟩ <;> rfl
    have hsigned' : sign = ['+'] ∨ sign = ['-'] ∨
        sign = [] ∧ ∀ c ∈ (after.map Char.toLower).head?, c ≠ '+' ∧ c ≠ '-' := by
      refine hsigned.imp_right (Or.imp_right (And.imp_right fun h c hc => ?_))
      rw [List.head?_map, Option.mem_def, Option.map_eq_some_iff] at hc
      obtain ⟨d, hd, rfl⟩ := hc
      exact ⟨toLower_ne (h d hd).1 rfl, toLower_ne (h d hd).2 rfl⟩
    rw [List.map_cons, List.map_append, hsame, exponentLength_cons hsigned',
      exponentLength_cons hsigned, run_toLower isDigit_toLower, isExponent_toLower]

theorem number?_toLower : number? (text.map Char.toLower) = number? text := by
  rw [number?, number?, run_toLower isDigit_toLower, ← List.map_drop]
  generalize text.drop (run Char.isDigit text) = rest
  cases rest with
  | nil => rfl
  | cons c rest =>
    by_cases hc : c = '.'
    · simp [hc, run_toLower isDigit_toLower, ← List.map_drop, exponentLength_toLower]
    · have hexponent := @exponentLength_toLower (c :: rest)
      rw [List.map_cons] at hexponent
      simp [hc, toLower_ne hc rfl, hexponent]

theorem word?_toLower : word? (text.map Char.toLower) = word? text := by
  cases text with
  | nil => rfl
  | cons c text =>
    have hunderscore : (c.toLower == '_') = (c == '_') := by
      rw [Bool.eq_iff_iff, beq_iff_eq, beq_iff_eq, toLower_eq_iff (by decide)]
    have hat : (c.toLower == '@') = (c == '@') := by
      rw [Bool.eq_iff_iff, beq_iff_eq, beq_iff_eq, toLower_eq_iff (by decide)]
    simp only [List.map_cons, word?, run_toLower isWordPart_toLower,
      Char.isAlpha_toLower_eq_isAlpha, hunderscore, hat]

theorem comparison?_toLower : comparison? (text.map Char.toLower) = comparison? text := by
  fun_cases comparison? text with
  | case1 | case2 | case3 | case4 => rfl
  | case5 rest h | case6 rest h | case7 rest h =>
    -- no equals sign is behind the first character
    cases rest with
    | nil => rfl
    | cons d rest =>
      have hd : d ≠ '=' := fun hd => h rest (by rw [hd])
      simp [comparison?, toLower_ne hd rfl]
  | case8 text _ hneq _ _ hlt hgt heq =>
    refine comparison?_eq_none_iff.2 ⟨fun c hc => ?_, fun after h => ?_⟩
    · rw [List.head?_map, Option.mem_def, Option.map_eq_some_iff] at hc
      obtain ⟨d, hd, rfl⟩ := hc
      obtain ⟨rest, rfl⟩ := List.head?_eq_some_iff.1 hd
      exact ⟨toLower_ne (fun hd => heq rest (by rw [hd])) rfl,
        toLower_ne (fun hd => hlt rest (by rw [hd])) rfl,
        toLower_ne (fun hd => hgt rest (by rw [hd])) rfl⟩
    · obtain ⟨c, t, rfl, hc, ht⟩ := List.map_eq_cons_iff.1 h
      obtain ⟨d, u, rfl, hd, -⟩ := List.map_eq_cons_iff.1 ht
      rw [toLower_eq_iff (by decide)] at hc hd
      exact hneq u (by rw [hc, hd])

/-- No letter is a token of its own. -/
theorem single?_toLower {table : List (Char × Shape)}
    (h : ∀ entry ∈ table, entry.1.isAlpha = false) :
    single? table (text.map Char.toLower) = single? table text := by
  cases text with
  | nil => rfl
  | cons c text =>
    have hlookup : table.lookup c.toLower = table.lookup c := by
      induction table with
      | nil => rfl
      | cons entry table ih =>
        obtain ⟨hentry, htable⟩ := List.forall_mem_cons.1 h
        have heq : (c.toLower == entry.1) = (c == entry.1) := by
          rw [Bool.eq_iff_iff, beq_iff_eq, beq_iff_eq, toLower_eq_iff hentry]
        obtain ⟨key, shape⟩ := entry
        simp only [List.lookup, heq, ih htable]
    simp only [List.map_cons, single?, hlookup]

theorem pattern?_toLower {shape : Shape} :
    pattern? shape (text.map Char.toLower) = pattern? shape text := by
  cases text with
  | nil => rfl
  | cons c text =>
    simp only [List.map_cons, pattern?, isPatternPart_toLower, run_toLower isPatternPart_toLower]

/-- The lexeme at the front of a text does not depend on the case of letters. -/
theorem Mode.lexeme_toLower (m : Mode) : m.lexeme (text.map Char.toLower) = m.lexeme text := by
  have hexpression : expressionLexeme (text.map Char.toLower) = expressionLexeme text := by
    simp only [expressionLexeme, firstOf_cons, blanks?_toLower, comment?_toLower,
      quotedName?_toLower, string?_toLower, number?_toLower, word?_toLower, comparison?_toLower]
    rw [single?_toLower (by decide)]
    rfl
  have hsource : sourceLexeme (text.map Char.toLower) = sourceLexeme text := by
    simp only [sourceLexeme, firstOf_cons, blanks?_toLower, comment?_toLower,
      quotedName?_toLower, pattern?_toLower]
    rw [single?_toLower (by decide)]
    rfl
  have henrich : enrichLexeme (text.map Char.toLower) = enrichLexeme text := by
    simp only [enrichLexeme, firstOf_cons, blanks?_toLower, comment?_toLower,
      quotedName?_toLower, pattern?_toLower]
    rw [single?_toLower (by decide)]
    rfl
  cases m <;> assumption

end Lexer

/-! ## Tokens -/

/-- A token with its text in lower case. -/
def Token.lower (t : Token) : Token := { t with text := t.text.toLower }

@[simp] theorem Token.lower_endOfInput (offset line column : Nat) :
    (Token.endOfInput offset line column).lower = .endOfInput offset line column := by
  have hempty : "".toLower = "" := by decide +kernel
  rw [lower, endOfInput, hempty]

namespace Lexer

theorem Place.afterText_toLower (p : Place) (text : List Char) :
    p.afterText (text.map Char.toLower) = p.afterText text := by
  have hafter (p : Place) (c : Char) : p.after c.toLower = p.after c := by
    have hline : c.toLower = '\n' ↔ c = '\n' := toLower_eq_iff (by decide)
    simp only [after, hline, utf8Size_toLower]
  rw [afterText, List.foldl_map]
  simp only [hafter]
  rfl

namespace Scan

/-- A scan of the text in lower case. -/
def lower (s : Scan) : Scan :=
  ⟨s.rest.map Char.toLower, s.frames, s.place, s.tokens.map Token.lower⟩

theorem width_lower (s : Scan) : s.lower.width = s.width := by
  have hlexeme : s.frames.current.mode.lexeme (s.rest.map Char.toLower) = _ :=
    Mode.lexeme_toLower _
  exact congrArg (fun l => max 1 l.length) hlexeme

theorem token_lower (s : Scan) : s.lower.token = (s.token.1.lower, s.token.2) := by
  have hlexeme : s.frames.current.mode.lexeme (s.rest.map Char.toLower) = _ :=
    Mode.lexeme_toLower _
  have htake : s.lower.rest.take s.lower.width = (s.rest.take s.width).map Char.toLower := by
    rw [width_lower, List.map_take]
    rfl
  have htext : String.ofList ((s.rest.take s.width).map Char.toLower)
      = (String.ofList (s.rest.take s.width)).toLower := by
    rw [← String.toList_inj, String.toList_toLower, String.toList_ofList, String.toList_ofList]
  have hread : s.lower.frames.read (s.lower.frames.current.mode.lexeme s.lower.rest).shape
        (String.ofList (s.rest.take s.width)).toLower
      = s.frames.read (s.frames.current.mode.lexeme s.rest).shape
        (String.ofList (s.rest.take s.width)) := by
    change s.frames.read (s.frames.current.mode.lexeme (s.rest.map Char.toLower)).shape _ = _
    rw [hlexeme]
    exact Frames.read_congr (String.toLower_toLower _)
  simp only [token, htake, htext, hread, Place.afterText_toLower, Token.lower]
  rfl

theorem step_lower (s : Scan) : s.lower.step = s.step.lower := by
  change (⟨(s.rest.map Char.toLower).drop s.lower.width, s.lower.token.2,
    s.place.afterText ((s.rest.map Char.toLower).take s.lower.width),
    s.lower.token.1 :: s.tokens.map Token.lower⟩ : Scan) = _
  rw [token_lower, width_lower, ← List.map_take, Place.afterText_toLower, ← List.map_drop]
  rfl

theorem steps_lower (n : Nat) (s : Scan) : s.lower.steps n = (s.steps n).lower := by
  induction n generalizing s with
  | zero => rfl
  | succ n ih =>
    rw [steps, steps, step_lower, ih]
    by_cases h : s.rest.isEmpty = true
    · rw [if_pos h, if_pos (by simpa [lower] using h)]
    · rw [if_neg h, if_neg (by simpa [lower] using h)]

end Scan

end Lexer

/-- The tokens of a text in lower case are its tokens in lower case. -/
theorem tokenizeFrom_toLower (m : Mode) (text : String) :
    tokenizeFrom m text.toLower = (tokenizeFrom m text).map Token.lower := by
  have hstart : Scan.start m text.toLower.toList = (Scan.start m text.toList).lower := by
    rw [String.toList_toLower]
    rfl
  have hlength : text.toLower.length = text.length := by
    rw [← String.length_toList, ← String.length_toList, String.toList_toLower, List.length_map]
  rw [tokenizeFrom, tokenizeFrom, hstart, hlength, Scan.steps_lower, Scan.finish, Scan.finish]
  simp only [Scan.lower, List.map_reverse, List.map_cons, Token.lower_endOfInput]

/-- Texts that are equal up to the case of letters have the same tokens up to it. -/
theorem tokenizeFrom_congr {text text' : String} (h : text.toLower = text'.toLower) (m : Mode) :
    (tokenizeFrom m text).map Token.lower = (tokenizeFrom m text').map Token.lower := by
  rw [← tokenizeFrom_toLower, ← tokenizeFrom_toLower, h]

/-- What the grammar sees of two such texts is the same up to the case of letters. -/
theorem seen_tokenizeFrom_congr {text text' : String} (h : text.toLower = text'.toLower)
    (m : Mode) : (TokenStream.seen (tokenizeFrom m text)).map Token.lower
      = (TokenStream.seen (tokenizeFrom m text')).map Token.lower := by
  have hseen (text : String) : (TokenStream.seen (tokenizeFrom m text)).map Token.lower
      = ((tokenizeFrom m text).map Token.lower).filter Token.isSignificant := by
    obtain ⟨ts, e, htokens, he, hcuts⟩ := exists_cuts_tokenizeFrom m text
    have hend : e.isEnd = true := by simp [Token.isEnd, he]
    have hsig : e.isSignificant = true := by simp [Token.isSignificant, he, Kind.isTrivia]
    rw [htokens, TokenStream.seen_append (fun t ht => (hcuts.spelled t ht).2) hend, List.filter_map]
    change _ = ((ts ++ [e]).filter Token.isSignificant).map Token.lower
    rw [List.filter_append]
    simp [hsig]
  rw [hseen, hseen, tokenizeFrom_congr h]

/-! ## Readings -/

/-- Tokens are seen up to the case of their letters. -/
def Sight.cased : Sight where
  view := Token.lower
  values := True
  spell := String.toLower
  kind_of_view h := (Token.mk.inj h).1
  text_of_view h _ := (Token.mk.inj h).2.1
  toLower_of_spell h := h
  operator_of_view h _ := ComparisonOp.ofText?_congr (Token.mk.inj h).2.1
  comparison_of_view h _ :=
    congrArg Option.isSome (ComparisonOp.ofText?_congr (Token.mk.inj h).2.1)

/-- No spans, and texts in lower case. -/
def Recast.lower : Recast := ⟨fun _ => default, String.toLower⟩

/-- A query without its spans and with all its texts in lower case. -/
def Query.lower (q : Query) : Query := q.recast Token.lower .lower

/-- A condition without its spans and with all its texts in lower case. -/
def BooleanExpr.lower (e : BooleanExpr) : BooleanExpr := e.recast Token.lower .lower

/-- A diagnostic about a token in lower case, without the text that it quotes. -/
def Diagnostic.lower (d : Diagnostic) : Diagnostic := d.seenAs Token.lower

/-- Readings of texts as statements that are the same up to the case of letters. -/
structure Parsed.SameUpToCase (p p' : Parsed) : Prop where
  /-- The queries have the same shape, and the same names and constants up to the case of letters. -/
  query : p.statement.query.lower = p'.statement.query.lower
  /-- They are written in the same way. -/
  text : p.statement.text.toLower = p'.statement.text.toLower
  /-- They have the same structure. -/
  sexpr : p.statement.sexpr.toLower = p'.statement.sexpr.toLower
  /-- The same is reported, of the same places and with the same kinds expected there. -/
  diagnostics : p.diagnostics.map Diagnostic.lower = p'.diagnostics.map Diagnostic.lower

/-- Readings of texts as expressions that are the same up to the case of letters. -/
inductive SameExpression :
    Except (List Diagnostic) BooleanExpr → Except (List Diagnostic) BooleanExpr → Prop
  | ok {e e' : BooleanExpr} (shape : e.lower = e'.lower) (text : e.text.toLower = e'.text.toLower)
    (sexpr : e.sexpr.toLower = e'.sexpr.toLower) : SameExpression (.ok e) (.ok e')
  | error {ds ds' : List Diagnostic} (h : ds.map Diagnostic.lower = ds'.map Diagnostic.lower) :
    SameExpression (.error ds) (.error ds')

/-- Texts in lower case show the same up to the case of letters. -/
theorem shows_lower : Shows String.toLower Token.lower .lower where
  nil := by decide +kernel
  append := String.toLower_append
  text := String.toLower_toLower
  keyword t := by
    rw [String.toLower_toUpper, String.toLower_toUpper]
    exact String.toLower_toLower _

/-- Queries that are the same in lower case show the same up to the case of letters. -/
theorem Query.shown_congr {q q' : Query} (h : q.lower = q'.lower) :
    q.text.toLower = q'.text.toLower ∧ q.sexpr.toLower = q'.sexpr.toLower := by
  have hshown := q.shown_recast shows_lower
  have hshown' := q'.shown_recast shows_lower
  change q.recast Token.lower .lower = q'.recast Token.lower .lower at h
  rw [h] at hshown
  exact ⟨hshown.1.symm.trans hshown'.1, hshown.2.symm.trans hshown'.2⟩

theorem BooleanExpr.shown_congr {e e' : BooleanExpr} (h : e.lower = e'.lower) :
    e.text.toLower = e'.text.toLower ∧ e.sexpr.toLower = e'.sexpr.toLower := by
  have hshown := e.shown_recast shows_lower
  have hshown' := e'.shown_recast shows_lower
  change e.recast Token.lower .lower = e'.recast Token.lower .lower at h
  rw [h] at hshown
  exact ⟨hshown.1.symm.trans hshown'.1, hshown.2.symm.trans hshown'.2⟩

section

variable {tokens tokens' : List Token}

/-- Tokens that are the same up to the case of letters are read as the same statement up to it. -/
theorem sameUpToCase_parse (h : (TokenStream.seen tokens).map Token.lower
    = (TokenStream.seen tokens').map Token.lower) (config : Config) :
    (parse tokens config).SameUpToCase (parse tokens' config) := by
  have hstart : Sight.cased.States (.start config tokens) (.start config tokens') :=
    Sight.states_start h config
  obtain ⟨hquery, hend⟩ := Sight.cased.lasting_link.query config.maxDepth hstart
  have hquery : (parse tokens config).statement.query.lower
      = (parse tokens' config).statement.query.lower := hquery trivial
  obtain ⟨htext, hsexpr⟩ := Query.shown_congr hquery
  exact ⟨hquery, htext, hsexpr, hend.diagnostics⟩

/-- They are read as the same expression, too. -/
theorem wholeExpression_congr (h : (TokenStream.seen tokens).map Token.lower
    = (TokenStream.seen tokens').map Token.lower) (config : Config) :
    Sight.cased.link.Outcome (Sight.cased.link.Alike (BooleanExpr.recast Token.lower))
      ((wholeExpression config.maxDepth).run (.start config tokens))
      ((wholeExpression config.maxDepth).run (.start config tokens')) := by
  have hstart : Sight.cased.States (.start config tokens) (.start config tokens') :=
    Sight.states_start h config
  have hrules : Sight.cased.link.Rules Link.Any
      (Sight.cased.link.Alike (BooleanExpr.recast Token.lower))
      (wholeExpression config.maxDepth) (wholeExpression config.maxDepth) := by
    unfold wholeExpression
    refine ((Link.Rules.expressions config.maxDepth).boolean 0).bind fun e e' he => ?_
    refine Link.Rules.ask_same (fun s s' hs _ => (Sight.States.atEnd hs).symm) fun b => ?_
    cases b with
    | true => exact Link.Rules.pure he
    | false => exact Link.Rules.giveUp fun s s' hs _ => Sight.cased.link.stop hs _
  exact hrules _ _ hstart trivial

end

/-- The case of letters never matters. Two texts that are equal up to the case of letters have the
same tokens up to it, whatever the mode they begin in: of the same kinds, at the same places. They
are read as the same statement and as the same expression, and the same is reported. -/
theorem read_of_toLower (text text' : String) (h : text.toLower = text'.toLower) :
    (∀ m, (tokenizeFrom m text).map Token.lower = (tokenizeFrom m text').map Token.lower) ∧
      (parseText text).SameUpToCase (parseText text') ∧
      SameExpression (parseExpression text).result (parseExpression text').result := by
  refine ⟨tokenizeFrom_congr h, sameUpToCase_parse (seen_tokenizeFrom_congr h .command) {}, ?_⟩
  have hrun := wholeExpression_congr (seen_tokenizeFrom_congr h .expression) {}
  rw [parseExpression, parseExpression]
  generalize (wholeExpression _).run _ = x at hrun ⊢
  generalize (wholeExpression _).run _ = x' at hrun ⊢
  cases hrun with
  | stop ht =>
    have ht : Sight.cased.States _ _ := ht
    exact .error ht.diagnostics
  | @answer e e' t t' he ht =>
    have ht : Sight.cased.States t t' := ht
    have hshape : e.lower = e'.lower := he trivial
    obtain ⟨htext, hsexpr⟩ := BooleanExpr.shown_congr hshape
    have hnone : t.diagnostics.isEmpty = t'.diagnostics.isEmpty := by
      have hlength := congrArg List.length ht.diagnostics
      simp only [List.length_map, Array.length_toList] at hlength
      simp [Array.isEmpty, hlength]
    dsimp only
    rw [← hnone]
    split
    · exact .ok hshape htext hsexpr
    · exact .error ht.diagnostics

theorem read_of_toLower_sort :
    "from a|sort b desc".toLower = "FROM A|SORT B Desc".toLower ∧
      (parseText "from a|sort b desc").statement.sexpr = "(pipe (from a) (sort (order b desc)))" ∧
      (parseText "from a|sort b desc").statement.sexpr.toLower
        = (parseText "FROM A|SORT B Desc").statement.sexpr.toLower := by
  have h : "from a|sort b desc".toLower = "FROM A|SORT B Desc".toLower := by
    rw [← String.toList_inj, String.toList_toLower, String.toList_toLower]
    decide
  exact ⟨h, by decide +kernel, (read_of_toLower _ _ h).2.1.sexpr⟩

end PipeQuery
