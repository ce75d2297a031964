import PipeQuery.Ast.Literal
import PipeQuery.Proofs.QuotedNames

/-!
# Strings in quotes

A string has two written forms. Between double quotes (`Quoting.quoteString`) the characters that
would end it, or that are hard to see, are escaped by a backslash. Between triple quotes
(`Quoting.quoteVerbatim`) it stands as it is, if it has no three quotes in a row and does not end
with a quote.

The lexer looks for the end of a string (`stringBody_escape`, `verbatimBody_append_quotes`), and the
literal looks at both ends of its text (`unquoteString_quoteString`, `unquoteString_quoteVerbatim`).
They agree on which form a text has, since an escaped string begins with no quote. So both forms are
read as a single token that gives the string back (`string_tokenizeFrom`).
-/

namespace PipeQuery

open Lexer

variable {s text tail rest : List Char} {c : Char} {l : Lexeme}

namespace Quoting

/-- How a character is written between double quotes. -/
def escape : Char → List Char
  | '\\' => ['\\', '\\']
  | '"' => ['\\', '"']
  | '\n' => ['\\', 'n']
  | '\r' => ['\\', 'r']
  | '\t' => ['\\', 't']
  | c => [c]

/-- A string between double quotes, with escapes. -/
def quoteString (s : List Char) : List Char := '"' :: (s.flatMap escape ++ ['"'])

/-- A string between triple quotes, as it is. -/
def quoteVerbatim (s : List Char) : List Char := ['"', '"', '"'] ++ (s ++ ['"', '"', '"'])

/-- A character is escaped by a backslash and a character that stands for it, or it stands for
itself. -/
theorem escape_cases (c : Char) :
    (∃ d, escape c = ['\\', d] ∧ escaped d = c ∧ d ≠ '\n') ∨
      escape c = [c] ∧ c ≠ '\\' ∧ c ≠ '"' ∧ c ≠ '\n' ∧ c ≠ '\r' := by
  unfold escape
  split
  · exact .inl ⟨'\\', rfl, rfl, by decide⟩
  · exact .inl ⟨'"', rfl, rfl, by decide⟩
  · exact .inl ⟨'n', rfl, rfl, by decide⟩
  · exact .inl ⟨'r', rfl, rfl, by decide⟩
  · exact .inl ⟨'t', rfl, rfl, by decide⟩
  · next hback hquote hfeed hreturn _ => exact .inr ⟨rfl, hback, hquote, hfeed, hreturn⟩

/-- Escapes are resolved to the characters that they stand for. -/
theorem unescape_escape (s : List Char) : unescape (s.flatMap escape) = s := by
  induction s with
  | nil => rfl
  | cons c s ih =>
    rw [List.flatMap_cons]
    rcases escape_cases c with ⟨d, hd, hc, -⟩ | ⟨hd, hback, -⟩
    · rw [hd]
      show escaped d :: unescape (s.flatMap escape) = c :: s
      rw [hc, ih]
    · rw [hd, List.singleton_append, unescape, ih]
      intro _ _ heq
      exact absurd heq hback

/-- What is escaped does not begin with a quote. -/
theorem head_flatMap_escape (s : List Char) (rest : List Char) :
    s.flatMap escape ≠ '"' :: rest := by
  cases s with
  | nil => simp
  | cons c s =>
    rw [List.flatMap_cons]
    rcases escape_cases c with ⟨d, hd, -⟩ | ⟨hd, -, hquote, -⟩
    · rw [hd]
      simp
    · rw [hd]
      simp [hquote]

/-- So a string between double quotes is none between triple quotes. -/
theorem quoteString_ne (s : List Char) (rest : List Char) :
    s.flatMap escape ++ ['"'] ≠ '"' :: '"' :: rest := by
  intro heq
  cases hs : s.flatMap escape with
  | nil => simp [hs] at heq
  | cons c cs =>
    rw [hs, List.cons_append] at heq
    obtain ⟨rfl, -⟩ := List.cons.inj heq
    exact head_flatMap_escape s cs hs

theorem unquoteString_quoteString (s : List Char) : unquoteString (quoteString s) = s := by
  have htriple : unwrap? ['"', '"', '"'] (quoteString s) = none := by
    have hfront : ['"', '"', '"'].isPrefixOf? (quoteString s) = none := by
      rw [Option.eq_none_iff_forall_ne_some]
      intro rest hrest
      have heq := List.isPrefixOf?_eq_some_iff_append_eq.1 hrest
      exact quoteString_ne s rest (List.cons.inj heq).2.symm
    rw [unwrap?, hfront, Option.bind_none]
  have hplain : unwrap? ['"'] (quoteString s) = some (s.flatMap escape) := unwrap?_append ['"'] _
  rw [unquoteString, htriple, hplain]
  exact unescape_escape s

theorem unquoteString_quoteVerbatim (s : List Char) : unquoteString (quoteVerbatim s) = s := by
  rw [unquoteString, quoteVerbatim, unwrap?_append]

end Quoting

open Quoting

namespace Lexer

/-- No escape closes a string, and the quote behind it does. -/
theorem stringBody_escape (s tail : List Char) :
    stringBody (s.flatMap escape ++ '"' :: tail) = .closed ((s.flatMap escape).length + 1) := by
  induction s with
  | nil => rfl
  | cons c s ih =>
    rw [List.flatMap_cons, List.append_assoc, List.length_append]
    rcases escape_cases c with ⟨d, hd, -, hfeed⟩ | ⟨hd, hback, hquote, hfeed, hreturn⟩
    · rw [hd]
      show (if d = '\n' then Extent.unclosed 0 else
        (stringBody (s.flatMap escape ++ '"' :: tail)).push 2) = _
      rw [if_neg hfeed, ih, Extent.push]
      rfl
    · rw [hd, List.singleton_append, stringBody, if_neg (by simp [hfeed, hreturn]), ih, Extent.push]
      · rfl
      · exact hquote
      · intro _ _ heq
        exact absurd heq hback
      · intro heq
        exact absurd heq hback

/-- Three quotes close a verbatim string that has no three quotes in a row and does not end with a
quote. -/
theorem verbatimBody_append_quotes (hs : ¬ ['"', '"', '"'] <:+: s) (hlast : s.getLast? ≠ some '"')
    (tail : List Char) :
    verbatimBody (s ++ '"' :: '"' :: '"' :: tail) = .closed (s.length + 3) := by
  -- what is behind the front of the string has no three quotes in a row and no quote at its end
  have hrest (front : List Char) {rest : List Char} (hs : ¬ ['"', '"', '"'] <:+: front ++ rest)
      (hlast : (front ++ rest).getLast? ≠ some '"') :
      ¬ ['"', '"', '"'] <:+: rest ∧ rest.getLast? ≠ some '"' := by
    constructor
    · intro hmid
      exact hs (hmid.trans (List.suffix_append front rest).isInfix)
    · intro hquote
      rw [List.getLast?_append, hquote] at hlast
      exact hlast rfl
  fun_induction verbatimBody s with
  | case1 rest => exact absurd ⟨[], rest, rfl⟩ hs
  | case2 c rest hc ih =>
    obtain ⟨hs, hlast⟩ := hrest ['"', '"', c] hs hlast
    simp [verbatimBody, ih hs hlast, Extent.push]
    omega
  | case3 => exact absurd rfl hlast
  | case4 c rest htriple hpair hend ih =>
    obtain ⟨hs, hlast⟩ := hrest ['"', c] hs hlast
    have hc : c ≠ '"' := by
      cases rest with
      | nil => exact fun heq => hend heq rfl
      | cons d rest => exact fun heq => hpair d rest heq rfl
    simp [verbatimBody, ih hs hlast, Extent.push, hc]
    omega
  | case5 => exact absurd rfl hlast
  | case6 c rest htriple hdouble hend hpair hone ih =>
    obtain ⟨hs, hlast⟩ := hrest [c] hs hlast
    have hc : c ≠ '"' := by
      cases rest with
      | nil => exact fun heq => hone heq rfl
      | cons d rest => exact fun heq => hpair d rest heq rfl
    simp [verbatimBody, ih hs hlast, Extent.push, hc]
    omega
  | case7 => rfl

/-- A quote begins a string in expressions. -/
theorem expressionLexeme_quote (h : string? ('"' :: text) = some l) :
    expressionLexeme ('"' :: text) = l := by
  have hblanks : blanks? ('"' :: text) = none := rfl
  have hcomment : comment? ('"' :: text) = none := comment?_eq_none_iff.2 fun rest => by simp
  have hname : quotedName? .quotedIdentifier ('"' :: text) = none := rfl
  simp only [expressionLexeme, firstOf_cons, hblanks, hcomment, hname, h, Option.getD_none,
    Option.getD_some]

/-- A string between double quotes is a lexeme of its own. -/
theorem expressionLexeme_quoteString (s : List Char) :
    expressionLexeme (quoteString s) = ⟨.fixed .string, (quoteString s).length⟩ := by
  apply expressionLexeme_quote
  rw [string?_plain (quoteString_ne s), stringBody_escape, Extent.lexeme, quoteString,
    List.length_cons, List.length_append, Nat.add_comm]
  rfl

/-- So is one between triple quotes. -/
theorem expressionLexeme_quoteVerbatim (hs : ¬ ['"', '"', '"'] <:+: s)
    (hlast : s.getLast? ≠ some '"') :
    expressionLexeme (quoteVerbatim s) = ⟨.fixed .string, (quoteVerbatim s).length⟩ := by
  apply expressionLexeme_quote
  show string? ('"' :: '"' :: '"' :: (s ++ ['"', '"', '"'])) = _
  rw [string?_verbatim, verbatimBody_append_quotes hs hlast, Extent.lexeme, quoteVerbatim,
    List.length_append, List.length_append]
  rfl

end Lexer

/-! ## Strings as texts -/

/-- In expressions a text is read as a single string, and its literal stands for a value. -/
def ReadsAs (text : List Char) (value : String) : Prop :=
  ∃ t e, tokenizeFrom .expression (String.ofList text) = [t, e] ∧ e.kind = .endOfInput ∧
    t.kind = .string ∧ t.text = String.ofList text ∧
    ∀ span, (StringLiteral.mk t.text span).value = value

/-- A text that is a lexeme of its own is read as the value that its literal stands for. -/
theorem readsAs_of_lexeme (hne : text ≠ [])
    (hlex : expressionLexeme text = ⟨.fixed .string, text.length⟩) {value : String}
    (hvalue : unquoteString text = value.toList) : ReadsAs text value := by
  have hlex : Mode.expression.lexeme (String.ofList text).toList
      = ⟨.fixed .string, (String.ofList text).length⟩ := by
    rw [← String.length_toList, String.toList_ofList]
    exact hlex
  have hne : String.ofList text ≠ "" := by simpa using hne
  refine ⟨_, _, tokenizeFrom_of_lexeme hne hlex, rfl, rfl, rfl, fun span => ?_⟩
  show String.ofList (unquoteString (String.ofList text).toList) = value
  rw [String.toList_ofList, hvalue, String.ofList_toList]

/-- Between double quotes every string is read as itself, and between triple quotes every string
that has no three quotes in a row and does not end with a quote. -/
theorem string_tokenizeFrom :
    (∀ s : String, ReadsAs (quoteString s.toList) s) ∧
      ∀ s : String, ¬ ['"', '"', '"'] <:+: s.toList → s.toList.getLast? ≠ some '"' →
        ReadsAs (quoteVerbatim s.toList) s := by
  constructor
  · intro s
    have hlex := expressionLexeme_quoteString s.toList
    exact readsAs_of_lexeme (by simp [quoteString]) hlex (unquoteString_quoteString s.toList)
  · intro s hs hlast
    have hlex := expressionLexeme_quoteVerbatim hs hlast
    exact readsAs_of_lexeme (by simp [quoteVerbatim]) hlex (unquoteString_quoteVerbatim s.toList)

theorem string_tokenizeFrom_quotes :
    ¬ ['"', '"', '"'] <:+: "\"\"a\n".toList ∧ "\"\"a\n".toList.getLast? ≠ some '"' ∧
      ReadsAs (quoteVerbatim "\"\"a\n".toList) "\"\"a\n" := by
  have hs : ¬ ['"', '"', '"'] <:+: "\"\"a\n".toList := by decide
  have hlast : "\"\"a\n".toList.getLast? ≠ some '"' := by decide
  exact ⟨hs, hlast, string_tokenizeFrom.2 "\"\"a\n" hs hlast⟩

end PipeQuery
