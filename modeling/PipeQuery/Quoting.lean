/-!
# Quoted texts

What the two quoted forms of the language say.

* Between backquotes a doubled backquote stands for one: `undouble`.
* Between double quotes a backslash takes the next character with it: `unescape`. Between triple
  quotes a text stands for itself.

`unwrap?` takes the quotes away.
-/

namespace PipeQuery.Quoting

/-- The text between an opening and a closing mark, if it has both. The two marks do not overlap. -/
def unwrap? (mark text : List Char) : Option (List Char) :=
  (mark.isPrefixOf? text).bind mark.isSuffixOf?

/-- Replaces each pair of backquotes by one, from left to right. -/
def undouble : List Char → List Char
  | '\x60' :: '\x60' :: rest => '\x60' :: undouble rest
  | c :: rest => c :: undouble rest
  | [] => []

/-- The character that a backslash and the character after it stand for. -/
def escaped : Char → Char
  | 't' => '\t'
  | 'n' => '\n'
  | 'r' => '\r'
  | c => c

/-- Resolves the backslash escapes of a text, from left to right. A backslash at the very end
stays. -/
def unescape : List Char → List Char
  | '\\' :: c :: rest => escaped c :: unescape rest
  | c :: rest => c :: unescape rest
  | [] => []

/-- The name that a backquoted text stands for; a text without both backquotes stands for itself. -/
def unquoteName (text : List Char) : List Char :=
  match unwrap? ['\x60'] text with
  | some inner => undouble inner
  | none => text

/-- The string that a literal stands for: verbatim between triple quotes, with escapes between
single ones. A text without its quotes is read as if it stood between single ones. -/
def unquoteString (text : List Char) : List Char :=
  match unwrap? ['"', '"', '"'] text with
  | some inner => inner
  | none => unescape ((unwrap? ['"'] text).getD text)

end PipeQuery.Quoting
