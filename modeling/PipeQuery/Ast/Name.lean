import PipeQuery.Quoting
import PipeQuery.Span
import PipeQuery.Token

/-!
# Names

An `Identifier` is kept as written, with the kind of its token; `Identifier.name` is what it names.
A `QualifiedName` is a dotted sequence of identifiers.
-/

namespace PipeQuery

/-- Whether a kind is that of an identifier in backquotes. -/
def Kind.isQuotedIdentifier : Kind → Bool
  | quotedIdentifier | quotedSourceIdentifier | quotedEnrichIdentifier => true
  | _ => false

/-- An identifier as written. -/
structure Identifier where
  /-- The text as written, backquotes included. -/
  raw : String
  /-- Whether the text is in backquotes. -/
  quoted : Bool
  /-- The kind of the token, which tells fields, index patterns and policies apart. -/
  kind : Kind
  /-- The tokens of the identifier. -/
  span : Span
deriving DecidableEq, Repr, Inhabited

namespace Identifier

/-- The identifier that a token spells. -/
def ofToken (t : Token) (span : Span) : Identifier where
  raw := t.text
  quoted := t.kind.isQuotedIdentifier
  kind := t.kind
  span := span

/-- What the identifier names: its text without quoting. -/
def name (i : Identifier) : String :=
  if i.quoted then String.ofList (Quoting.unquoteName i.raw.toList) else i.raw

end Identifier

/-- A dotted reference to a field. -/
structure QualifiedName where
  /-- The identifiers between the dots. -/
  parts : List Identifier
  /-- The tokens of the name. -/
  span : Span
deriving DecidableEq, Repr, Inhabited

namespace QualifiedName

/-- The names of the parts, joined by dots. -/
def name (q : QualifiedName) : String := ".".intercalate (q.parts.map Identifier.name)

/-- The reference as written, without the blanks around its dots. -/
def text (q : QualifiedName) : String := ".".intercalate (q.parts.map Identifier.raw)

end QualifiedName

end PipeQuery
