import PipeQuery.Kind
import PipeQuery.Number.Numeral
import PipeQuery.Quoting
import PipeQuery.Span

/-!
# Literals

Numbers and strings are kept as written, and what they denote is computed on demand:
`NumericValue.toWord?`, `NumericValue.toFloat?` and `StringLiteral.value`. A list of constants holds
elements of one class.
-/

namespace PipeQuery

/-- The lexical class of a number. -/
inductive NumericKind where
  /-- Digits only. -/
  | integer
  /-- Digits with a point or an exponent. -/
  | decimal
deriving DecidableEq, Repr, Inhabited

/-- The class of a number by the kind of its token. -/
def NumericKind.ofKind (kind : Kind) : NumericKind :=
  if kind = .decimal then .decimal else .integer

/-- A number as written. -/
structure NumericValue where
  /-- The text as written. -/
  raw : String
  /-- The lexical class. -/
  kind : NumericKind
  /-- The tokens of the number. -/
  span : Span
deriving DecidableEq, Repr, Inhabited

namespace NumericValue

/-- The value of an integer that fits in 64 bits. -/
def toWord? (n : NumericValue) : Option UInt64 :=
  match n.kind with
  | .integer => Number.readWord? n.raw
  | .decimal => none

/-- The floating-point number nearest to the value. -/
def toFloat? (n : NumericValue) : Option Float :=
  (Number.Numeral.ofString? n.raw).map Number.Numeral.toFloat

end NumericValue

/-- A string literal as written, quotes included. -/
structure StringLiteral where
  /-- The text as written. -/
  raw : String
  /-- The tokens of the literal. -/
  span : Span
deriving DecidableEq, Repr, Inhabited

/-- The string that the literal stands for. -/
def StringLiteral.value (s : StringLiteral) : String :=
  String.ofList (Quoting.unquoteString s.raw.toList)

/-- A truth value. -/
structure BooleanValue where
  /-- The value. -/
  value : Bool
  /-- The tokens of the literal. -/
  span : Span
deriving DecidableEq, Repr, Inhabited

/-- A constant, or a list of constants of one class. -/
inductive Constant where
  /-- The missing value. -/
  | null (span : Span)
  /-- A number. -/
  | numeric (value : NumericValue)
  /-- A truth value. -/
  | boolean (value : BooleanValue)
  /-- A string. -/
  | string (value : StringLiteral)
  /-- A list of numbers. -/
  | numericArray (values : List NumericValue) (span : Span)
  /-- A list of truth values. -/
  | booleanArray (values : List BooleanValue) (span : Span)
  /-- A list of strings. -/
  | stringArray (values : List StringLiteral) (span : Span)
deriving DecidableEq, Repr, Inhabited

/-- The tokens of a constant. -/
def Constant.span : Constant → Span
  | null span | numericArray _ span | booleanArray _ span | stringArray _ span => span
  | numeric value => value.span
  | boolean value => value.span
  | string value => value.span

end PipeQuery
