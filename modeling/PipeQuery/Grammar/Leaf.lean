import PipeQuery.Ast.Expression
import PipeQuery.Grammar.Rule

/-!
# Names and constants

The rules for the leaves of the grammar: names of the three sorts, numbers, strings, truth values,
constants, and the arguments that are leaves. Each set of kinds says how a leaf may begin.
-/

namespace PipeQuery.Grammar

open Rule

/-! ## Names -/

/-- The names of fields and functions. -/
def plainNames : KindSet := .ofList [.identifier, .quotedIdentifier]

/-- The index patterns of `FROM`. -/
def sourceNames : KindSet := .ofList [.sourceIdentifier, .quotedSourceIdentifier]

/-- The names of `ENRICH`. -/
def enrichNames : KindSet := .ofList [.enrichIdentifier, .quotedEnrichIdentifier]

/-- An identifier of one of some kinds. -/
def identifierOf (kinds : KindSet) : Rule Identifier :=
  spanned do return Identifier.ofToken (← expectAny kinds)

/-- A plain identifier. -/
def plainIdentifier : Rule Identifier := identifierOf plainNames

/-- The next token as an identifier. -/
def takeIdentifier : Rule Identifier := spanned do return Identifier.ofToken (← take)

/-- A reference to a field: identifiers with dots between them. -/
def qualifiedName : Rule QualifiedName :=
  spanned do return QualifiedName.mk (← separated .dot plainIdentifier)

/-- References to fields. -/
def qualifiedNames : Rule (List QualifiedName) := separated .comma qualifiedName

/-- A new name and an equals sign, if they stand in front. -/
def assigned? (kinds : KindSet) : Rule (Option Identifier) := do
  if (← atAny? kinds) && (← before? .assign) then
    let name ← identifierOf kinds
    let _ ← take
    return some name
  else return none

/-! ## Numbers, strings and truth values -/

/-- The kinds of numbers. -/
def numbers : KindSet := .ofList [.integer, .decimal]

/-- A number of one of some kinds. -/
def numberOf (kinds : KindSet) : Rule NumericValue := spanned do
  let token ← expectAny kinds
  return NumericValue.mk token.text (NumericKind.ofKind token.kind)

/-- A number. -/
def number : Rule NumericValue := numberOf numbers

/-- An integer. -/
def integer : Rule NumericValue := numberOf {.integer}

/-- A string. -/
def string : Rule StringLiteral := spanned do return StringLiteral.mk (← expect .string).text

/-- A truth value. -/
def truthValue : Rule BooleanValue :=
  spanned do return BooleanValue.mk (sameWord (← expect .boolean).text "true")

/-! ## Constants -/

/-- How a constant may begin. -/
def constantStart : KindSet :=
  .ofList [.kwNull, .integer, .decimal, .boolean, .string, .leftBracket]

/-- How an element of a list may begin. -/
def elementStart : KindSet := numbers ∪ .ofList [.boolean, .string]

/-- The elements of a list whose opening bracket stands at position `start`; all of them are of the
class of the first one. -/
def elements (start : Nat) : Rule (Span → Constant) := do
  match ← ask (·.kind) with
  | .boolean => return .booleanArray (← separated .comma truthValue)
  | .string => return .stringArray (← separated .comma string)
  | .integer | .decimal => return .numericArray (← separated .comma number)
  | _ => noViable start elementStart

/-- A list of constants. -/
def constantList : Rule Constant := spanned do
  let start ← ask (·.position)
  let _ ← take
  let list ← elements start
  let _ ← expect .rightBracket
  return list

/-- A constant. -/
def constant : Rule Constant := do
  match ← ask (·.kind) with
  | .kwNull => spanned do
    let _ ← take
    return .null
  | .boolean => return .boolean (← truthValue)
  | .string => return .string (← string)
  | .leftBracket => constantList
  | .integer | .decimal => return .numeric (← number)
  | _ => noViable (← ask (·.position)) constantStart

/-! ## Arguments -/

/-- How an argument of an aggregate or predicate function may begin. -/
def fieldArgumentStart : KindSet := plainNames ∪ numbers ∪ {.string}

/-- An argument of an aggregate or predicate function. -/
def fieldArgument : Rule FieldArgument := do
  match ← ask (·.kind) with
  | .string => return .string (← string)
  | .integer | .decimal => return .numeric (← number)
  | .identifier | .quotedIdentifier => return .field (← qualifiedName)
  | _ => noViable (← ask (·.position)) fieldArgumentStart

/-- A length of time. -/
def timeSpan : Rule TimeSpan := spanned do
  let value ← number
  let unit ← take
  return TimeSpan.mk value unit.text

end PipeQuery.Grammar
