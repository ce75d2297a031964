import PipeQuery.Kind.Set
import PipeQuery.Token

/-!
# Diagnostics

A `Diagnostic` blames one token and says why: `Diagnostic.Cause`. Most causes carry the kinds that
could have stood there. The wording is fixed, since other programs read it: `Diagnostic.message` is
the sentence, and `Diagnostic.text` puts the place in front of it.
-/

namespace PipeQuery

namespace Diagnostic

/-- Why a token is blamed. -/
inductive Cause where
  /-- The token is none of the expected ones, and no small repair helps. -/
  | mismatched (expected : KindSet)
  /-- The token was passed over, as what follows it is expected. -/
  | extraneous (expected : KindSet)
  /-- An expected token was taken for granted in front of the token. -/
  | missing (expected : KindSet)
  /-- No alternative of a decision begins with what was read, `input`, up to the token. -/
  | noViableAlternative (input : String) (expected : KindSet)
  /-- Expressions or queries nest deeper than `limit` levels. -/
  | nestingTooDeep (limit : Nat)
deriving DecidableEq, Repr

namespace Cause

/-- The kinds that could have stood in place of the token. -/
def expected : Cause → KindSet
  | mismatched kinds | extraneous kinds | missing kinds | noViableAlternative _ kinds => kinds
  | nestingTooDeep _ => ∅

/-- The sentence about a token that is shown as `shown`. -/
def message (shown : String) : Cause → String
  | mismatched kinds => "mismatched input '" ++ shown ++ "' expecting " ++ kinds.wording
  | extraneous kinds => "extraneous input '" ++ shown ++ "' expecting " ++ kinds.wording
  | missing kinds => "missing " ++ kinds.wording ++ " at '" ++ shown ++ "'"
  | noViableAlternative input _ => "no viable alternative at input '" ++ input ++ "'"
  | nestingTooDeep limit =>
    "nesting deeper than " ++ toString limit ++ " levels at '" ++ shown ++ "'"

end Cause

end Diagnostic

/-- A token that is blamed for a syntax error, and the cause. -/
structure Diagnostic where
  /-- Why the token is blamed. -/
  cause : Diagnostic.Cause
  /-- The token. -/
  token : Token
deriving DecidableEq, Repr

namespace Diagnostic

/-- The kinds that could have stood in place of the token. -/
def expected (d : Diagnostic) : KindSet := d.cause.expected

/-- The sentence of the diagnostic. -/
def message (d : Diagnostic) : String := d.cause.message d.token.shown

/-- The sentence behind the line and column of the token. -/
def text (d : Diagnostic) : String :=
  "line " ++ toString d.token.line ++ ":" ++ toString d.token.column ++ " " ++ d.message

end Diagnostic

end PipeQuery
