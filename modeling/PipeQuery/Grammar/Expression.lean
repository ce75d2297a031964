import PipeQuery.Grammar.Leaf

/-!
# Expressions

The rules for conditions, values and arithmetic. Infix operators come as a chain of operands, and
how tightly an operator binds decides which chain it joins: a chain that is read at some power takes
the operators whose left power is no less.

An expression inside another one is one level deeper. `expressions n` reads those that nest at most
`n` levels deep, and gives up on others; each level is made out of the one below it, by the rules of
this module.
-/

namespace PipeQuery.Grammar

open Rule

/-- The rules for expressions down to some depth. -/
structure Expressions where
  /-- Conditions whose chain is read at a given power. -/
  boolean : Nat → Rule BooleanExpr
  /-- Arithmetic whose chain is read at a given power. -/
  operator : Nat → Rule OperatorExpr

/-! ## How expressions begin -/

/-- How a leaf of arithmetic may begin. -/
def primaryStart : KindSet := constantStart ∪ plainNames ∪ {.leftParen}

/-- How an arithmetic expression may begin. -/
def operatorStart : KindSet :=
  primaryStart ∪ .ofList [.plus, .minus, .aggregateFunction, .scalarFunction]

/-- How a condition may begin. -/
def booleanStart : KindSet := operatorStart ∪ {.kwNot}

/-- How the condition of a filter may begin. -/
def filterStart : KindSet := booleanStart ∪ {.predicateFunction}

/-- How a condition may begin in a scope. -/
def Scope.booleanStart (scope : Scope) : KindSet :=
  if scope.predicates then filterStart else Grammar.booleanStart

/-! ## Arithmetic -/

/-- A value: an arithmetic expression or a comparison of two. Comparisons do not chain. -/
def value (inner : Expressions) : Rule ValueExpr := do
  let left ← inner.operator 0
  if ← at? .comparison then
    let operator ← take
    match ComparisonOp.ofText? operator.text with
    | some op => return .comparison left op operator (← inner.operator 0)
    | none => giveUp (·.report ⟨.mismatched {.comparison}, operator⟩)
  else return .operator left

/-- An argument of a scalar function. -/
def scalarArgument (inner : Expressions) : Rule ScalarArgument := do
  if (← atAny? numbers) && (← before? .dateUnit) then return .timeSpan (← timeSpan)
  else return .value (← value inner)

/-- A leaf of arithmetic. -/
def primary (inner : Expressions) : Rule PrimaryExpr := do
  let kind ← ask (·.kind)
  if kind ∈ constantStart then return .constant (← constant)
  else if kind = .leftParen then spanned do
    return .group (← parenthesised (inner.boolean 0))
  else if kind ∈ plainNames then
    if ← before? .leftParen then spanned do
      return .call (← plainIdentifier) (← arguments (inner.boolean 0))
    else return .field (← qualifiedName)
  else noViable (← ask (·.position)) primaryStart

/-- An operand of an infix operator. -/
def operand (inner : Expressions) : Rule OperatorExpr := do
  let kind ← ask (·.kind)
  match Sign.ofKind? kind with
  | some sign => spanned do
    let operator ← take
    return .signed sign operator (← inner.operator Sign.power)
  | none =>
    if kind = .aggregateFunction then spanned do
      return .aggregate (← takeIdentifier) (← arguments fieldArgument)
    else if kind = .scalarFunction then spanned do
      return .scalar (← takeIdentifier) (← arguments (scalarArgument inner))
    else if kind ∈ primaryStart then return .primary (← primary inner)
    else noViable (← ask (·.position)) operatorStart

/-- An operator and its right operand, if the operator joins a chain that is read at `power`. -/
def linkOf {O T : Type} (ofKind? : Kind → Option O) (leftPower : O → Nat) (right : O → Rule T)
    (power : Nat) : Rule (Option (ChainLink O T)) := do
  match ofKind? (← ask (·.kind)) with
  | some op =>
    if leftPower op < power then return none
    else
      let operator ← take
      return some ⟨op, operator, ← right op⟩
  | none => return none

/-- An infix operator and its right operand. -/
def operatorLink (inner : Expressions) (power : Nat) :
    Rule (Option (ChainLink ArithmeticOp OperatorExpr)) :=
  linkOf ArithmeticOp.ofKind? ArithmeticOp.leftPower (fun op => inner.operator op.rightPower) power

/-- A chain of infix operators. -/
def operatorChain (inner : Expressions) (power : Nat) : Rule OperatorExpr := do
  let first ← operand inner
  return .ofChain first (← many (operatorLink inner power))

/-! ## Conditions -/

/-- A call of a predicate function. -/
def predicateCall : Rule PredicateCall := spanned do
  let name ← takeIdentifier
  let (field, args) ← parenthesised do
    let field ← qualifiedName
    let args ← many (behind .comma fieldArgument)
    return (field, args)
  return PredicateCall.mk name field args

/-- The words that test a value. -/
def testWords : KindSet := .ofList [.kwIn, .kwLike, .kwRlike]

/-- The `NOT` in front of a word that tests a value. Any other `NOT` is left alone. -/
def testNegation : Rule (Option Token) := do
  if (← at? .kwNot) && (← ask fun s => testWords.contains s.kindAfter) then
    let token ← ask (·.current)
    change (·.skip)
    return some token
  else return none

/-- A value, or a test of it by `IN`, `LIKE` or `RLIKE`; the value begins at position `start`. -/
def test (inner : Expressions) (start : Nat) (tested : ValueExpr) : Rule BooleanExpr := do
  let negation ← testNegation
  let kind ← ask (·.kind)
  if kind = .kwIn then
    let _ ← take
    let items ← parenthesised (separated .comma (value inner))
    ask fun s => .isIn tested negation items (s.spanFrom start)
  else
    match PatternKind.ofKind? kind with
    | some pattern =>
      let _ ← take
      let literal ← string
      ask fun s => .isMatch tested negation pattern literal (s.spanFrom start)
    | none => return .value tested

/-- An operand of a connective. -/
def condition (inner : Expressions) : Rule BooleanExpr := do
  let kind ← ask (·.kind)
  let scope ← ask (·.scope)
  if kind = .kwNot then spanned do
    let operator ← take
    return .not operator (← inner.boolean Connective.notPower)
  else if kind = .predicateFunction && scope.predicates then return .predicate (← predicateCall)
  else if kind ∈ operatorStart then
    let start ← ask (·.position)
    let tested ← value inner
    if scope.predicates then test inner start tested else return .value tested
  else noViable (← ask (·.position)) scope.booleanStart

/-- A connective and its right operand. -/
def connectiveLink (inner : Expressions) (power : Nat) :
    Rule (Option (ChainLink Connective BooleanExpr)) :=
  linkOf Connective.ofKind? Connective.leftPower (fun op => inner.boolean op.rightPower) power

/-- A chain of connectives. -/
def connectiveChain (inner : Expressions) (power : Nat) : Rule BooleanExpr := do
  let first ← condition inner
  return .ofChain first (← many (connectiveLink inner power))

/-! ## Levels -/

/-- The rules for expressions that nest at most a given number of levels deep. -/
def expressions : Nat → Expressions
  | 0 => ⟨fun _ => tooDeep, fun _ => tooDeep⟩
  | n + 1 =>
    ⟨fun power s => connectiveChain (expressions n) power s,
     fun power s => operatorChain (expressions n) power s⟩

/-- An expression that is the whole input. -/
def wholeExpression (levels : Nat) : Rule BooleanExpr := do
  let expression ← (expressions levels).boolean 0
  if ← ask (·.stream.atEnd) then return expression
  else giveUp (·.blame (.extraneous {.endOfInput}))

end PipeQuery.Grammar
