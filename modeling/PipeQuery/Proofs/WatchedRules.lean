import PipeQuery.Grammar.Command

/-!
# Watched rules

The rules of the grammar once more, with all that they change on the way (`Watched`). A rule enters
a scope and has to leave it again, and counts the expressions and queries that it stands in, up and
down (`nested`). Rules call each other: each call is put on a stack, with the number of tokens that
are left, and all the stacks that there ever were are taken down (`called`).

The rules for leaves call no rule that calls others, so they are taken over as they are (`lift`).
-/

namespace PipeQuery

namespace Grammar

open Rule

/-! ## Calls -/

/-- A rule that calls other ones. -/
inductive RuleName where
  /-- A leaf of arithmetic. -/
  | primary
  /-- An infix operator and its right operand. -/
  | operatorLink
  /-- A connective and its right operand. -/
  | connectiveLink
  /-- An operand of an infix operator. -/
  | operand
  /-- Arithmetic. -/
  | operator
  /-- An arithmetic expression or a comparison. -/
  | value
  /-- An argument of a scalar function. -/
  | scalarArgument
  /-- What tests a value. -/
  | test
  /-- An operand of a connective. -/
  | condition
  /-- A condition. -/
  | boolean
  /-- An expression with an optional name. -/
  | field
  /-- A sort key. -/
  | sortKey
  /-- Elements with separators between them. -/
  | list
  /-- Arguments in parentheses. -/
  | arguments
  /-- A source command. -/
  | sourceCommand
  /-- A processing command. -/
  | processingCommand
  /-- The first stage of a query. -/
  | sourceStage
  /-- A stage behind a pipe. -/
  | processingStage
  /-- A query. -/
  | query
  /-- A query in brackets. -/
  | subquery
deriving DecidableEq, Repr

/-- A rule that reads no token before it calls another one calls one of a lower rank. -/
def RuleName.rank : RuleName → Nat
  | primary | operatorLink | connectiveLink => 0
  | operand => 1
  | operator => 2
  | value => 3
  | scalarArgument | test => 4
  | condition => 5
  | boolean => 6
  | field | sortKey => 7
  | list => 8
  | arguments => 9
  | sourceCommand | processingCommand => 10
  | sourceStage | processingStage => 11
  | query => 12
  | subquery => 13

/-- A call of a rule. -/
structure Frame where
  /-- The rule. -/
  rule : RuleName
  /-- The number of tokens that are left when it is called. -/
  remaining : Nat
deriving DecidableEq, Repr

/-- A state along with what is watched. -/
structure Watch where
  /-- The state. -/
  state : State
  /-- The number of expressions and queries that are being read. -/
  depth : Nat
  /-- The calls that are being answered, the last one first. -/
  stack : List Frame
  /-- The stack behind each call that there was, the last one first. -/
  calls : List (List Frame)

namespace Watch

/-- The beginning of a text. -/
def start (config : Config) (tokens : List Token) : Watch := ⟨.start config tokens, 0, [], []⟩

/-- The number of expressions and queries that may still be nested. -/
def levels (w : Watch) : Nat := w.state.config.maxDepth - w.depth

/-- Puts the rules into another scope. -/
def rescope (f : Scope → Scope) (w : Watch) : Watch :=
  { w with state := { w.state with scope := f w.state.scope } }

end Watch

/-- A rule that is watched. -/
def Watched (α : Type) : Type := Watch → Option α × Watch

namespace Watched

instance : Monad Watched where
  pure a := fun w => (some a, w)
  bind x f := fun w =>
    match x w with
    | (some a, v) => f a v
    | (none, v) => (none, v)

variable {α β : Type}

theorem bind_of_some {x : Watched α} {g : α → Watched β} {w v : Watch} {a : α}
    (h : x w = (some a, v)) : (x >>= g) w = g a v := by
  simp only [Bind.bind, h]

theorem bind_of_none {x : Watched α} {g : α → Watched β} {w v : Watch}
    (h : x w = (none, v)) : (x >>= g) w = (none, v) := by
  simp only [Bind.bind, h]

/-- A rule that calls no others. -/
def lift (r : Rule α) : Watched α := fun w =>
  ((r.run w.state).1, { w with state := (r.run w.state).2 })

/-- Puts a call on the stack and takes it off again. -/
def called (rule : RuleName) (x : Watched α) : Watched α := fun w =>
  let stack := ⟨rule, w.state.stream.remaining⟩ :: w.stack
  let (a, v) := x { w with stack := stack, calls := stack :: w.calls }
  (a, { v with stack := v.stack.tail })

/-- Reads an expression or a query inside those that are being read, unless there are too many of
them. -/
def nested (x : Watched α) : Watched α := fun w =>
  if w.state.config.maxDepth ≤ w.depth then lift tooDeep w
  else
    let (a, v) := x { w with depth := w.depth + 1 }
    (a, { v with depth := v.depth - 1 })

/-- Enters a scope and leaves it again; how it is left may depend on the scope that there was. -/
def inside (enter : Scope → Scope) (leave : Scope → Scope → Scope) (x : Watched α) : Watched α :=
  fun w =>
    let (a, v) := x (w.rescope enter)
    (a, v.rescope (leave w.state.scope))

/-- Goes into the brackets of `EXPLAIN` and out of them again. -/
def enclosed : Watched α → Watched α :=
  inside (fun scope => { scope with subqueries := scope.subqueries + 1 })
    (fun _ scope => { scope with subqueries := scope.subqueries - 1 })

/-- Allows the predicates of filters, and then goes back to what was allowed before. -/
def filtering : Watched α → Watched α :=
  inside ({ · with predicates := true })
    (fun outer scope => { scope with predicates := outer.predicates })

/-- Reads a rule whose value takes the span of its tokens. -/
def spanned (x : Watched (Span → α)) : Watched α := do
  let start ← lift (ask (·.position))
  let f ← x
  lift (ask fun s => f (s.spanFrom start))

/-! ## Repetition -/

/-- Reads a rule at most `n` times, until it answers that there is no more. -/
def upTo (x : Watched (Option α)) : Nat → List α → Watched (List α)
  | 0, values => pure values.reverse
  | n + 1, values => do
    match ← x with
    | some a => upTo x n (a :: values)
    | none => return values.reverse

/-- Reads a rule until it answers that there is no more. -/
def many (x : Watched (Option α)) : Watched (List α) := fun w =>
  upTo x w.state.stream.remaining [] w

/-- Reads a rule behind a token of a kind, if there is one. -/
def behind (kind : Kind) (x : Watched α) : Watched (Option α) := do
  match ← lift (accept kind) with
  | some _ => return some (← x)
  | none => return none

/-- Reads a rule once and then behind each token of a kind. -/
def separated (kind : Kind) (x : Watched α) : Watched (List α) := called .list do
  let first ← x
  return first :: (← many (behind kind x))

/-- Reads a rule in parentheses, and then closes them. -/
def parenthesised (x : Watched α) : Watched α := do
  let _ ← lift (expect .leftParen)
  let a ← x
  let _ ← lift (expect .rightParen)
  return a

/-- Reads a list of arguments, which may be empty. -/
def arguments (x : Watched α) : Watched (List α) := called .arguments <| parenthesised do
  if ← lift (at? .rightParen) then return [] else separated .comma x

/-! ## Expressions -/

/-- Passes over a `NOT`, whatever stands behind it. -/
def passNegation : Rule (Option Token) := do
  if ← at? .kwNot then
    let token ← ask (·.current)
    change (·.skip)
    return some token
  else return none

/-- The `NOT` in front of a word that tests a value. It is passed over on trial: where no such word
follows, the rule goes back in front of it. -/
def trialNegation : Rule (Option Token) := do
  let mark ← ask (·.stream.mark)
  let token ← passNegation
  if ← atAny? testWords then return token
  else
    change fun s => { s with stream := s.stream.reset mark }
    return none

/-- To go back is as good as not to go on. -/
theorem trialNegation_eq : trialNegation = testNegation := by
  funext s
  have hreset : { s.skip with stream := s.skip.stream.reset s.stream.mark } = s := by
    obtain ⟨config, scope, stream⟩ := s
    simp only [State.skip, TokenStream.next, TokenStream.reset, TokenStream.mark]
    split <;> rfl
  have hskip : s.skip.kind = s.kindAfter := by
    rw [State.kindAfter, TokenStream.lookahead_succ]
    rfl
  change Rule.run trialNegation s = Rule.run testNegation s
  unfold trialNegation passNegation testNegation at? atAny?
  by_cases hk : s.kind = .kwNot
  · by_cases hw : s.kindAfter ∈ testWords
    · simp [-bind_pure_comp, run_bind, hk, hskip, hw]
    · simpa [-bind_pure_comp, run_bind, hk, hskip, hw] using hreset
  · by_cases hw : s.kind ∈ testWords
    · simp [-bind_pure_comp, run_bind, hk, hw]
    · simp [-bind_pure_comp, run_bind, hk, hw]

/-- The rules for expressions. -/
structure Expressions where
  /-- Conditions whose chain is read at a given power. -/
  boolean : Nat → Watched BooleanExpr
  /-- Arithmetic whose chain is read at a given power. -/
  operator : Nat → Watched OperatorExpr

/-- A value: an arithmetic expression or a comparison of two. -/
def value (inner : Expressions) : Watched ValueExpr := called .value do
  let left ← inner.operator 0
  if ← lift (at? .comparison) then
    let operator ← lift take
    match ComparisonOp.ofText? operator.text with
    | some op => return .comparison left op operator (← inner.operator 0)
    | none => lift (giveUp (·.report ⟨.mismatched {.comparison}, operator⟩))
  else return .operator left

/-- An argument of a scalar function. -/
def scalarArgument (inner : Expressions) : Watched ScalarArgument := called .scalarArgument do
  if (← lift (atAny? numbers)) && (← lift (before? .dateUnit)) then
    return .timeSpan (← lift timeSpan)
  else return .value (← value inner)

/-- A leaf of arithmetic. -/
def primary (inner : Expressions) : Watched PrimaryExpr := called .primary do
  let kind ← lift (ask (·.kind))
  if kind ∈ constantStart then return .constant (← lift constant)
  else if kind = .leftParen then spanned do
    return .group (← parenthesised (inner.boolean 0))
  else if kind ∈ plainNames then
    if ← lift (before? .leftParen) then spanned do
      return .call (← lift plainIdentifier) (← arguments (inner.boolean 0))
    else return .field (← lift qualifiedName)
  else lift do noViable (← ask (·.position)) primaryStart

/-- An operand of an infix operator. -/
def operand (inner : Expressions) : Watched OperatorExpr := called .operand do
  let kind ← lift (ask (·.kind))
  match Sign.ofKind? kind with
  | some sign => spanned do
    let operator ← lift take
    return .signed sign operator (← inner.operator Sign.power)
  | none =>
    if kind = .aggregateFunction then spanned do
      return .aggregate (← lift takeIdentifier) (← arguments (lift fieldArgument))
    else if kind = .scalarFunction then spanned do
      return .scalar (← lift takeIdentifier) (← arguments (scalarArgument inner))
    else if kind ∈ primaryStart then return .primary (← primary inner)
    else lift do noViable (← ask (·.position)) operatorStart

/-- An operator and its right operand, if the operator joins a chain that is read at `power`. -/
def linkOf {O T : Type} (ofKind? : Kind → Option O) (leftPower : O → Nat) (right : O → Watched T)
    (power : Nat) : Watched (Option (ChainLink O T)) := do
  match ofKind? (← lift (ask (·.kind))) with
  | some op =>
    if leftPower op < power then return none
    else
      let operator ← lift take
      return some ⟨op, operator, ← right op⟩
  | none => return none

/-- An infix operator and its right operand. -/
def operatorLink (inner : Expressions) (power : Nat) :
    Watched (Option (ChainLink ArithmeticOp OperatorExpr)) := called .operatorLink <|
  linkOf ArithmeticOp.ofKind? ArithmeticOp.leftPower (fun op => inner.operator op.rightPower) power

/-- A chain of infix operators. -/
def operatorChain (inner : Expressions) (power : Nat) : Watched OperatorExpr := do
  let first ← operand inner
  return .ofChain first (← many (operatorLink inner power))

/-- A value, or a test of it by `IN`, `LIKE` or `RLIKE`. -/
def test (inner : Expressions) (start : Nat) (tested : ValueExpr) : Watched BooleanExpr :=
  called .test do
    let negation ← lift trialNegation
    let kind ← lift (ask (·.kind))
    if kind = .kwIn then
      let _ ← lift take
      let items ← parenthesised (separated .comma (value inner))
      lift (ask fun s => .isIn tested negation items (s.spanFrom start))
    else
      match PatternKind.ofKind? kind with
      | some pattern =>
        let _ ← lift take
        let literal ← lift string
        lift (ask fun s => .isMatch tested negation pattern literal (s.spanFrom start))
      | none => return .value tested

/-- An operand of a connective. -/
def condition (inner : Expressions) : Watched BooleanExpr := called .condition do
  let kind ← lift (ask (·.kind))
  let scope ← lift (ask (·.scope))
  if kind = .kwNot then spanned do
    let operator ← lift take
    return .not operator (← inner.boolean Connective.notPower)
  else if kind = .predicateFunction && scope.predicates then
    return .predicate (← lift predicateCall)
  else if kind ∈ operatorStart then
    let start ← lift (ask (·.position))
    let tested ← value inner
    if scope.predicates then test inner start tested else return .value tested
  else lift do noViable (← ask (·.position)) scope.booleanStart

/-- A connective and its right operand. -/
def connectiveLink (inner : Expressions) (power : Nat) :
    Watched (Option (ChainLink Connective BooleanExpr)) := called .connectiveLink <|
  linkOf Connective.ofKind? Connective.leftPower (fun op => inner.boolean op.rightPower) power

/-- A chain of connectives. -/
def connectiveChain (inner : Expressions) (power : Nat) : Watched BooleanExpr := do
  let first ← condition inner
  return .ofChain first (← many (connectiveLink inner power))

/-- The rules for expressions that nest at most a given number of levels deep. What is nested is
counted all the same: where no level is left, `nested` gives up. -/
def expressions : Nat → Expressions
  | 0 => ⟨fun _ => called .boolean (nested (lift tooDeep)),
      fun _ => called .operator (nested (lift tooDeep))⟩
  | n + 1 =>
    ⟨fun power => called .boolean (nested (connectiveChain (expressions n) power)),
     fun power => called .operator (nested (operatorChain (expressions n) power))⟩

/-- An expression that is the whole input. -/
def wholeExpression (levels : Nat) : Watched BooleanExpr := do
  let expression ← (expressions levels).boolean 0
  if ← lift (ask (·.stream.atEnd)) then return expression
  else lift (giveUp (·.blame (.extraneous {.endOfInput})))

/-! ## Commands -/

/-- An expression with an optional name. -/
def field (inner : Expressions) : Watched Field := called .field <| spanned do
  let name ← lift (assigned? plainNames)
  return Field.mk name (← inner.boolean 0)

/-- Expressions with optional names. -/
def fields (inner : Expressions) : Watched (List Field) := separated .comma (field inner)

/-- A sort key. -/
def sortKey (inner : Expressions) : Watched SortKey := called .sortKey <| spanned do
  let expression ← inner.boolean 0
  let order ← lift (accept .ordering)
  let nulls ← lift (Grammar.behind .kwNulls (expect .nullsDirection))
  return SortKey.mk expression (order.map (SortOrder.ofText ·.text))
    (nulls.bind (NullsOrder.ofText? ·.text))

/-- The rule for what stands behind the keyword of a processing command. -/
def processingClause? (inner : Expressions) : Kind → Option (Watched ProcessingClause)
  | .kwEval => some do return .eval (← fields inner)
  | .kwLimit => some do return .limit (← lift integer)
  | .kwKeep | .kwProject => some do return .keep (← lift qualifiedNames)
  | .kwRename => some do return .rename (← separated .comma (lift renameClause))
  | .kwDrop => some do return .drop (← lift qualifiedNames)
  | .kwDissect => some do
    let names ← lift qualifiedNames
    let pattern ← lift string
    if ← lift (atAny? plainNames) then
      return .dissect names pattern (some (← separated .comma (lift commandOption)))
    else return .dissect names pattern none
  | .kwGrok => some do return .grok (← lift qualifiedNames) (← lift string)
  | .kwSort => some do return .sort (← separated .comma (sortKey inner))
  | .kwStats => some do
    let aggregates ← if ← lift (atAny? booleanStart) then some <$> fields inner else pure none
    return .stats aggregates (← lift (Grammar.behind .kwBy qualifiedNames))
  | .kwWhere => some do return .filter (← filtering (inner.boolean 0))
  | .kwMvExpand => some do return .mvExpand (← lift qualifiedNames)
  | .kwEnrich => some do
    let policy ← lift (identifierOf enrichNames)
    let matchField ← lift (Grammar.behind .kwOn (identifierOf enrichNames))
    let clauses ← behind .kwWith (separated .comma (lift enrichClause))
    return .enrich policy matchField clauses
  | _ => none

/-- A processing command. -/
def processingCommand (inner : Expressions) : Watched ProcessingCommand :=
  called .processingCommand <| spanned do
    lift (change fun s => s.note (.processingCommand s.current))
    match processingClause? inner (← lift (ask (·.kind))) with
    | some clause =>
      let keyword ← lift take
      return .command keyword (← clause)
    | none => lift do noViable (← ask (·.position)) processingKeywords

/-- A query in brackets. -/
def subquery (query : Watched Query) : Watched Query := called .subquery do
  let start ← lift (ask (·.position))
  let _ ← lift (expect .leftBracket)
  let inner ← nested (enclosed query)
  let _ ← lift (expect .rightBracket)
  lift (change fun s => s.record .subquery (s.spanFrom start))
  return inner

/-- A source command. -/
def sourceCommand (inner : Expressions) (query : Watched Query) : Watched SourceCommand :=
  called .sourceCommand <| spanned do
    lift (change fun s => s.note (.sourceCommand s.current))
    let start ← lift (ask (·.position))
    match ← lift (ask (·.kind)) with
    | .kwExplain =>
      let keyword ← lift take
      return .command keyword (.explain (← subquery query))
    | .kwFrom =>
      let keyword ← lift take
      return .command keyword (.indices (← separated .comma (lift (identifierOf sourceNames))))
    | .kwRow =>
      let keyword ← lift take
      return .command keyword (.row (← fields inner))
    | .kwShow =>
      match ShowTarget.ofKind? (← lift (ask (·.kindAfter))) with
      | some target =>
        let keyword ← lift take
        let _ ← lift take
        return .command keyword (.listing target)
      | none =>
        lift (change (·.skip))
        lift (noViable start showTargets)
    | _ => lift (noViable start sourceKeywords)

/-! ## Queries -/

/-- Reads a command; where it gives up, the stage becomes an error. -/
def stage (x : Watched α) (kind : Kind) (span : α → Span) (error : Span → α) : Watched α := fun w =>
  match x w with
  | (some command, v) => (some command, { v with state := v.state.record kind (span command) })
  | (none, v) =>
    let (skipped, t) := v.state.resync w.state.position
    (some (error skipped), { v with state := t })

/-- Reads the first stage of a query. -/
def sourceStage (inner : Expressions) (query : Watched Query) : Watched SourceCommand :=
  called .sourceStage
    (stage (sourceCommand inner query) .sourceCommand SourceCommand.span .error)

/-- Reads a stage behind a pipe. -/
def processingStage (inner : Expressions) : Watched ProcessingCommand :=
  called .processingStage
    (stage (processingCommand inner) .processingCommand ProcessingCommand.span .error)

/-- Reads at most `n` stages, each behind its pipe, up to the end of the query. -/
def stagesUpTo (inner : Expressions) :
    Nat → List (Token × ProcessingCommand) → Watched (List (Token × ProcessingCommand))
  | 0, stages => pure stages.reverse
  | n + 1, stages => do
    if ← lift (at? .pipe) then
      let bar ← lift take
      let command ← processingStage inner
      stagesUpTo inner n ((bar, command) :: stages)
    else if ← lift (ask (·.atBoundary)) then return stages.reverse
    else
      lift (change (·.skipExtraneous))
      stagesUpTo inner n stages

/-- Reads a query up to the end of the input, or to the bracket that closes it. -/
def pipeline (inner : Expressions) (query : Watched Query) : Watched Query := do
  let first ← sourceStage inner query
  let stages ← fun w => stagesUpTo inner w.state.stream.remaining [] w
  return .ofStages first stages

/-- Reads a query that nests at most a given number of levels deep. Where no level is left, `nested`
gives up in the brackets. -/
def query : Nat → Watched Query
  | 0 => called .query (pipeline (expressions 0) (lift tooDeep))
  | n + 1 => called .query (pipeline (expressions (n + 1)) (query n))

/-- The rule for a query in brackets, if queries nest at most a given number of levels deep. -/
def innerQuery : Nat → Watched Query
  | 0 => lift tooDeep
  | n + 1 => query n

theorem query_eq (n : Nat) :
    query n = called .query (pipeline (expressions n) (innerQuery n)) := by
  cases n <;> rfl

/-- Reads a query and the end of the input. -/
def statement (levels : Nat) : Watched Statement := do
  let q ← query levels
  lift (ask fun t => ⟨q, t.current, ⟨0, min (t.position + 1) t.stream.tokens.length⟩⟩)

end Watched

end Grammar

end PipeQuery
