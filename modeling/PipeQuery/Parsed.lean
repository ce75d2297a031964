import PipeQuery.Grammar.Command
import PipeQuery.Lexer

/-!
# Reading queries

`parse` reads tokens as a statement. It always answers one, together with the diagnostics and with
the concrete tree: where the tokens are no statement, the stages that could not be read are errors.
`parseText` reads a text, and `parseExpression` reads a text that is a single expression.
-/

namespace PipeQuery

open Grammar

/-- What was read. -/
structure Parsed where
  /-- The statement. -/
  statement : Statement
  /-- The diagnostics, in the order of the reports. -/
  diagnostics : List Diagnostic
  /-- The concrete tree. -/
  tree : ConcreteTree
  /-- What has happened. -/
  events : List Event

namespace Parsed

/-- Whether there is nothing to report. -/
def isOk (p : Parsed) : Bool := p.diagnostics.isEmpty

/-- The statement, or the diagnostics if there are any. -/
def toExcept (p : Parsed) : Except (List Diagnostic) Statement :=
  if p.isOk then .ok p.statement else .error p.diagnostics

end Parsed

/-- Reads tokens as a statement. -/
def parse (tokens : List Token) (config : Config) : Parsed :=
  let (statement, s) := Grammar.statement config.maxDepth (.start config tokens)
  let (tree, misfits) := ConcreteTree.ofRegions tokens s.regions.toList
  { statement := statement
    diagnostics := s.diagnostics.toList
    tree := tree
    events := s.events.toList
      ++ .parsed tokens.length s.diagnostics.size s.regions.size :: misfits }

/-- A text is read without a diagnostic when the grammar leaves none behind. -/
theorem isOk_parse {tokens : List Token} {config : Config} :
    (parse tokens config).isOk = true ↔
      (Grammar.statement config.maxDepth (.start config tokens)).2.diagnostics = #[] := by
  simp [parse, Parsed.isOk]

/-- Reads a text as a statement. -/
def parseText (text : String) : Parsed := parse (tokenize text) {}

/-- What was read where an expression is asked for. -/
structure ParsedExpression where
  /-- The expression, or the diagnostics. -/
  result : Except (List Diagnostic) BooleanExpr
  /-- What has happened. -/
  events : List Event

/-- Reads a text as a single expression. The predicates of filters are not part of it. -/
def parseExpression (text : String) : ParsedExpression :=
  let config : Config := {}
  let (expression, s) :=
    (wholeExpression config.maxDepth).run (.start config (tokenizeFrom .expression text))
  { result :=
      match expression with
      | some e => if s.diagnostics.isEmpty then .ok e else .error s.diagnostics.toList
      | none => .error s.diagnostics.toList
    events := s.events.toList }

/-- A text is read as an expression when the grammar answers it and leaves no diagnostic behind. -/
theorem parseExpression_eq_ok_iff {text : String} {e : BooleanExpr} :
    (parseExpression text).result = .ok e ↔
      ∃ t, (wholeExpression ({} : Config).maxDepth).run (.start {} (tokenizeFrom .expression text))
        = (some e, t) ∧ t.diagnostics = #[] := by
  simp only [parseExpression]
  cases hrun : (wholeExpression ({} : Config).maxDepth).run
      (.start {} (tokenizeFrom .expression text)) with
  | mk o t =>
    cases o with
    | none => simp
    | some e' =>
      simp only [Prod.mk.injEq, Option.some.injEq, and_assoc, exists_and_left, exists_eq_left']
      by_cases hd : t.diagnostics = #[] <;> simp [hd]

end PipeQuery
