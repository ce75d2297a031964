import PipeQuery.Ast.SExpression

/-!
# Printing by loops

A chain of connectives or infix operators, and a pipeline, nests along its left edge as deeply as
it is long. The printers of this module take every chain apart and write it in one pass over its
links, so that they go only as deep as the other operands nest. `leftNested` opens all the forms of
a chain first, the outermost one in front, and closes them one by one; `infixText` writes the
operands one behind the other.
-/

namespace PipeQuery

/-! ## One pass over the links -/

/-- The s-expression of a chain in one pass: the heads of the forms, that of the last link in front,
then the first operand, and then each further operand with the bracket that closes its form. -/
def leftNested (first : String) (rest : List (String × String)) : String :=
  let heads := rest.reverse.foldl (fun out link => out ++ "(" ++ link.1 ++ " ") ""
  rest.foldl (fun out link => out ++ " " ++ link.2 ++ ")") (heads ++ first)

/-- The text of a chain in one pass: the first operand, and then each operator with the operand
behind it. -/
def infixText (first : String) (rest : List (String × String)) : String :=
  rest.foldl (fun out link => out ++ " " ++ link.1 ++ " " ++ link.2) first

/-! ## S-expressions -/

mutual

/-- A condition as an s-expression, written by loops. -/
def BooleanExpr.loopSexpr : BooleanExpr → String
  | .not _ operand _ => form "not" [operand.loopSexpr]
  | .value v => v.loopSexpr
  | .connective op left token right =>
    leftNested (BooleanExpr.connective op left token right).leftChain.1.loopSexpr
      ((BooleanExpr.connective op left token right).leftChain.2.attach.map fun link =>
        (link.1.op.tag, link.1.right.loopSexpr))
  | .isIn v negation items _ =>
    form (testTag negation "in") (v.loopSexpr :: items.map fun item => item.loopSexpr)
  | .isMatch v negation kind pattern _ => form₂ (testTag negation kind.tag) v.loopSexpr pattern.raw
  | .predicate call => call.sexpr
termination_by e => sizeOf e
decreasing_by
  any_goals decreasing_tactic
  · exact BooleanExpr.sizeOf_first_lt ..
  · exact BooleanExpr.sizeOf_right_lt link.2

/-- A value as an s-expression, written by loops. -/
def ValueExpr.loopSexpr : ValueExpr → String
  | .operator o => o.loopSexpr
  | .comparison left op _ right => form₂ op.symbol left.loopSexpr right.loopSexpr
termination_by v => sizeOf v

/-- An arithmetic expression as an s-expression, written by loops. -/
def OperatorExpr.loopSexpr : OperatorExpr → String
  | .primary p => p.loopSexpr
  | .aggregate name args _ => callForm name (args.map FieldArgument.sexpr)
  | .scalar name args _ => callForm name (args.map fun a => a.loopSexpr)
  | .signed sign _ operand _ => form sign.symbol [operand.loopSexpr]
  | .binary op token left right =>
    leftNested (OperatorExpr.binary op token left right).leftChain.1.loopSexpr
      ((OperatorExpr.binary op token left right).leftChain.2.attach.map fun link =>
        (link.1.op.symbol, link.1.right.loopSexpr))
termination_by o => sizeOf o
decreasing_by
  any_goals decreasing_tactic
  · exact OperatorExpr.sizeOf_first_lt ..
  · exact OperatorExpr.sizeOf_right_lt link.2

/-- A leaf as an s-expression, written by loops. -/
def PrimaryExpr.loopSexpr : PrimaryExpr → String
  | .constant c => c.sexpr
  | .field name => name.text
  | .group inner _ => form "group" [inner.loopSexpr]
  | .call name args _ => callForm name (args.map fun e => e.loopSexpr)
termination_by p => sizeOf p

/-- An argument as an s-expression, written by loops. -/
def ScalarArgument.loopSexpr : ScalarArgument → String
  | .value v => v.loopSexpr
  | .timeSpan t => t.sexpr
termination_by a => sizeOf a

end

/-- A chain is written in one pass over its links. -/
theorem BooleanExpr.loopSexpr_connective (op : Connective) (left : BooleanExpr) (token : Token)
    (right : BooleanExpr) : (connective op left token right).loopSexpr
      = leftNested (connective op left token right).leftChain.1.loopSexpr
          ((connective op left token right).leftChain.2.map fun link =>
            (link.op.tag, link.right.loopSexpr)) := by
  rw [loopSexpr]
  exact congrArg (leftNested _) (List.attach_map_val
    (f := fun link : ChainLink Connective BooleanExpr => (link.op.tag, link.right.loopSexpr)))

theorem OperatorExpr.loopSexpr_binary (op : ArithmeticOp) (token : Token)
    (left right : OperatorExpr) : (binary op token left right).loopSexpr
      = leftNested (binary op token left right).leftChain.1.loopSexpr
          ((binary op token left right).leftChain.2.map fun link =>
            (link.op.symbol, link.right.loopSexpr)) := by
  rw [loopSexpr]
  exact congrArg (leftNested _) (List.attach_map_val
    (f := fun link : ChainLink ArithmeticOp OperatorExpr => (link.op.symbol, link.right.loopSexpr)))

mutual

/-- A pipeline as an s-expression, written by loops. -/
def Query.loopSexpr (q : Query) : String :=
  leftNested q.sourceCommand.loopSexpr
    (q.processingCommands.map fun command => ("pipe", command.sexprWith BooleanExpr.loopSexpr))
termination_by sizeOf q
decreasing_by exact q.sizeOf_sourceCommand_lt

/-- A source command as an s-expression, written by loops. -/
def SourceCommand.loopSexpr : SourceCommand → String
  | .command _ clause _ => clause.loopSexpr
  | .error _ => form "error" []
termination_by command => sizeOf command

/-- What a source command asks for as an s-expression, written by loops. -/
def SourceClause.loopSexpr : SourceClause → String
  | .explain query => form "explain" [query.loopSexpr]
  | .indices sources => form "from" (sources.map Identifier.raw)
  | .row fields => form "row" (fields.map (Field.sexprWith BooleanExpr.loopSexpr))
  | .listing target => form "show" [target.tag]
termination_by clause => sizeOf clause

end

/-! ## Query text -/

mutual

/-- A condition as query text, written by loops. -/
def BooleanExpr.loopText : BooleanExpr → String
  | .not _ operand _ => "NOT " ++ operand.loopText
  | .value v => v.loopText
  | .connective op left token right =>
    infixText (BooleanExpr.connective op left token right).leftChain.1.loopText
      ((BooleanExpr.connective op left token right).leftChain.2.attach.map fun link =>
        (link.1.op.keyword, link.1.right.loopText))
  | .isIn v negation items _ =>
    v.loopText ++ negationText negation ++ " IN ("
      ++ commaSeparated (items.map fun item => item.loopText) ++ ")"
  | .isMatch v negation kind pattern _ =>
    v.loopText ++ negationText negation ++ " " ++ kind.keyword ++ " " ++ pattern.raw
  | .predicate call => call.text
termination_by e => sizeOf e
decreasing_by
  any_goals decreasing_tactic
  · exact BooleanExpr.sizeOf_first_lt ..
  · exact BooleanExpr.sizeOf_right_lt link.2

/-- A value as query text, written by loops. -/
def ValueExpr.loopText : ValueExpr → String
  | .operator o => o.loopText
  | .comparison left op _ right => left.loopText ++ " " ++ op.symbol ++ " " ++ right.loopText
termination_by v => sizeOf v

/-- An arithmetic expression as query text, written by loops. -/
def OperatorExpr.loopText : OperatorExpr → String
  | .primary p => p.loopText
  | .aggregate name args _ => callText name (args.map FieldArgument.text)
  | .scalar name args _ => callText name (args.map fun a => a.loopText)
  | .signed sign _ operand _ => sign.symbol ++ operand.loopText
  | .binary op token left right =>
    infixText (OperatorExpr.binary op token left right).leftChain.1.loopText
      ((OperatorExpr.binary op token left right).leftChain.2.attach.map fun link =>
        (link.1.op.symbol, link.1.right.loopText))
termination_by o => sizeOf o
decreasing_by
  any_goals decreasing_tactic
  · exact OperatorExpr.sizeOf_first_lt ..
  · exact OperatorExpr.sizeOf_right_lt link.2

/-- A leaf as query text, written by loops. -/
def PrimaryExpr.loopText : PrimaryExpr → String
  | .constant c => c.text
  | .field name => name.text
  | .group inner _ => "(" ++ inner.loopText ++ ")"
  | .call name args _ => callText name (args.map fun e => e.loopText)
termination_by p => sizeOf p

/-- An argument as query text, written by loops. -/
def ScalarArgument.loopText : ScalarArgument → String
  | .value v => v.loopText
  | .timeSpan t => t.text
termination_by a => sizeOf a

end

/-- A chain is written in one pass over its links. -/
theorem BooleanExpr.loopText_connective (op : Connective) (left : BooleanExpr) (token : Token)
    (right : BooleanExpr) : (connective op left token right).loopText
      = infixText (connective op left token right).leftChain.1.loopText
          ((connective op left token right).leftChain.2.map fun link =>
            (link.op.keyword, link.right.loopText)) := by
  rw [loopText]
  exact congrArg (infixText _) (List.attach_map_val
    (f := fun link : ChainLink Connective BooleanExpr => (link.op.keyword, link.right.loopText)))

theorem OperatorExpr.loopText_binary (op : ArithmeticOp) (token : Token)
    (left right : OperatorExpr) : (binary op token left right).loopText
      = infixText (binary op token left right).leftChain.1.loopText
          ((binary op token left right).leftChain.2.map fun link =>
            (link.op.symbol, link.right.loopText)) := by
  rw [loopText]
  exact congrArg (infixText _) (List.attach_map_val
    (f := fun link : ChainLink ArithmeticOp OperatorExpr => (link.op.symbol, link.right.loopText)))

mutual

/-- A pipeline as query text, written by loops. -/
def Query.loopText (q : Query) : String :=
  infixText q.sourceCommand.loopText
    (q.processingCommands.map fun command => ("|", command.textWith BooleanExpr.loopText))
termination_by sizeOf q
decreasing_by exact q.sizeOf_sourceCommand_lt

/-- A source command as query text, written by loops. -/
def SourceCommand.loopText : SourceCommand → String
  | .command _ clause _ => clause.loopText
  | .error _ => "<error>"
termination_by command => sizeOf command

/-- What a source command asks for as query text, written by loops. -/
def SourceClause.loopText : SourceClause → String
  | .explain query => "EXPLAIN [ " ++ query.loopText ++ " ]"
  | .indices sources => "FROM " ++ commaSeparated (sources.map Identifier.raw)
  | .row fields => "ROW " ++ commaSeparated (fields.map (Field.textWith BooleanExpr.loopText))
  | .listing target => "SHOW " ++ target.keyword
termination_by clause => sizeOf clause

end

end PipeQuery
