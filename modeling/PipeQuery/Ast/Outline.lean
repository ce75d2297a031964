import PipeQuery.Ast.SExpression

/-!
# Outlines

An outline lists the nodes of a statement from the top down and in source order, each with its depth
(`Statement.outline`). A run of connectives or of infix operators counts as one node whose children
are its operands, and so does a pipeline, whose children are its commands. Patterns, counts and
units of time are part of their node and have no entry of their own.

`Outline.prune` leaves out what lies below some of the nodes, and `Outline.leaves` reads off the
names and constants.
-/

namespace PipeQuery

/-- A node that has an entry in outlines. -/
inductive Node where
  /-- A statement. -/
  | statement (statement : Statement)
  /-- A pipeline. -/
  | query (query : Query)
  /-- A source command. -/
  | sourceCommand (command : SourceCommand)
  /-- A processing command. -/
  | processingCommand (command : ProcessingCommand)
  /-- A field of a command. -/
  | field (field : Field)
  /-- A condition. -/
  | boolean (expression : BooleanExpr)
  /-- A value. -/
  | value (expression : ValueExpr)
  /-- An arithmetic expression. -/
  | operator (expression : OperatorExpr)
  /-- A leaf of arithmetic. -/
  | primary (expression : PrimaryExpr)
  /-- An argument of an aggregate or predicate function. -/
  | fieldArgument (argument : FieldArgument)
  /-- An argument of a scalar function. -/
  | scalarArgument (argument : ScalarArgument)
  /-- A reference to a field. -/
  | qualifiedName (name : QualifiedName)
  /-- An identifier. -/
  | identifier (identifier : Identifier)
  /-- A constant. -/
  | constant (constant : Constant)

/-- What tells a node from others of its sort: a name, an s-expression, or nothing for the large
nodes. -/
def Node.label : Node → String
  | .statement _ | .query _ | .sourceCommand _ | .processingCommand _ => ""
  | .field f => f.sexpr
  | .boolean e => e.sexpr
  | .value e => e.sexpr
  | .operator e => e.sexpr
  | .primary e => e.sexpr
  | .fieldArgument a => a.sexpr
  | .scalarArgument a => a.sexpr
  | .qualifiedName q => q.name
  | .identifier i => i.name
  | .constant c => c.sexpr

/-- An entry of an outline. -/
structure OutlineEntry where
  /-- The number of entries that enclose this one. -/
  depth : Nat
  /-- The node. -/
  node : Node

/-- The nodes of a tree from the top down and in source order. -/
abbrev Outline : Type := List OutlineEntry

/-! ## Outlines of nodes

Each function puts the entries of a node, at a given depth, in front of the entries that follow it.
-/

/-- The entry of an identifier. -/
def Identifier.outline (depth : Nat) (i : Identifier) (rest : Outline) : Outline :=
  ⟨depth, .identifier i⟩ :: rest

/-- The entry of a constant. -/
def Constant.outline (depth : Nat) (c : Constant) (rest : Outline) : Outline :=
  ⟨depth, .constant c⟩ :: rest

/-- The entries of a reference. -/
def QualifiedName.outline (depth : Nat) (q : QualifiedName) (rest : Outline) : Outline :=
  ⟨depth, .qualifiedName q⟩ :: q.parts.foldr (Identifier.outline (depth + 1)) rest

/-- The entries of an argument. -/
def FieldArgument.outline (depth : Nat) (a : FieldArgument) (rest : Outline) : Outline :=
  ⟨depth, .fieldArgument a⟩ ::
    match a with
    | .field name => name.outline (depth + 1) rest
    | .string _ | .numeric _ => rest

mutual

/-- The entries of a condition. A `linked` condition is the left operand of a connective: if it is a
connective itself, it has no entry of its own. -/
def BooleanExpr.outline (linked : Bool) (depth : Nat) : BooleanExpr → Outline → Outline
  | .not operator operand span, rest =>
    ⟨depth, .boolean (.not operator operand span)⟩ :: operand.outline false (depth + 1) rest
  | .value v, rest => ⟨depth, .boolean (.value v)⟩ :: v.outline (depth + 1) rest
  | .connective op left operator right, rest =>
    if linked then left.outline true depth (right.outline false depth rest)
    else
      ⟨depth, .boolean (.connective op left operator right)⟩ ::
        left.outline true (depth + 1) (right.outline false (depth + 1) rest)
  | .isIn v negation items span, rest =>
    ⟨depth, .boolean (.isIn v negation items span)⟩ ::
      v.outline (depth + 1) (ValueExpr.outlines (depth + 1) items rest)
  | .isMatch v negation kind pattern span, rest =>
    ⟨depth, .boolean (.isMatch v negation kind pattern span)⟩ :: v.outline (depth + 1) rest
  | .predicate call, rest =>
    ⟨depth, .boolean (.predicate call)⟩ ::
      call.name.outline (depth + 1) (call.field.outline (depth + 1)
        (call.args.foldr (FieldArgument.outline (depth + 1)) rest))

/-- The entries of a value. -/
def ValueExpr.outline (depth : Nat) : ValueExpr → Outline → Outline
  | .operator o, rest => ⟨depth, .value (.operator o)⟩ :: o.outline false (depth + 1) rest
  | .comparison left op operator right, rest =>
    ⟨depth, .value (.comparison left op operator right)⟩ ::
      left.outline false (depth + 1) (right.outline false (depth + 1) rest)

/-- The entries of an arithmetic expression. A `linked` expression is the left operand of an infix
operator: if it has an infix operator itself, it has no entry of its own. -/
def OperatorExpr.outline (linked : Bool) (depth : Nat) : OperatorExpr → Outline → Outline
  | .primary p, rest => ⟨depth, .operator (.primary p)⟩ :: p.outline (depth + 1) rest
  | .aggregate name args span, rest =>
    ⟨depth, .operator (.aggregate name args span)⟩ ::
      name.outline (depth + 1) (args.foldr (FieldArgument.outline (depth + 1)) rest)
  | .scalar name args span, rest =>
    ⟨depth, .operator (.scalar name args span)⟩ ::
      name.outline (depth + 1) (ScalarArgument.outlines (depth + 1) args rest)
  | .signed sign operator operand span, rest =>
    ⟨depth, .operator (.signed sign operator operand span)⟩ ::
      operand.outline false (depth + 1) rest
  | .binary op operator left right, rest =>
    if linked then left.outline true depth (right.outline false depth rest)
    else
      ⟨depth, .operator (.binary op operator left right)⟩ ::
        left.outline true (depth + 1) (right.outline false (depth + 1) rest)

/-- The entries of a leaf. -/
def PrimaryExpr.outline (depth : Nat) : PrimaryExpr → Outline → Outline
  | .constant c, rest => ⟨depth, .primary (.constant c)⟩ :: c.outline (depth + 1) rest
  | .field name, rest => ⟨depth, .primary (.field name)⟩ :: name.outline (depth + 1) rest
  | .group inner span, rest =>
    ⟨depth, .primary (.group inner span)⟩ :: inner.outline false (depth + 1) rest
  | .call name args span, rest =>
    ⟨depth, .primary (.call name args span)⟩ ::
      name.outline (depth + 1) (BooleanExpr.outlines (depth + 1) args rest)

/-- The entries of an argument. -/
def ScalarArgument.outline (depth : Nat) : ScalarArgument → Outline → Outline
  | .value v, rest => ⟨depth, .scalarArgument (.value v)⟩ :: v.outline (depth + 1) rest
  | .timeSpan t, rest => ⟨depth, .scalarArgument (.timeSpan t)⟩ :: rest

/-- The entries of several conditions. -/
def BooleanExpr.outlines (depth : Nat) : List BooleanExpr → Outline → Outline
  | [], rest => rest
  | e :: es, rest => e.outline false depth (BooleanExpr.outlines depth es rest)

/-- The entries of several values. -/
def ValueExpr.outlines (depth : Nat) : List ValueExpr → Outline → Outline
  | [], rest => rest
  | e :: es, rest => e.outline depth (ValueExpr.outlines depth es rest)

/-- The entries of several arguments. -/
def ScalarArgument.outlines (depth : Nat) : List ScalarArgument → Outline → Outline
  | [], rest => rest
  | e :: es, rest => e.outline depth (ScalarArgument.outlines depth es rest)

end

/-- The entries of a field. -/
def Field.outline (depth : Nat) (f : Field) (rest : Outline) : Outline :=
  ⟨depth, .field f⟩ ::
    f.name.toList.foldr (Identifier.outline (depth + 1))
      (f.expression.outline false (depth + 1) rest)

/-- The entries of a renaming. -/
def RenameClause.outline (depth : Nat) (c : RenameClause) (rest : Outline) : Outline :=
  c.newName.outline depth (c.oldName.outline depth rest)

/-- The entries of a setting. -/
def CommandOption.outline (depth : Nat) (o : CommandOption) (rest : Outline) : Outline :=
  o.name.outline depth (o.value.outline depth rest)

/-- The entries of a field of a policy. -/
def EnrichClause.outline (depth : Nat) (c : EnrichClause) (rest : Outline) : Outline :=
  c.newName.toList.foldr (Identifier.outline depth) (c.field.outline depth rest)

/-- The entries of what a command asks for. -/
def ProcessingClause.outline (depth : Nat) (c : ProcessingClause) (rest : Outline) : Outline :=
  match c with
  | .eval fields => fields.foldr (Field.outline depth) rest
  | .limit _ => rest
  | .keep fields | .drop fields | .mvExpand fields | .grok fields _ =>
    fields.foldr (QualifiedName.outline depth) rest
  | .rename clauses => clauses.foldr (RenameClause.outline depth) rest
  | .dissect fields _ options =>
    fields.foldr (QualifiedName.outline depth)
      ((options.getD []).foldr (CommandOption.outline depth) rest)
  | .sort keys => keys.foldr (fun key => key.expression.outline false depth) rest
  | .stats fields grouping =>
    (fields.getD []).foldr (Field.outline depth)
      ((grouping.getD []).foldr (QualifiedName.outline depth) rest)
  | .filter condition => condition.outline false depth rest
  | .enrich policy matchField clauses =>
    policy.outline depth (matchField.toList.foldr (Identifier.outline depth)
      ((clauses.getD []).foldr (EnrichClause.outline depth) rest))

/-- The entries of a processing command. -/
def ProcessingCommand.outline (depth : Nat) (c : ProcessingCommand) (rest : Outline) : Outline :=
  ⟨depth, .processingCommand c⟩ ::
    match c with
    | .command _ clause _ => clause.outline (depth + 1) rest
    | .error _ => rest

mutual

/-- The entries of the commands of a pipeline. -/
def Query.commandOutline (depth : Nat) : Query → Outline → Outline
  | .source command, rest => command.outline depth rest
  | .pipe query _ command, rest => query.commandOutline depth (command.outline depth rest)

/-- The entries of a source command. -/
def SourceCommand.outline (depth : Nat) : SourceCommand → Outline → Outline
  | .command keyword clause span, rest =>
    ⟨depth, .sourceCommand (.command keyword clause span)⟩ :: clause.outline (depth + 1) rest
  | .error span, rest => ⟨depth, .sourceCommand (.error span)⟩ :: rest

/-- The entries of what a source command asks for. -/
def SourceClause.outline (depth : Nat) : SourceClause → Outline → Outline
  | .explain query, rest => ⟨depth, .query query⟩ :: query.commandOutline (depth + 1) rest
  | .indices sources, rest => sources.foldr (Identifier.outline depth) rest
  | .row fields, rest => fields.foldr (Field.outline depth) rest
  | .listing _, rest => rest

end

/-- The outline of a statement. -/
def Statement.outline (s : Statement) : Outline :=
  ⟨0, .statement s⟩ :: ⟨1, .query s.query⟩ :: s.query.commandOutline 2 []

namespace Outline

/-- Leaves out the entries below each node that `closed` accepts. -/
def prune (closed : Node → Bool) (outline : Outline) : Outline :=
  go none outline
where
  /-- Leaves out the entries deeper than `limit`, up to the first one that is not. -/
  go (limit : Option Nat) : Outline → Outline
    | [] => []
    | entry :: rest =>
      if limit.any (· < entry.depth) then go limit rest
      else entry :: go (if closed entry.node then some entry.depth else none) rest

/-- What the identifiers name and the constants as written, in source order. -/
def leaves (outline : Outline) : List String :=
  outline.filterMap fun entry =>
    match entry.node with
    | .identifier i => some i.name
    | .constant c => some c.text
    | _ => none

end Outline

end PipeQuery
