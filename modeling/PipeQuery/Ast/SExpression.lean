import PipeQuery.Ast.Text

/-!
# S-expressions

`Statement.sexpr` writes the structure of a statement: names, numbers and strings appear as written,
and every other node is a form in parentheses, headed by a tag in lower case.
-/

namespace PipeQuery

/-- A form: its head and its items in parentheses. -/
def form (head : String) (items : List String) : String :=
  "(" ++ " ".intercalate (head :: items) ++ ")"

/-- A form with two items. -/
def form₂ (head left right : String) : String := "(" ++ head ++ " " ++ left ++ " " ++ right ++ ")"

/-- A constant as an s-expression. -/
def Constant.sexpr : Constant → String
  | .null _ => "null"
  | .numeric n => n.raw
  | .boolean b => b.text
  | .string s => s.raw
  | .numericArray values _ => form "list" (values.map NumericValue.raw)
  | .booleanArray values _ => form "list" (values.map BooleanValue.text)
  | .stringArray values _ => form "list" (values.map StringLiteral.raw)

/-- An argument as an s-expression. -/
def FieldArgument.sexpr : FieldArgument → String
  | .field name => name.text
  | .string s => s.raw
  | .numeric n => n.raw

/-- A length of time as an s-expression. -/
def TimeSpan.sexpr (t : TimeSpan) : String := form₂ "span" t.value.raw t.unit

/-- A call as an s-expression. -/
def callForm (name : Identifier) (args : List String) : String := form "call" (name.raw :: args)

/-- A call of a predicate function as an s-expression. -/
def PredicateCall.sexpr (c : PredicateCall) : String :=
  form "where_fn" (c.name.raw :: c.field.text :: c.args.map FieldArgument.sexpr)

/-- The tag of a connective. -/
def Connective.tag : Connective → String
  | .and => "and"
  | .or => "or"

/-- The tag of a pattern match. -/
def PatternKind.tag : PatternKind → String
  | .like => "like"
  | .rlike => "rlike"

/-- The tag of a test, which says whether the test is turned round. -/
def testTag (negation : Option Token) (tag : String) : String :=
  if negation.isSome then "not_" ++ tag else tag

mutual

/-- A condition as an s-expression. -/
def BooleanExpr.sexpr : BooleanExpr → String
  | .not _ operand _ => form "not" [operand.sexpr]
  | .value v => v.sexpr
  | .connective op left _ right => form₂ op.tag left.sexpr right.sexpr
  | .isIn v negation items _ => form (testTag negation "in") (v.sexpr :: ValueExpr.sexprs items)
  | .isMatch v negation kind pattern _ => form₂ (testTag negation kind.tag) v.sexpr pattern.raw
  | .predicate call => call.sexpr

/-- A value as an s-expression. -/
def ValueExpr.sexpr : ValueExpr → String
  | .operator o => o.sexpr
  | .comparison left op _ right => form₂ op.symbol left.sexpr right.sexpr

/-- An arithmetic expression as an s-expression. -/
def OperatorExpr.sexpr : OperatorExpr → String
  | .primary p => p.sexpr
  | .aggregate name args _ => callForm name (args.map FieldArgument.sexpr)
  | .scalar name args _ => callForm name (ScalarArgument.sexprs args)
  | .signed sign _ operand _ => form sign.symbol [operand.sexpr]
  | .binary op _ left right => form₂ op.symbol left.sexpr right.sexpr

/-- A leaf as an s-expression. -/
def PrimaryExpr.sexpr : PrimaryExpr → String
  | .constant c => c.sexpr
  | .field name => name.text
  | .group inner _ => form "group" [inner.sexpr]
  | .call name args _ => callForm name (BooleanExpr.sexprs args)

/-- An argument as an s-expression. -/
def ScalarArgument.sexpr : ScalarArgument → String
  | .value v => v.sexpr
  | .timeSpan t => t.sexpr

/-- Conditions as s-expressions. -/
def BooleanExpr.sexprs : List BooleanExpr → List String
  | [] => []
  | e :: es => e.sexpr :: BooleanExpr.sexprs es

/-- Values as s-expressions. -/
def ValueExpr.sexprs : List ValueExpr → List String
  | [] => []
  | e :: es => e.sexpr :: ValueExpr.sexprs es

/-- Arguments as s-expressions. -/
def ScalarArgument.sexprs : List ScalarArgument → List String
  | [] => []
  | e :: es => e.sexpr :: ScalarArgument.sexprs es

end

@[simp] theorem BooleanExpr.sexprs_eq (es : List BooleanExpr) :
    BooleanExpr.sexprs es = es.map BooleanExpr.sexpr := by
  induction es with
  | nil => simp [BooleanExpr.sexprs]
  | cons e es ih => simp [BooleanExpr.sexprs, ih]

@[simp] theorem ValueExpr.sexprs_eq (es : List ValueExpr) :
    ValueExpr.sexprs es = es.map ValueExpr.sexpr := by
  induction es with
  | nil => simp [ValueExpr.sexprs]
  | cons e es ih => simp [ValueExpr.sexprs, ih]

@[simp] theorem ScalarArgument.sexprs_eq (es : List ScalarArgument) :
    ScalarArgument.sexprs es = es.map ScalarArgument.sexpr := by
  induction es with
  | nil => simp [ScalarArgument.sexprs]
  | cons e es ih => simp [ScalarArgument.sexprs, ih]

/-- A name and what it is given, or the latter alone, as an s-expression. -/
def assignedForm (name : Option Identifier) (item : String) : String :=
  match name with
  | some name => form₂ "=" name.raw item
  | none => item

/-- A field as an s-expression whose conditions are written by `write`. -/
def Field.sexprWith (write : BooleanExpr → String) (f : Field) : String :=
  assignedForm f.name (write f.expression)

/-- A field as an s-expression. -/
def Field.sexpr : Field → String := Field.sexprWith BooleanExpr.sexpr

/-- A renaming as an s-expression. -/
def RenameClause.sexpr (c : RenameClause) : String := assignedForm c.newName c.oldName.text

/-- A setting as an s-expression. -/
def CommandOption.sexpr (o : CommandOption) : String := assignedForm o.name o.value.sexpr

/-- A field of a policy as an s-expression. -/
def EnrichClause.sexpr (c : EnrichClause) : String := assignedForm c.newName c.field.raw

/-- The tag of a direction. -/
def SortOrder.tag : SortOrder → String
  | .asc => "asc"
  | .desc => "desc"

/-- The tag of the place of missing values. -/
def NullsOrder.tag : NullsOrder → String
  | .first => "nulls_first"
  | .last => "nulls_last"

/-- A sort key as an s-expression whose conditions are written by `write`; without modifiers it is
the expression alone. -/
def SortKey.sexprWith (write : BooleanExpr → String) (k : SortKey) : String :=
  match (k.order.map SortOrder.tag).toList ++ (k.nulls.map NullsOrder.tag).toList with
  | [] => write k.expression
  | tags => form "order" (write k.expression :: tags)

/-- A sort key as an s-expression. -/
def SortKey.sexpr : SortKey → String := SortKey.sexprWith BooleanExpr.sexpr

/-- The tag of a listing. -/
def ShowTarget.tag : ShowTarget → String
  | .info => "info"
  | .functions => "functions"

/-- What a command asks for as an s-expression whose conditions are written by `write`. -/
def ProcessingClause.sexprWith (write : BooleanExpr → String) : ProcessingClause → String
  | .eval fields => form "eval" (fields.map (Field.sexprWith write))
  | .limit count => form "limit" [count.raw]
  | .keep fields => form "keep" (fields.map QualifiedName.text)
  | .rename clauses => form "rename" (clauses.map RenameClause.sexpr)
  | .drop fields => form "drop" (fields.map QualifiedName.text)
  | .dissect fields pattern options =>
    form "dissect" (fields.map QualifiedName.text ++ pattern.raw
      :: (options.getD []).map CommandOption.sexpr)
  | .grok fields pattern => form "grok" (fields.map QualifiedName.text ++ [pattern.raw])
  | .sort keys => form "sort" (keys.map (SortKey.sexprWith write))
  | .stats fields grouping =>
    form "stats"
      ((fields.map fun fields => form "fields" (fields.map (Field.sexprWith write))).toList
      ++ (grouping.map fun names => form "by" (names.map QualifiedName.text)).toList)
  | .filter condition => form "where" [write condition]
  | .mvExpand fields => form "mv_expand" (fields.map QualifiedName.text)
  | .enrich policy matchField clauses =>
    form "enrich" (policy.raw :: (matchField.map fun field => form "on" [field.raw]).toList
      ++ (clauses.map fun clauses => form "with" (clauses.map EnrichClause.sexpr)).toList)

/-- What a command asks for as an s-expression. -/
def ProcessingClause.sexpr : ProcessingClause → String :=
  ProcessingClause.sexprWith BooleanExpr.sexpr

/-- A processing command as an s-expression whose conditions are written by `write`. -/
def ProcessingCommand.sexprWith (write : BooleanExpr → String) : ProcessingCommand → String
  | .command _ clause _ => clause.sexprWith write
  | .error _ => form "error" []

/-- A processing command as an s-expression. -/
def ProcessingCommand.sexpr : ProcessingCommand → String :=
  ProcessingCommand.sexprWith BooleanExpr.sexpr

mutual

/-- A pipeline as an s-expression. -/
def Query.sexpr : Query → String
  | .source command => command.sexpr
  | .pipe query _ command => form₂ "pipe" query.sexpr command.sexpr

/-- A source command as an s-expression. -/
def SourceCommand.sexpr : SourceCommand → String
  | .command _ clause _ => clause.sexpr
  | .error _ => form "error" []

/-- What a source command asks for as an s-expression. -/
def SourceClause.sexpr : SourceClause → String
  | .explain query => form "explain" [query.sexpr]
  | .indices sources => form "from" (sources.map Identifier.raw)
  | .row fields => form "row" (fields.map Field.sexpr)
  | .listing target => form "show" [target.tag]

end

/-- A statement as an s-expression. -/
def Statement.sexpr (s : Statement) : String := s.query.sexpr

end PipeQuery
