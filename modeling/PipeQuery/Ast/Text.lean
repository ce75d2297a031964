import PipeQuery.Ast.Query

/-!
# Query text

`Statement.text` writes a statement as query text: keywords in upper case, single blanks, and
identifiers, numbers and strings as they were written. Parentheses come from groups in the tree
alone, so a text that is read again has the same structure.
-/

namespace PipeQuery

/-- Texts separated by commas. -/
def commaSeparated (texts : List String) : String := ", ".intercalate texts

/-- A truth value as written. -/
def BooleanValue.text (b : BooleanValue) : String := if b.value then "true" else "false"

/-- A constant as written. -/
def Constant.text : Constant → String
  | .null _ => "NULL"
  | .numeric n => n.raw
  | .boolean b => b.text
  | .string s => s.raw
  | .numericArray values _ => "[" ++ commaSeparated (values.map NumericValue.raw) ++ "]"
  | .booleanArray values _ => "[" ++ commaSeparated (values.map BooleanValue.text) ++ "]"
  | .stringArray values _ => "[" ++ commaSeparated (values.map StringLiteral.raw) ++ "]"

/-- An argument as written. -/
def FieldArgument.text : FieldArgument → String
  | .field name => name.text
  | .string s => s.raw
  | .numeric n => n.raw

/-- A length of time as written. -/
def TimeSpan.text (t : TimeSpan) : String := t.value.raw ++ " " ++ t.unit

/-- A function and its arguments as written. -/
def callText (name : Identifier) (args : List String) : String :=
  name.raw ++ "(" ++ commaSeparated args ++ ")"

/-- A call of a predicate function as written. -/
def PredicateCall.text (c : PredicateCall) : String :=
  callText c.name (c.field.text :: c.args.map FieldArgument.text)

/-- The word that turns a test round, where it stands. -/
def negationText (negation : Option Token) : String := if negation.isSome then " NOT" else ""

mutual

/-- A condition as query text. -/
def BooleanExpr.text : BooleanExpr → String
  | .not _ operand _ => "NOT " ++ operand.text
  | .value v => v.text
  | .connective op left _ right => left.text ++ " " ++ op.keyword ++ " " ++ right.text
  | .isIn v negation items _ =>
    v.text ++ negationText negation ++ " IN (" ++ commaSeparated (ValueExpr.texts items) ++ ")"
  | .isMatch v negation kind pattern _ =>
    v.text ++ negationText negation ++ " " ++ kind.keyword ++ " " ++ pattern.raw
  | .predicate call => call.text

/-- A value as query text. -/
def ValueExpr.text : ValueExpr → String
  | .operator o => o.text
  | .comparison left op _ right => left.text ++ " " ++ op.symbol ++ " " ++ right.text

/-- An arithmetic expression as query text. -/
def OperatorExpr.text : OperatorExpr → String
  | .primary p => p.text
  | .aggregate name args _ => callText name (args.map FieldArgument.text)
  | .scalar name args _ => callText name (ScalarArgument.texts args)
  | .signed sign _ operand _ => sign.symbol ++ operand.text
  | .binary op _ left right => left.text ++ " " ++ op.symbol ++ " " ++ right.text

/-- A leaf as query text. -/
def PrimaryExpr.text : PrimaryExpr → String
  | .constant c => c.text
  | .field name => name.text
  | .group inner _ => "(" ++ inner.text ++ ")"
  | .call name args _ => callText name (BooleanExpr.texts args)

/-- An argument as query text. -/
def ScalarArgument.text : ScalarArgument → String
  | .value v => v.text
  | .timeSpan t => t.text

/-- Conditions as query texts. -/
def BooleanExpr.texts : List BooleanExpr → List String
  | [] => []
  | e :: es => e.text :: BooleanExpr.texts es

/-- Values as query texts. -/
def ValueExpr.texts : List ValueExpr → List String
  | [] => []
  | e :: es => e.text :: ValueExpr.texts es

/-- Arguments as query texts. -/
def ScalarArgument.texts : List ScalarArgument → List String
  | [] => []
  | e :: es => e.text :: ScalarArgument.texts es

end

@[simp] theorem BooleanExpr.texts_eq (es : List BooleanExpr) :
    BooleanExpr.texts es = es.map BooleanExpr.text := by
  induction es with
  | nil => simp [BooleanExpr.texts]
  | cons e es ih => simp [BooleanExpr.texts, ih]

@[simp] theorem ValueExpr.texts_eq (es : List ValueExpr) :
    ValueExpr.texts es = es.map ValueExpr.text := by
  induction es with
  | nil => simp [ValueExpr.texts]
  | cons e es ih => simp [ValueExpr.texts, ih]

@[simp] theorem ScalarArgument.texts_eq (es : List ScalarArgument) :
    ScalarArgument.texts es = es.map ScalarArgument.text := by
  induction es with
  | nil => simp [ScalarArgument.texts]
  | cons e es ih => simp [ScalarArgument.texts, ih]

/-- A name and what it is given, or the latter alone, as query text. -/
def assignedText (name : Option Identifier) (text : String) : String :=
  match name with
  | some name => name.raw ++ " = " ++ text
  | none => text

/-- A field as query text whose conditions are written by `write`. -/
def Field.textWith (write : BooleanExpr → String) (f : Field) : String :=
  assignedText f.name (write f.expression)

/-- A field as query text. -/
def Field.text : Field → String := Field.textWith BooleanExpr.text

/-- A renaming as query text. -/
def RenameClause.text (c : RenameClause) : String := assignedText c.newName c.oldName.text

/-- A setting as query text. -/
def CommandOption.text (o : CommandOption) : String := assignedText o.name o.value.text

/-- A field of a policy as query text. -/
def EnrichClause.text (c : EnrichClause) : String := assignedText c.newName c.field.raw

/-- A sort key as query text whose conditions are written by `write`. -/
def SortKey.textWith (write : BooleanExpr → String) (k : SortKey) : String :=
  write k.expression
    ++ (k.order.elim "" fun order => " " ++ order.keyword)
    ++ (k.nulls.elim "" fun nulls => " NULLS " ++ nulls.keyword)

/-- A sort key as query text. -/
def SortKey.text : SortKey → String := SortKey.textWith BooleanExpr.text

/-- Several references as query text. -/
def QualifiedName.texts (names : List QualifiedName) : String :=
  commaSeparated (names.map QualifiedName.text)

/-- What a command asks for as query text whose conditions are written by `write`, with the
command's word in front. -/
def ProcessingClause.textWith (write : BooleanExpr → String) (keyword : Token) :
    ProcessingClause → String
  | .eval fields => "EVAL " ++ commaSeparated (fields.map (Field.textWith write))
  | .limit count => "LIMIT " ++ count.raw
  | .keep fields =>
    -- the command has two words, and the one that was written stays
    keyword.text.toUpper ++ " " ++ QualifiedName.texts fields
  | .rename clauses => "RENAME " ++ commaSeparated (clauses.map RenameClause.text)
  | .drop fields => "DROP " ++ QualifiedName.texts fields
  | .dissect fields pattern options =>
    "DISSECT " ++ QualifiedName.texts fields ++ " " ++ pattern.raw
      ++ (options.elim "" fun options => " " ++ commaSeparated (options.map CommandOption.text))
  | .grok fields pattern => "GROK " ++ QualifiedName.texts fields ++ " " ++ pattern.raw
  | .sort keys => "SORT " ++ commaSeparated (keys.map (SortKey.textWith write))
  | .stats fields grouping =>
    "STATS"
      ++ (fields.elim "" fun fields => " " ++ commaSeparated (fields.map (Field.textWith write)))
      ++ (grouping.elim "" fun names => " BY " ++ QualifiedName.texts names)
  | .filter condition => "WHERE " ++ write condition
  | .mvExpand fields => "MV_EXPAND " ++ QualifiedName.texts fields
  | .enrich policy matchField clauses =>
    "ENRICH " ++ policy.raw
      ++ (matchField.elim "" fun field => " ON " ++ field.raw)
      ++ (clauses.elim "" fun clauses =>
        " WITH " ++ commaSeparated (clauses.map EnrichClause.text))

/-- What a command asks for as query text, with the command's word in front. -/
def ProcessingClause.text : Token → ProcessingClause → String :=
  ProcessingClause.textWith BooleanExpr.text

/-- A processing command as query text whose conditions are written by `write`; one that was not
read has a placeholder. -/
def ProcessingCommand.textWith (write : BooleanExpr → String) : ProcessingCommand → String
  | .command keyword clause _ => clause.textWith write keyword
  | .error _ => "<error>"

/-- A processing command as query text. -/
def ProcessingCommand.text : ProcessingCommand → String :=
  ProcessingCommand.textWith BooleanExpr.text

mutual

/-- A pipeline as query text. -/
def Query.text : Query → String
  | .source command => command.text
  | .pipe query _ command => query.text ++ " | " ++ command.text

/-- A source command as query text; one that was not read has a placeholder. -/
def SourceCommand.text : SourceCommand → String
  | .command _ clause _ => clause.text
  | .error _ => "<error>"

/-- What a source command asks for as query text, with the command's word in front. -/
def SourceClause.text : SourceClause → String
  | .explain query => "EXPLAIN [ " ++ query.text ++ " ]"
  | .indices sources => "FROM " ++ commaSeparated (sources.map Identifier.raw)
  | .row fields => "ROW " ++ commaSeparated (fields.map Field.text)
  | .listing target => "SHOW " ++ target.keyword

end

/-- A statement as query text. -/
def Statement.text (s : Statement) : String := s.query.text

end PipeQuery
