import PipeQuery.Ast.Expression

/-!
# Queries

A `Query` is a pipeline: a source command, and then any number of processing commands, each behind a
pipe. Pipes nest to the left. A command has its keyword, what it asks for (`SourceClause`,
`ProcessingClause`) and a span; a stage that could not be read is an `error` with the span of the
tokens that were passed over. A `Statement` is a query up to the end of the input.
-/

namespace PipeQuery

/-- An expression with an optional name, as in `x = a + 1`. -/
structure Field where
  /-- The name. -/
  name : Option Identifier
  /-- The expression. -/
  expression : BooleanExpr
  /-- The tokens of both. -/
  span : Span
deriving Inhabited

/-- A new name for a field, as in `new = old.name`. -/
structure RenameClause where
  /-- The new name. -/
  newName : Identifier
  /-- The field to rename. -/
  oldName : QualifiedName
  /-- The tokens of both. -/
  span : Span
deriving DecidableEq, Repr, Inhabited

/-- A named setting of a command, as in `append_separator = "-"`. -/
structure CommandOption where
  /-- The setting. -/
  name : Identifier
  /-- Its value. -/
  value : Constant
  /-- The tokens of both. -/
  span : Span
deriving DecidableEq, Repr, Inhabited

/-- A sort key with its modifiers. -/
structure SortKey where
  /-- What to sort by. -/
  expression : BooleanExpr
  /-- The direction, where one is given. -/
  order : Option SortOrder
  /-- The place of missing values, where one is given. -/
  nulls : Option NullsOrder
  /-- The tokens of all of it. -/
  span : Span
deriving Inhabited

/-- A field taken over from an enrich policy, with an optional new name. -/
structure EnrichClause where
  /-- The new name. -/
  newName : Option Identifier
  /-- The field of the policy. -/
  field : Identifier
  /-- The tokens of both. -/
  span : Span
deriving DecidableEq, Repr, Inhabited

/-- What a processing command asks for. -/
inductive ProcessingClause where
  /-- New columns. -/
  | eval (fields : List Field)
  /-- The number of rows to let through. -/
  | limit (count : NumericValue)
  /-- The columns to keep. -/
  | keep (fields : List QualifiedName)
  /-- New names for columns. -/
  | rename (clauses : List RenameClause)
  /-- The columns to take away. -/
  | drop (fields : List QualifiedName)
  /-- Columns cut out of a text by a pattern, with settings. -/
  | dissect (fields : List QualifiedName) (pattern : StringLiteral)
      (options : Option (List CommandOption))
  /-- Columns matched out of a text by a pattern. -/
  | grok (fields : List QualifiedName) (pattern : StringLiteral)
  /-- The sort keys. -/
  | sort (keys : List SortKey)
  /-- Aggregates, and the columns to group by. -/
  | stats (fields : Option (List Field)) (grouping : Option (List QualifiedName))
  /-- The condition on the rows to let through. -/
  | filter (condition : BooleanExpr)
  /-- The columns to spread over rows. -/
  | mvExpand (fields : List QualifiedName)
  /-- A policy, the column to match by, and what to take over. -/
  | enrich (policy : Identifier) (matchField : Option Identifier)
      (clauses : Option (List EnrichClause))
deriving Inhabited

/-- A command behind a pipe. -/
inductive ProcessingCommand where
  /-- A command that was read. -/
  | command (keyword : Token) (clause : ProcessingClause) (span : Span)
  /-- Tokens passed over after a command could not be read. -/
  | error (span : Span)
deriving Inhabited

/-- The tokens of a command. -/
def ProcessingCommand.span : ProcessingCommand → Span
  | .command _ _ span | .error span => span

mutual

/-- A pipeline. -/
inductive Query where
  /-- The command that starts it. -/
  | source (command : SourceCommand)
  /-- A pipeline followed by a pipe and a command. -/
  | pipe (query : Query) (bar : Token) (command : ProcessingCommand)

/-- The command that starts a pipeline. -/
inductive SourceCommand where
  /-- A command that was read. -/
  | command (keyword : Token) (clause : SourceClause) (span : Span)
  /-- Tokens passed over after a command could not be read. -/
  | error (span : Span)

/-- What a source command asks for. -/
inductive SourceClause where
  /-- An account of how a query in brackets would run. -/
  | explain (query : Query)
  /-- The documents of some indices. -/
  | indices (sources : List Identifier)
  /-- A single row of given columns. -/
  | row (fields : List Field)
  /-- A listing. -/
  | listing (target : ShowTarget)

end

instance : Inhabited SourceCommand := ⟨.error default⟩

instance : Inhabited Query := ⟨.source default⟩

/-- The tokens of a command. -/
def SourceCommand.span : SourceCommand → Span
  | .command _ _ span | .error span => span

namespace Query

/-- The command that starts the pipeline. -/
def sourceCommand : Query → SourceCommand
  | .source command => command
  | .pipe query _ _ => query.sourceCommand

theorem sizeOf_sourceCommand_lt : ∀ q : Query, sizeOf q.sourceCommand < sizeOf q
  | .source command => by
    rw [sourceCommand, source.sizeOf_spec]
    omega
  | .pipe query _ _ => by
    have h := query.sizeOf_sourceCommand_lt
    rw [sourceCommand, pipe.sizeOf_spec]
    omega

/-- The stages behind the first one, each with the pipe in front of it, in pipeline order. -/
def stages (q : Query) : List (Token × ProcessingCommand) :=
  go q []
where
  /-- Takes a pipeline apart in front of the stages that are known already. -/
  go : Query → List (Token × ProcessingCommand) → List (Token × ProcessingCommand)
    | .source _, stages => stages
    | .pipe query bar command, stages => go query ((bar, command) :: stages)

/-- The processing commands in pipeline order. -/
def processingCommands (q : Query) : List ProcessingCommand := q.stages.map Prod.snd

/-- The pipeline with a given first command and given stages. -/
def ofStages (first : SourceCommand) (stages : List (Token × ProcessingCommand)) : Query :=
  stages.foldl (fun query stage => .pipe query stage.1 stage.2) (.source first)

theorem ofStages_append_singleton (first : SourceCommand)
    (stages : List (Token × ProcessingCommand)) (bar : Token) (command : ProcessingCommand) :
    ofStages first (stages ++ [(bar, command)]) = .pipe (ofStages first stages) bar command := by
  rw [ofStages, List.foldl_append]
  rfl

theorem sourceCommand_ofStages (first : SourceCommand)
    (stages : List (Token × ProcessingCommand)) :
    (ofStages first stages).sourceCommand = first := by
  have h (q : Query) :
      (stages.foldl (fun query stage => .pipe query stage.1 stage.2) q).sourceCommand
        = q.sourceCommand := by
    induction stages generalizing q with
    | nil => rfl
    | cons stage stages ih =>
      rw [List.foldl_cons, ih]
      rfl
  exact h (.source first)

theorem stages_ofStages (first : SourceCommand) (stages : List (Token × ProcessingCommand)) :
    (ofStages first stages).stages = stages := by
  have hgo (l k : List (Token × ProcessingCommand)) (q : Query) :
      Query.stages.go (l.foldl (fun query stage => .pipe query stage.1 stage.2) q) k
        = Query.stages.go q (l ++ k) := by
    induction l generalizing q with
    | nil => rfl
    | cons stage l ih => rw [List.foldl_cons, ih, Query.stages.go, List.cons_append]
  rw [Query.stages, ofStages, hgo, Query.stages.go, List.append_nil]

theorem stages_go (links : List (Token × ProcessingCommand)) (q : Query) :
    stages.go q links = q.stages ++ links := by
  induction q using sourceCommand.induct generalizing links with
  | case1 command => rfl
  | case2 q bar command ih =>
    have h : (pipe q bar command).stages = stages.go q [(bar, command)] := rfl
    rw [stages.go, h, ih, ih, List.append_assoc]
    rfl

/-- The last stage is the one behind the outermost pipe. -/
theorem stages_pipe (q : Query) (bar : Token) (command : ProcessingCommand) :
    (pipe q bar command).stages = q.stages ++ [(bar, command)] :=
  stages_go [(bar, command)] q

/-- A pipeline is made of its first command and its stages. -/
theorem ofStages_stages (q : Query) : ofStages q.sourceCommand q.stages = q := by
  induction q using sourceCommand.induct with
  | case1 command => rfl
  | case2 q bar command ih =>
    rw [stages_pipe, ofStages_append_singleton, sourceCommand, ih]

/-- The tokens of a pipeline, from its first command to its last one. -/
def span : Query → Span
  | .source command => command.span
  | .pipe query _ command => query.sourceCommand.span.cover command.span

end Query

mutual

/-- The index pattern of the pipeline's `FROM`, also of one inside `EXPLAIN`. -/
def Query.indexPattern : Query → Option String
  | .source command => command.indexPattern
  | .pipe query _ _ => query.indexPattern

/-- The index pattern of a source command. -/
def SourceCommand.indexPattern : SourceCommand → Option String
  | .command _ clause _ => clause.indexPattern
  | .error _ => none

/-- The names of the indices, joined by commas; only `FROM` and `EXPLAIN` have them. -/
def SourceClause.indexPattern : SourceClause → Option String
  | .explain query => query.indexPattern
  | .indices sources => some (",".intercalate (sources.map Identifier.name))
  | .row _ | .listing _ => none

end

/-- A query up to the end of the input. -/
structure Statement where
  /-- The query. -/
  query : Query
  /-- The token that ends the input. -/
  endToken : Token
  /-- All the tokens up to the end of the input. -/
  span : Span
deriving Inhabited

/-- The index pattern of the statement's `FROM`. -/
def Statement.indexPattern (s : Statement) : Option String := s.query.indexPattern

end PipeQuery
