import PipeQuery.Ast.Query
import PipeQuery.Grammar.Expression

/-!
# Commands and queries

The rules for commands, pipelines and statements. Each command is a stage of its own: where it
cannot be read, its tokens up to the next boundary become an error, and the next stage is read as if
nothing had happened. So reading a query never gives up.

A query in brackets is one level deeper, like an expression inside another one; `query n` reads
queries that nest at most `n` levels deep.
-/

namespace PipeQuery.Grammar

open Rule

/-! ## Clauses -/

/-- An expression with an optional name. -/
def field (inner : Expressions) : Rule Field := spanned do
  let name ← assigned? plainNames
  return Field.mk name (← inner.boolean 0)

/-- Expressions with optional names. -/
def fields (inner : Expressions) : Rule (List Field) := separated .comma (field inner)

/-- A new name for a field. -/
def renameClause : Rule RenameClause := spanned do
  let newName ← plainIdentifier
  let _ ← expect .assign
  return RenameClause.mk newName (← qualifiedName)

/-- A setting of a command. -/
def commandOption : Rule CommandOption := spanned do
  let name ← plainIdentifier
  let _ ← expect .assign
  return CommandOption.mk name (← constant)

/-- A sort key. -/
def sortKey (inner : Expressions) : Rule SortKey := spanned do
  let expression ← inner.boolean 0
  let order ← accept .ordering
  let nulls ← behind .kwNulls (expect .nullsDirection)
  return SortKey.mk expression (order.map (SortOrder.ofText ·.text))
    (nulls.bind (NullsOrder.ofText? ·.text))

/-- A field of a policy. -/
def enrichClause : Rule EnrichClause := spanned do
  let newName ← assigned? enrichNames
  return EnrichClause.mk newName (← identifierOf enrichNames)

/-! ## Processing commands -/

/-- The keywords of processing commands. -/
def processingKeywords : KindSet :=
  .ofList [.kwEval, .kwLimit, .kwKeep, .kwProject, .kwRename, .kwDrop, .kwDissect, .kwGrok, .kwSort,
    .kwStats, .kwWhere, .kwMvExpand, .kwEnrich]

/-- The rule for what stands behind the keyword of a processing command. -/
def processingClause? (inner : Expressions) : Kind → Option (Rule ProcessingClause)
  | .kwEval => some do return .eval (← fields inner)
  | .kwLimit => some do return .limit (← integer)
  | .kwKeep | .kwProject => some do return .keep (← qualifiedNames)
  | .kwRename => some do return .rename (← separated .comma renameClause)
  | .kwDrop => some do return .drop (← qualifiedNames)
  | .kwDissect => some do
    let names ← qualifiedNames
    let pattern ← string
    if ← atAny? plainNames then
      return .dissect names pattern (some (← separated .comma commandOption))
    else return .dissect names pattern none
  | .kwGrok => some do return .grok (← qualifiedNames) (← string)
  | .kwSort => some do return .sort (← separated .comma (sortKey inner))
  | .kwStats => some do
    let aggregates ← if ← atAny? booleanStart then some <$> fields inner else pure none
    return .stats aggregates (← behind .kwBy qualifiedNames)
  | .kwWhere => some do
    return .filter (← within ({ · with predicates := true }) (inner.boolean 0))
  | .kwMvExpand => some do return .mvExpand (← qualifiedNames)
  | .kwEnrich => some do
    let policy ← identifierOf enrichNames
    let matchField ← behind .kwOn (identifierOf enrichNames)
    let clauses ← behind .kwWith (separated .comma enrichClause)
    return .enrich policy matchField clauses
  | _ => none

/-- A processing command. -/
def processingCommand (inner : Expressions) : Rule ProcessingCommand := spanned do
  change fun s => s.note (.processingCommand s.current)
  match processingClause? inner (← ask (·.kind)) with
  | some clause =>
    let keyword ← take
    return .command keyword (← clause)
  | none => noViable (← ask (·.position)) processingKeywords

/-! ## Source commands -/

/-- The keywords of source commands. -/
def sourceKeywords : KindSet := .ofList [.kwExplain, .kwFrom, .kwRow, .kwShow]

/-- What can be listed. -/
def showTargets : KindSet := .ofList [.kwInfo, .kwFunctions]

/-- A query in brackets. -/
def subquery (query : Rule Query) : Rule Query := do
  let start ← ask (·.position)
  let _ ← expect .leftBracket
  let inner ← within (fun scope => { scope with subqueries := scope.subqueries + 1 }) query
  let _ ← expect .rightBracket
  change fun s => s.record .subquery (s.spanFrom start)
  return inner

/-- A source command. What `SHOW` is to list is looked for before its keyword is matched. -/
def sourceCommand (inner : Expressions) (query : Rule Query) : Rule SourceCommand := spanned do
  change fun s => s.note (.sourceCommand s.current)
  let start ← ask (·.position)
  match ← ask (·.kind) with
  | .kwExplain =>
    let keyword ← take
    return .command keyword (.explain (← subquery query))
  | .kwFrom =>
    let keyword ← take
    return .command keyword (.indices (← separated .comma (identifierOf sourceNames)))
  | .kwRow =>
    let keyword ← take
    return .command keyword (.row (← fields inner))
  | .kwShow =>
    match ShowTarget.ofKind? (← ask (·.kindAfter)) with
    | some target =>
      let keyword ← take
      let _ ← take
      return .command keyword (.listing target)
    | none =>
      change (·.skip)
      noViable start showTargets
  | _ => noViable start sourceKeywords

/-! ## Stages -/

/-- Reads a command; where it gives up, the stage becomes an error. -/
def stage {α : Type} (r : Rule α) (kind : Kind) (span : α → Span) (error : Span → α) (s : State) :
    α × State :=
  match r.run s with
  | (some command, t) => (command, t.record kind (span command))
  | (none, t) =>
    let (skipped, t) := t.resync s.position
    (error skipped, t)

/-- A stage is the command that was read, or an error in the place of the tokens passed over. -/
theorem stage_cases {α : Type} (r : Rule α) (kind : Kind) (span : α → Span) (error : Span → α)
    (s : State) :
    (∃ command t, r.run s = (some command, t) ∧
        stage r kind span error s = (command, t.record kind (span command))) ∨
      ∃ t, r.run s = (none, t) ∧
        stage r kind span error s = (error (t.resync s.position).1, (t.resync s.position).2) := by
  rw [stage]
  obtain ⟨_ | command, t⟩ := r.run s
  · exact .inr ⟨t, rfl, rfl⟩
  · exact .inl ⟨command, t, rfl, rfl⟩

/-- Reads the first stage of a query. -/
def sourceStage (inner : Expressions) (query : Rule Query) : State → SourceCommand × State :=
  stage (sourceCommand inner query) .sourceCommand SourceCommand.span .error

/-- Reads a stage behind a pipe. -/
def processingStage (inner : Expressions) : State → ProcessingCommand × State :=
  stage (processingCommand inner) .processingCommand ProcessingCommand.span .error

/-- Reads at most `n` stages, each behind its pipe, up to the end of the query; the stages in front
of them are given, last one first. What stands between a command and the next pipe is passed
over. -/
def stagesUpTo (inner : Expressions) : Nat → List (Token × ProcessingCommand) → State →
    List (Token × ProcessingCommand) × State
  | 0, stages, s => (stages.reverse, s)
  | n + 1, stages, s =>
    if s.kind = .pipe then
      let (command, t) := processingStage inner s.bump
      stagesUpTo inner n ((s.current, command) :: stages) t
    else if s.atBoundary then (stages.reverse, s)
    else stagesUpTo inner n stages s.skipExtraneous

/-- Reads a query up to the end of the input, or to the bracket that closes it. -/
def pipeline (inner : Expressions) (query : Rule Query) (s : State) : Query × State :=
  let (first, s) := sourceStage inner query s
  let (stages, s) := stagesUpTo inner s.stream.remaining [] s
  (.ofStages first stages, s)

/-- Reads a query that nests at most a given number of levels deep. -/
def query : Nat → State → Query × State
  | 0, s => pipeline (expressions 0) tooDeep s
  | n + 1, s =>
    let inner : Rule Query := fun s =>
      let (q, t) := query n s
      (some q, t)
    pipeline (expressions (n + 1)) inner s

/-- Reads a query and the end of the input. -/
def statement (levels : Nat) (s : State) : Statement × State :=
  let (q, t) := query levels s
  (⟨q, t.current, ⟨0, min (t.position + 1) t.stream.tokens.length⟩⟩, t)

end PipeQuery.Grammar
