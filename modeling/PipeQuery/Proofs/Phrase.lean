import PipeQuery.Ast.Query

/-!
# Phrases

A `Phrase` is any node of a query: a pipeline, a command, an expression, a name or a constant. The
grammar is given on phrases. `Phrase.items` says what a phrase is made of, from left to right: the
tokens that it has itself, each described by a `Terminal`, and the phrases inside it. A phrase is
`Admissible` when the grammar allows it to stand as it does: its lists are not empty, its operators
bind as tightly as their place asks for, and its names are of the kinds of their positions.

`Phrase.children` are the phrases right inside a phrase, and `Phrase.Below` are all those inside it.
-/

namespace PipeQuery

/-! ## The kinds of operators -/

/-- The kind of the token of a connective. -/
def Connective.kind : Connective → Kind
  | and => .kwAnd
  | or => .kwOr

/-- The kind of the token of an infix operator. -/
def ArithmeticOp.kind : ArithmeticOp → Kind
  | add => .plus
  | sub => .minus
  | mul => .asterisk
  | div => .slash
  | mod => .percent

/-- The kind of the token of a sign. -/
def Sign.kind : Sign → Kind
  | plus => .plus
  | minus => .minus

/-- The kind of the keyword of a pattern match. -/
def PatternKind.kind : PatternKind → Kind
  | like => .kwLike
  | rlike => .kwRlike

/-- The kind of the word for what a listing shows. -/
def ShowTarget.kind : ShowTarget → Kind
  | info => .kwInfo
  | functions => .kwFunctions

/-- The kind of the token of a number. -/
def NumericKind.kind : NumericKind → Kind
  | integer => .integer
  | decimal => .decimal

theorem Connective.ofKind?_eq_some_iff {k : Kind} {op : Connective} :
    ofKind? k = some op ↔ k = op.kind := by
  cases op <;> cases k <;> decide

theorem ArithmeticOp.ofKind?_eq_some_iff {k : Kind} {op : ArithmeticOp} :
    ofKind? k = some op ↔ k = op.kind := by
  cases op <;> cases k <;> decide

theorem Sign.ofKind?_eq_some_iff {k : Kind} {sign : Sign} :
    ofKind? k = some sign ↔ k = sign.kind := by
  cases sign <;> cases k <;> decide

theorem PatternKind.ofKind?_eq_some_iff {k : Kind} {pattern : PatternKind} :
    ofKind? k = some pattern ↔ k = pattern.kind := by
  cases pattern <;> cases k <;> decide

theorem ShowTarget.ofKind?_eq_some_iff {k : Kind} {target : ShowTarget} :
    ofKind? k = some target ↔ k = target.kind := by
  cases target <;> cases k <;> decide

/-! ## Powers -/

/-- How tightly a condition binds: as tightly as its connective, or more tightly than any. -/
def BooleanExpr.power : BooleanExpr → Nat
  | .connective op _ _ _ => op.leftPower
  | _ => Connective.notPower

/-- How tightly an arithmetic expression binds: as tightly as its operator, or more tightly than
any. -/
def OperatorExpr.power : OperatorExpr → Nat
  | .binary op _ _ _ => op.leftPower
  | _ => Sign.power

/-! ## Phrases -/

/-- A node of a query. -/
inductive Phrase where
  /-- A pipeline. -/
  | query (query : Query)
  /-- A source command. -/
  | sourceCommand (command : SourceCommand)
  /-- A processing command. -/
  | processingCommand (command : ProcessingCommand)
  /-- An expression with an optional name. -/
  | field (field : Field)
  /-- A new name for a field. -/
  | renameClause (clause : RenameClause)
  /-- A setting of a command. -/
  | commandOption (option : CommandOption)
  /-- A sort key. -/
  | sortKey (key : SortKey)
  /-- A field of a policy. -/
  | enrichClause (clause : EnrichClause)
  /-- A condition. -/
  | boolean (expression : BooleanExpr)
  /-- A value. -/
  | value (expression : ValueExpr)
  /-- An arithmetic expression. -/
  | operator (expression : OperatorExpr)
  /-- A leaf of arithmetic. -/
  | primary (expression : PrimaryExpr)
  /-- An argument of a scalar function. -/
  | scalarArgument (argument : ScalarArgument)
  /-- An argument of an aggregate or predicate function. -/
  | fieldArgument (argument : FieldArgument)
  /-- A call of a predicate function. -/
  | predicateCall (call : PredicateCall)
  /-- A length of time. -/
  | timeSpan (value : TimeSpan)
  /-- A constant. -/
  | constant (value : Constant)
  /-- A number. -/
  | number (value : NumericValue)
  /-- A string. -/
  | string (value : StringLiteral)
  /-- A truth value. -/
  | truthValue (value : BooleanValue)
  /-- A reference to a field. -/
  | qualifiedName (name : QualifiedName)
  /-- An identifier. -/
  | identifier (identifier : Identifier)

/-- What the grammar asks of a token of its own. -/
inductive Terminal where
  /-- A token of one of some kinds; the tree keeps it. -/
  | kept (kinds : List Kind) (token : Token)
  /-- A comparison operator; the tree keeps its token. -/
  | comparison (op : ComparisonOp) (token : Token)
  /-- A token of a kind. -/
  | kind (kind : Kind)
  /-- A token of a kind with a given text. -/
  | spelling (kind : Kind) (text : String)
  /-- The word for a truth value. -/
  | truth (value : Bool)
  /-- The word for the direction of a sort. -/
  | order (order : SortOrder)
  /-- The word for the place of missing values. -/
  | nulls (nulls : NullsOrder)

/-- Where a phrase stands inside another one. -/
inductive Nesting where
  /-- On the same level of nesting. -/
  | same
  /-- One level deeper. -/
  | deeper
  /-- One level deeper, as the condition of a filter. -/
  | filter
deriving DecidableEq, Repr

/-- An item of a phrase: a token of its own, or a phrase inside it. -/
inductive Item where
  /-- A token. -/
  | terminal (terminal : Terminal)
  /-- A phrase. -/
  | phrase (nesting : Nesting) (phrase : Phrase)

namespace Item

/-- A token of a kind. -/
abbrev kind (kind : Kind) : Item := .terminal (.kind kind)

/-- A token of a kind that the tree keeps. -/
abbrev kept (kind : Kind) (token : Token) : Item := .terminal (.kept [kind] token)

/-- A phrase on the same level. -/
abbrev same (phrase : Phrase) : Item := .phrase .same phrase

/-- A phrase one level deeper. -/
abbrev deeper (phrase : Phrase) : Item := .phrase .deeper phrase

/-- Items with a token between them. -/
def separated (separator : Kind) : List Item → List Item
  | [] => []
  | item :: items => item :: items.flatMap fun next => [.kind separator, next]

/-- Phrases on the same level with commas between them. -/
def list {α : Type} (phrase : α → Phrase) (values : List α) : List Item :=
  separated .comma (values.map fun value => .same (phrase value))

/-- A function and its arguments. -/
def call (name : Identifier) (arguments : List Item) : List Item :=
  .same (.identifier name) :: .kind .leftParen :: (separated .comma arguments ++ [.kind .rightParen])

/-- A new name and an equals sign, where they stand. -/
def assigned (name : Option Identifier) : List Item :=
  name.elim [] fun name => [.same (.identifier name), .kind .assign]

/-- The word that turns a test round, where it stands. -/
def negation (negation : Option Token) : List Item := negation.elim [] fun token => [.kept .kwNot token]

/-- The phrase of an item. -/
def phrase? : Item → Option Phrase
  | .terminal _ => none
  | .phrase _ p => some p

end Item

/-! ## What phrases are made of -/

/-- What stands behind the keyword of a processing command, with the keyword in front. -/
def ProcessingClause.items (keyword : Token) : ProcessingClause → List Item
  | .eval fields => .kept .kwEval keyword :: Item.list .field fields
  | .limit count => [.kept .kwLimit keyword, .same (.number count)]
  | .keep names => .terminal (.kept [.kwKeep, .kwProject] keyword) :: Item.list .qualifiedName names
  | .rename clauses => .kept .kwRename keyword :: Item.list .renameClause clauses
  | .drop names => .kept .kwDrop keyword :: Item.list .qualifiedName names
  | .dissect names pattern options =>
    .kept .kwDissect keyword :: (Item.list .qualifiedName names
      ++ .same (.string pattern) :: options.elim [] (Item.list .commandOption))
  | .grok names pattern =>
    .kept .kwGrok keyword :: (Item.list .qualifiedName names ++ [.same (.string pattern)])
  | .sort keys => .kept .kwSort keyword :: Item.list .sortKey keys
  | .stats fields grouping =>
    .kept .kwStats keyword :: (fields.elim [] (Item.list .field)
      ++ grouping.elim [] fun names => .kind .kwBy :: Item.list .qualifiedName names)
  | .filter condition => [.kept .kwWhere keyword, .phrase .filter (.boolean condition)]
  | .mvExpand names => .kept .kwMvExpand keyword :: Item.list .qualifiedName names
  | .enrich policy matchField clauses =>
    .kept .kwEnrich keyword :: .same (.identifier policy)
      :: ((matchField.elim [] fun name => [.kind .kwOn, .same (.identifier name)])
        ++ clauses.elim [] fun clauses => .kind .kwWith :: Item.list .enrichClause clauses)

/-- What stands behind the keyword of a source command, with the keyword in front. -/
def SourceClause.items (keyword : Token) : SourceClause → List Item
  | .explain query =>
    [.kept .kwExplain keyword, .kind .leftBracket, .deeper (.query query), .kind .rightBracket]
  | .indices names => .kept .kwFrom keyword :: Item.list .identifier names
  | .row fields => .kept .kwRow keyword :: Item.list .field fields
  | .listing target => [.kept .kwShow keyword, .kind target.kind]

/-- What a condition is made of. -/
def BooleanExpr.items : BooleanExpr → List Item
  | .not operator operand _ => [.kept .kwNot operator, .deeper (.boolean operand)]
  | .value v => [.same (.value v)]
  | .connective op left operator right =>
    [.same (.boolean left), .kept op.kind operator, .deeper (.boolean right)]
  | .isIn v negation items _ =>
    .same (.value v) :: (Item.negation negation
      ++ .kind .kwIn :: .kind .leftParen :: (Item.list .value items ++ [.kind .rightParen]))
  | .isMatch v negation pattern literal _ =>
    .same (.value v) :: (Item.negation negation ++ [.kind pattern.kind, .same (.string literal)])
  | .predicate call => [.same (.predicateCall call)]

/-- What a value is made of. -/
def ValueExpr.items : ValueExpr → List Item
  | .operator e => [.deeper (.operator e)]
  | .comparison left op token right =>
    [.deeper (.operator left), .terminal (.comparison op token), .deeper (.operator right)]

/-- What an arithmetic expression is made of. -/
def OperatorExpr.items : OperatorExpr → List Item
  | .primary p => [.same (.primary p)]
  | .aggregate name args _ => Item.call name (args.map fun a => .same (.fieldArgument a))
  | .scalar name args _ => Item.call name (args.map fun a => .same (.scalarArgument a))
  | .signed sign operator operand _ => [.kept sign.kind operator, .deeper (.operator operand)]
  | .binary op operator left right =>
    [.same (.operator left), .kept op.kind operator, .deeper (.operator right)]

/-- What a leaf of arithmetic is made of. -/
def PrimaryExpr.items : PrimaryExpr → List Item
  | .constant c => [.same (.constant c)]
  | .field name => [.same (.qualifiedName name)]
  | .group inner _ => [.kind .leftParen, .deeper (.boolean inner), .kind .rightParen]
  | .call name args _ => Item.call name (args.map fun e => .deeper (.boolean e))

/-- What a constant is made of. -/
def Constant.items : Constant → List Item
  | .null _ => [.kind .kwNull]
  | .numeric n => [.same (.number n)]
  | .boolean b => [.same (.truthValue b)]
  | .string s => [.same (.string s)]
  | .numericArray ns _ => .kind .leftBracket :: (Item.list .number ns ++ [.kind .rightBracket])
  | .booleanArray bs _ => .kind .leftBracket :: (Item.list .truthValue bs ++ [.kind .rightBracket])
  | .stringArray ss _ => .kind .leftBracket :: (Item.list .string ss ++ [.kind .rightBracket])

namespace Phrase

/-- What a phrase is made of, from left to right. A command that was not read has no items. -/
def items : Phrase → List Item
  | query (.source command) => [.same (.sourceCommand command)]
  | query (.pipe q bar command) =>
    [.same (.query q), .kept .pipe bar, .same (.processingCommand command)]
  | sourceCommand (.command keyword clause _) => clause.items keyword
  | sourceCommand (.error _) => []
  | processingCommand (.command keyword clause _) => clause.items keyword
  | processingCommand (.error _) => []
  | field f => Item.assigned f.name ++ [.deeper (.boolean f.expression)]
  | renameClause c =>
    [.same (.identifier c.newName), .kind .assign, .same (.qualifiedName c.oldName)]
  | commandOption o => [.same (.identifier o.name), .kind .assign, .same (.constant o.value)]
  | sortKey k =>
    .deeper (.boolean k.expression)
      :: ((k.order.elim [] fun order => [.terminal (.order order)])
        ++ k.nulls.elim [] fun nulls => [.kind .kwNulls, .terminal (.nulls nulls)])
  | enrichClause c => Item.assigned c.newName ++ [.same (.identifier c.field)]
  | boolean e => e.items
  | value v => v.items
  | operator e => e.items
  | primary p => p.items
  | scalarArgument (.value v) => [.same (.value v)]
  | scalarArgument (.timeSpan t) => [.same (.timeSpan t)]
  | fieldArgument (.field name) => [.same (.qualifiedName name)]
  | fieldArgument (.string s) => [.same (.string s)]
  | fieldArgument (.numeric n) => [.same (.number n)]
  | predicateCall c =>
    Item.call c.name (.same (.qualifiedName c.field) :: c.args.map fun a => .same (.fieldArgument a))
  | timeSpan t => [.same (.number t.value), .terminal (.spelling .dateUnit t.unit)]
  | constant c => c.items
  | number n => [.terminal (.spelling n.kind.kind n.raw)]
  | string s => [.terminal (.spelling .string s.raw)]
  | truthValue b => [.terminal (.truth b.value)]
  | qualifiedName q => Item.separated .dot (q.parts.map fun part => .same (.identifier part))
  | identifier i => [.terminal (.spelling i.kind i.raw)]

/-- The tokens of a phrase. -/
def span : Phrase → Span
  | query q => q.span
  | sourceCommand c => c.span
  | processingCommand c => c.span
  | field f => f.span
  | renameClause c => c.span
  | commandOption o => o.span
  | sortKey k => k.span
  | enrichClause c => c.span
  | boolean e => e.span
  | value v => v.span
  | operator e => e.span
  | primary p => p.span
  | scalarArgument a => a.span
  | fieldArgument a => a.span
  | predicateCall c => c.span
  | timeSpan t => t.span
  | constant c => c.span
  | number n => n.span
  | string s => s.span
  | truthValue b => b.span
  | qualifiedName q => q.span
  | identifier i => i.span

end Phrase

/-! ## What the grammar allows -/

/-- Whether a kind is one of names: of fields, functions, indices and policies. -/
def Kind.isName : Kind → Bool
  | scalarFunction | aggregateFunction | predicateFunction => true
  | identifier | sourceIdentifier | enrichIdentifier => true
  | k => k.isQuotedIdentifier

/-- Whether a kind is one of names of fields and functions. -/
def Identifier.IsPlain (i : Identifier) : Prop := i.kind ∈ [Kind.identifier, .quotedIdentifier]

/-- Whether a kind is one of index patterns. -/
def Identifier.IsSource (i : Identifier) : Prop :=
  i.kind ∈ [Kind.sourceIdentifier, .quotedSourceIdentifier]

/-- Whether a kind is one of the names of `ENRICH`. -/
def Identifier.IsEnrich (i : Identifier) : Prop :=
  i.kind ∈ [Kind.enrichIdentifier, .quotedEnrichIdentifier]

/-- The lists of a processing command are not empty, and its names are of the right kinds. -/
def ProcessingClause.Admissible : ProcessingClause → Prop
  | .eval fields => fields ≠ []
  | .limit count => count.kind = .integer
  | .keep names | .drop names | .mvExpand names | .grok names _ => names ≠ []
  | .rename clauses => clauses ≠ []
  | .dissect names _ options => names ≠ [] ∧ options ≠ some []
  | .sort keys => keys ≠ []
  | .stats fields grouping => fields ≠ some [] ∧ grouping ≠ some []
  | .filter _ => True
  | .enrich policy matchField clauses =>
    policy.IsEnrich ∧ (∀ name ∈ matchField, name.IsEnrich) ∧ clauses ≠ some []

/-- The lists of a source command are not empty, and its names are index patterns. -/
def SourceClause.Admissible : SourceClause → Prop
  | .explain _ | .listing _ => True
  | .indices names => names ≠ [] ∧ ∀ name ∈ names, name.IsSource
  | .row fields => fields ≠ []

/-- The operands of a connective bind as tightly as their places ask for, and tests and predicates
stand in filters only. -/
def BooleanExpr.Admissible (filters : Bool) : BooleanExpr → Prop
  | .not _ operand _ => Connective.notPower ≤ operand.power
  | .value _ => True
  | .connective op left _ right => op.leftPower ≤ left.power ∧ op.rightPower ≤ right.power
  | .isIn _ _ items _ => filters = true ∧ items ≠ []
  | .isMatch _ _ _ _ _ | .predicate _ => filters = true

/-- The operands of an operator bind as tightly as their places ask for. -/
def OperatorExpr.Admissible : OperatorExpr → Prop
  | .primary _ => True
  | .aggregate name _ _ => name.kind = .aggregateFunction
  | .scalar name _ _ => name.kind = .scalarFunction
  | .signed _ _ operand _ => Sign.power ≤ operand.power
  | .binary op _ left right => op.leftPower ≤ left.power ∧ op.rightPower ≤ right.power

/-- Functions have names of fields. -/
def PrimaryExpr.Admissible : PrimaryExpr → Prop
  | .call name _ _ => name.IsPlain
  | .constant _ | .field _ | .group _ _ => True

/-- Lists of constants are not empty. -/
def Constant.Admissible : Constant → Prop
  | .numericArray values _ => values ≠ []
  | .booleanArray values _ => values ≠ []
  | .stringArray values _ => values ≠ []
  | .null _ | .numeric _ | .boolean _ | .string _ => True

namespace Phrase

/-- Whether the grammar allows a phrase, as far as the phrase itself shows. -/
def Admissible (filters : Bool) : Phrase → Prop
  | query _ | sortKey _ | value _ | scalarArgument _ | fieldArgument _ | timeSpan _ => True
  | number _ | string _ | truthValue _ => True
  | sourceCommand (.command _ clause _) => clause.Admissible
  | processingCommand (.command _ clause _) => clause.Admissible
  | sourceCommand (.error _) | processingCommand (.error _) => False
  | field f => ∀ name ∈ f.name, name.IsPlain
  | renameClause c => c.newName.IsPlain
  | commandOption o => o.name.IsPlain
  | enrichClause c => (∀ name ∈ c.newName, name.IsEnrich) ∧ c.field.IsEnrich
  | boolean e => e.Admissible filters
  | operator e => e.Admissible
  | primary p => p.Admissible
  | predicateCall c => c.name.kind = .predicateFunction
  | constant c => c.Admissible
  | qualifiedName q => q.parts ≠ [] ∧ ∀ part ∈ q.parts, part.IsPlain
  | identifier i => i.kind.isName = true ∧ i.quoted = i.kind.isQuotedIdentifier

end Phrase

end PipeQuery
