import PipeQuery.Ast.Query

/-!
# Queries with other spans and texts

`Query.recast ρ σ` is a query with `σ` applied to its spans and to the texts of its names and
constants, and `ρ` to the tokens that it keeps. All that is said of queries up to their place in a
text is a case of it, and so is what is said up to the case of letters: spans that are moved, spans
that are left out, texts in lower case. The spans of a chain are those of its first operand and of
its links (`BooleanExpr.recast_ofChain`), so a chain is compared link by link.
-/

namespace PipeQuery

/-- What is done to the spans and the texts of a query. -/
structure Recast where
  /-- What is done to a span. -/
  span : Span → Span
  /-- What is done to the text of a name or a constant. -/
  text : String → String

section

variable (σ : Recast)

/-! ## Names and constants -/

def Identifier.recast (i : Identifier) : Identifier :=
  { i with raw := σ.text i.raw, span := σ.span i.span }

def QualifiedName.recast (q : QualifiedName) : QualifiedName :=
  ⟨q.parts.map (Identifier.recast σ), σ.span q.span⟩

def NumericValue.recast (v : NumericValue) : NumericValue :=
  { v with raw := σ.text v.raw, span := σ.span v.span }

def StringLiteral.recast (s : StringLiteral) : StringLiteral :=
  ⟨σ.text s.raw, σ.span s.span⟩

def BooleanValue.recast (b : BooleanValue) : BooleanValue := { b with span := σ.span b.span }

def Constant.recast : Constant → Constant
  | .null span => .null (σ.span span)
  | .numeric v => .numeric (v.recast σ)
  | .boolean b => .boolean (b.recast σ)
  | .string s => .string (s.recast σ)
  | .numericArray values span => .numericArray (values.map (NumericValue.recast σ)) (σ.span span)
  | .booleanArray values span => .booleanArray (values.map (BooleanValue.recast σ)) (σ.span span)
  | .stringArray values span => .stringArray (values.map (StringLiteral.recast σ)) (σ.span span)

def FieldArgument.recast : FieldArgument → FieldArgument
  | .field name => .field (name.recast σ)
  | .string s => .string (s.recast σ)
  | .numeric v => .numeric (v.recast σ)

def TimeSpan.recast (t : TimeSpan) : TimeSpan := ⟨t.value.recast σ, σ.text t.unit, σ.span t.span⟩

def PredicateCall.recast (c : PredicateCall) : PredicateCall :=
  ⟨c.name.recast σ, c.field.recast σ, c.args.map (FieldArgument.recast σ), σ.span c.span⟩

end

/-! ## Expressions -/

section

variable (ρ : Token → Token) (σ : Recast)

mutual

/-- A condition with other spans and texts. -/
def BooleanExpr.recast : BooleanExpr → BooleanExpr
  | .not operator operand span => .not (ρ operator) operand.recast (σ.span span)
  | .value v => .value v.recast
  | .connective op left operator right => .connective op left.recast (ρ operator) right.recast
  | .isIn v negation items span =>
    .isIn v.recast (negation.map ρ) (ValueExpr.recastAll items) (σ.span span)
  | .isMatch v negation kind pattern span =>
    .isMatch v.recast (negation.map ρ) kind (pattern.recast σ) (σ.span span)
  | .predicate call => .predicate (call.recast σ)

/-- A value with other spans and texts. -/
def ValueExpr.recast : ValueExpr → ValueExpr
  | .operator o => .operator o.recast
  | .comparison left op operator right => .comparison left.recast op (ρ operator) right.recast

/-- An arithmetic expression with other spans and texts. -/
def OperatorExpr.recast : OperatorExpr → OperatorExpr
  | .primary p => .primary p.recast
  | .aggregate name args span =>
    .aggregate (name.recast σ) (args.map (FieldArgument.recast σ)) (σ.span span)
  | .scalar name args span => .scalar (name.recast σ) (ScalarArgument.recastAll args) (σ.span span)
  | .signed sign operator operand span => .signed sign (ρ operator) operand.recast (σ.span span)
  | .binary op operator left right => .binary op (ρ operator) left.recast right.recast

/-- A leaf with other spans and texts. -/
def PrimaryExpr.recast : PrimaryExpr → PrimaryExpr
  | .constant c => .constant (c.recast σ)
  | .field name => .field (name.recast σ)
  | .group inner span => .group inner.recast (σ.span span)
  | .call name args span => .call (name.recast σ) (BooleanExpr.recastAll args) (σ.span span)

/-- An argument with other spans and texts. -/
def ScalarArgument.recast : ScalarArgument → ScalarArgument
  | .value v => .value v.recast
  | .timeSpan t => .timeSpan (t.recast σ)

/-- Conditions with other spans and texts. -/
def BooleanExpr.recastAll : List BooleanExpr → List BooleanExpr
  | [] => []
  | e :: es => e.recast :: BooleanExpr.recastAll es

/-- Values with other spans and texts. -/
def ValueExpr.recastAll : List ValueExpr → List ValueExpr
  | [] => []
  | e :: es => e.recast :: ValueExpr.recastAll es

/-- Arguments with other spans and texts. -/
def ScalarArgument.recastAll : List ScalarArgument → List ScalarArgument
  | [] => []
  | e :: es => e.recast :: ScalarArgument.recastAll es

end

@[simp] theorem BooleanExpr.recastAll_eq (es : List BooleanExpr) :
    recastAll ρ σ es = es.map (recast ρ σ) := by
  induction es with
  | nil => simp [recastAll]
  | cons e es ih => simp [recastAll, ih]

@[simp] theorem ValueExpr.recastAll_eq (es : List ValueExpr) :
    recastAll ρ σ es = es.map (recast ρ σ) := by
  induction es with
  | nil => simp [recastAll]
  | cons e es ih => simp [recastAll, ih]

@[simp] theorem ScalarArgument.recastAll_eq (es : List ScalarArgument) :
    recastAll ρ σ es = es.map (recast ρ σ) := by
  induction es with
  | nil => simp [recastAll]
  | cons e es ih => simp [recastAll, ih]

/-! ## Chains -/

/-- A link with another token, whose operand is changed by `f`. -/
def ChainLink.recast {Op Operand : Type} (f : Operand → Operand) (link : ChainLink Op Operand) :
    ChainLink Op Operand := ⟨link.op, ρ link.operator, f link.right⟩

theorem BooleanExpr.recast_ofChain (first : BooleanExpr)
    (links : List (ChainLink Connective BooleanExpr)) :
    (ofChain first links).recast ρ σ =
      ofChain (first.recast ρ σ) (links.map (ChainLink.recast ρ (recast ρ σ))) := by
  induction links generalizing first with
  | nil => rfl
  | cons link links ih =>
    rw [ofChain, List.foldl_cons, ← ofChain, ih, recast]
    rfl

theorem OperatorExpr.recast_ofChain (first : OperatorExpr)
    (links : List (ChainLink ArithmeticOp OperatorExpr)) :
    (ofChain first links).recast ρ σ =
      ofChain (first.recast ρ σ) (links.map (ChainLink.recast ρ (recast ρ σ))) := by
  induction links generalizing first with
  | nil => rfl
  | cons link links ih =>
    rw [ofChain, List.foldl_cons, ← ofChain, ih, recast]
    rfl

/-! ## Commands -/

def Field.recast (f : Field) : Field :=
  ⟨f.name.map (Identifier.recast σ), f.expression.recast ρ σ, σ.span f.span⟩

def RenameClause.recast (c : RenameClause) : RenameClause :=
  ⟨c.newName.recast σ, c.oldName.recast σ, σ.span c.span⟩

def CommandOption.recast (o : CommandOption) : CommandOption :=
  ⟨o.name.recast σ, o.value.recast σ, σ.span o.span⟩

def SortKey.recast (k : SortKey) : SortKey :=
  ⟨k.expression.recast ρ σ, k.order, k.nulls, σ.span k.span⟩

def EnrichClause.recast (c : EnrichClause) : EnrichClause :=
  ⟨c.newName.map (Identifier.recast σ), c.field.recast σ, σ.span c.span⟩

/-- What a command asks for, with other spans and texts. -/
def ProcessingClause.recast : ProcessingClause → ProcessingClause
  | .eval fields => .eval (fields.map (Field.recast ρ σ))
  | .limit count => .limit (count.recast σ)
  | .keep names => .keep (names.map (QualifiedName.recast σ))
  | .rename clauses => .rename (clauses.map (RenameClause.recast σ))
  | .drop names => .drop (names.map (QualifiedName.recast σ))
  | .dissect names pattern options =>
    .dissect (names.map (QualifiedName.recast σ)) (pattern.recast σ)
      (options.map (List.map (CommandOption.recast σ)))
  | .grok names pattern => .grok (names.map (QualifiedName.recast σ)) (pattern.recast σ)
  | .sort keys => .sort (keys.map (SortKey.recast ρ σ))
  | .stats fields grouping =>
    .stats (fields.map (List.map (Field.recast ρ σ)))
      (grouping.map (List.map (QualifiedName.recast σ)))
  | .filter condition => .filter (condition.recast ρ σ)
  | .mvExpand names => .mvExpand (names.map (QualifiedName.recast σ))
  | .enrich policy matchField clauses =>
    .enrich (policy.recast σ) (matchField.map (Identifier.recast σ))
      (clauses.map (List.map (EnrichClause.recast σ)))

def ProcessingCommand.recast : ProcessingCommand → ProcessingCommand
  | .command keyword clause span => .command (ρ keyword) (clause.recast ρ σ) (σ.span span)
  | .error span => .error (σ.span span)

mutual

/-- A pipeline with other spans and texts. -/
def Query.recast : Query → Query
  | .source command => .source command.recast
  | .pipe query bar command => .pipe query.recast (ρ bar) (command.recast ρ σ)

/-- A source command with other spans and texts. -/
def SourceCommand.recast : SourceCommand → SourceCommand
  | .command keyword clause span => .command (ρ keyword) clause.recast (σ.span span)
  | .error span => .error (σ.span span)

/-- What a source command asks for, with other spans and texts. -/
def SourceClause.recast : SourceClause → SourceClause
  | .explain query => .explain query.recast
  | .indices sources => .indices (sources.map (Identifier.recast σ))
  | .row fields => .row (fields.map (Field.recast ρ σ))
  | .listing target => .listing target

end

theorem Query.recast_ofStages (first : SourceCommand) (stages : List (Token × ProcessingCommand)) :
    (ofStages first stages).recast ρ σ =
      ofStages (first.recast ρ σ)
        (stages.map fun stage => (ρ stage.1, stage.2.recast ρ σ)) := by
  rw [ofStages, ofStages, List.foldl_map]
  have hsource : source (first.recast ρ σ) = (source first).recast ρ σ := by rw [recast]
  rw [hsource]
  exact (List.foldl_hom (recast ρ σ) fun query stage => by rw [recast]).symm

end

/-! ## Spans that are left out or moved -/

/-- A span `n` tokens further on. -/
def Span.moved (n : Nat) (s : Span) : Span := ⟨s.start + n, s.stop + n⟩

namespace Recast

/-- Spans further on in a text. Two queries are the same up to their place in a text when they are
equal after moving each of them by as much as the other one stands further on. -/
def moved (n : Nat) : Recast := ⟨Span.moved n, id⟩

/-- No spans. Two queries are equal up to spans when they are equal without them. -/
abbrev erase : Recast := ⟨fun _ => default, id⟩

end Recast

/-- A query without its spans. -/
def Query.erase (ρ : Token → Token) (q : Query) : Query := q.recast ρ .erase

mutual

/-- The index pattern of a query does not depend on its spans. -/
theorem Query.indexPattern_erase (ρ : Token → Token) :
    ∀ q : Query, (q.erase ρ).indexPattern = q.indexPattern
  | .source command => by
    rw [Query.erase, Query.recast, Query.indexPattern, Query.indexPattern]
    exact command.indexPattern_erase ρ
  | .pipe query _ _ => by
    rw [Query.erase, Query.recast, Query.indexPattern, Query.indexPattern]
    exact query.indexPattern_erase ρ

theorem SourceCommand.indexPattern_erase (ρ : Token → Token) :
    ∀ c : SourceCommand, (c.recast ρ .erase).indexPattern = c.indexPattern
  | .command _ clause _ => by
    simp only [SourceCommand.recast, SourceCommand.indexPattern, clause.indexPattern_erase ρ]
  | .error _ => by simp only [SourceCommand.recast, SourceCommand.indexPattern]

theorem SourceClause.indexPattern_erase (ρ : Token → Token) :
    ∀ c : SourceClause, (c.recast ρ .erase).indexPattern = c.indexPattern
  | .explain query => by
    rw [SourceClause.recast, SourceClause.indexPattern, SourceClause.indexPattern]
    exact query.indexPattern_erase ρ
  | .indices sources => by
    simp only [SourceClause.recast, SourceClause.indexPattern, List.map_map]
    rfl
  | .row _ => rfl
  | .listing _ => rfl

end

end PipeQuery
