import PipeQuery.Ast.Query

/-!
# Heights

The height of a query is the greatest number of levels inside each other. A query in brackets is a
level, and so is each expression that stands by itself: an operand of `NOT` or of a sign, a right
operand of a chain, one side of a comparison, an argument, an expression in parentheses, and what a
command asks for. What stands on the left of an infix operator or of a pipe is no level of its own.

`inside` counts the levels inside an expression and leaves out the expression itself. So the right
operands of a chain count alike, however long the chain is (`BooleanExpr.inside_ofChain`).
-/

namespace PipeQuery

/-- The greatest height among some values. -/
def tallest {α : Type} (height : α → Nat) : List α → Nat
  | [] => 0
  | a :: as => max (height a) (tallest height as)

section

variable {α : Type} (height : α → Nat)

@[simp] theorem tallest_nil : tallest height [] = 0 := rfl

@[simp] theorem tallest_cons (a : α) (as : List α) :
    tallest height (a :: as) = max (height a) (tallest height as) := rfl

@[simp] theorem tallest_append (as bs : List α) :
    tallest height (as ++ bs) = max (tallest height as) (tallest height bs) := by
  induction as with
  | nil => simp
  | cons a as ih => simp [ih, Nat.max_assoc]

@[simp] theorem tallest_reverse (as : List α) : tallest height as.reverse = tallest height as := by
  induction as with
  | nil => rfl
  | cons a as ih => simp [ih, Nat.max_comm]

end

/-! ## Expressions -/

mutual

/-- The greatest number of levels inside a condition. -/
def BooleanExpr.inside : BooleanExpr → Nat
  | .not _ operand _ => operand.inside + 1
  | .value v => v.inside
  | .connective _ left _ right => max left.inside (right.inside + 1)
  | .isIn v _ items _ => max v.inside (ValueExpr.insideAll items)
  | .isMatch v _ _ _ _ => v.inside
  | .predicate _ => 0

/-- The greatest number of levels inside a value. -/
def ValueExpr.inside : ValueExpr → Nat
  | .operator o => o.inside + 1
  | .comparison left _ _ right => max (left.inside + 1) (right.inside + 1)

/-- The greatest number of levels inside an arithmetic expression. -/
def OperatorExpr.inside : OperatorExpr → Nat
  | .primary p => p.inside
  | .aggregate .. => 0
  | .scalar _ args _ => ScalarArgument.insideAll args
  | .signed _ _ operand _ => operand.inside + 1
  | .binary _ _ left right => max left.inside (right.inside + 1)

/-- The greatest number of levels inside a leaf. -/
def PrimaryExpr.inside : PrimaryExpr → Nat
  | .constant _ | .field _ => 0
  | .group inner _ => inner.inside + 1
  | .call _ args _ => BooleanExpr.heightAll args

/-- The greatest number of levels inside an argument. -/
def ScalarArgument.inside : ScalarArgument → Nat
  | .value v => v.inside
  | .timeSpan _ => 0

/-- The greatest number of levels among some conditions. -/
def BooleanExpr.heightAll : List BooleanExpr → Nat
  | [] => 0
  | e :: es => max (e.inside + 1) (BooleanExpr.heightAll es)

/-- The greatest number of levels inside some values. -/
def ValueExpr.insideAll : List ValueExpr → Nat
  | [] => 0
  | v :: vs => max v.inside (ValueExpr.insideAll vs)

/-- The greatest number of levels inside some arguments. -/
def ScalarArgument.insideAll : List ScalarArgument → Nat
  | [] => 0
  | a :: as => max a.inside (ScalarArgument.insideAll as)

end

/-- The height of a condition that stands by itself. -/
def BooleanExpr.height (e : BooleanExpr) : Nat := e.inside + 1

/-- The height of an arithmetic expression that stands by itself. -/
def OperatorExpr.height (e : OperatorExpr) : Nat := e.inside + 1

@[simp] theorem BooleanExpr.heightAll_eq (es : List BooleanExpr) :
    heightAll es = tallest height es := by
  induction es with
  | nil => simp [heightAll]
  | cons e es ih => simp [heightAll, ih, height]

@[simp] theorem ValueExpr.insideAll_eq (vs : List ValueExpr) :
    insideAll vs = tallest inside vs := by
  induction vs with
  | nil => simp [insideAll]
  | cons v vs ih => simp [insideAll, ih]

@[simp] theorem ScalarArgument.insideAll_eq (as : List ScalarArgument) :
    insideAll as = tallest inside as := by
  induction as with
  | nil => simp [insideAll]
  | cons a as ih => simp [insideAll, ih]

/-- The right operands of a chain are levels, the first operand is none. -/
theorem BooleanExpr.inside_ofChain (first : BooleanExpr)
    (links : List (ChainLink Connective BooleanExpr)) :
    (ofChain first links).inside = max first.inside (tallest (·.right.height) links) := by
  induction links generalizing first with
  | nil => simp [ofChain]
  | cons link links ih =>
    refine (ih (.connective link.op first link.operator link.right)).trans ?_
    simp [inside, height, Nat.max_assoc]

theorem OperatorExpr.inside_ofChain (first : OperatorExpr)
    (links : List (ChainLink ArithmeticOp OperatorExpr)) :
    (ofChain first links).inside = max first.inside (tallest (·.right.height) links) := by
  induction links generalizing first with
  | nil => simp [ofChain]
  | cons link links ih =>
    refine (ih (.binary link.op link.operator first link.right)).trans ?_
    simp [inside, height, Nat.max_assoc]

/-! ## Queries -/

/-- The height of an expression with an optional name. -/
def Field.height (f : Field) : Nat := f.expression.height

/-- The height of a sort key. -/
def SortKey.height (k : SortKey) : Nat := k.expression.height

/-- The height of what a processing command asks for. -/
def ProcessingClause.height : ProcessingClause → Nat
  | .eval fields => tallest Field.height fields
  | .sort keys => tallest SortKey.height keys
  | .stats fields _ => fields.elim 0 (tallest Field.height)
  | .filter condition => condition.height
  | .limit _ | .keep _ | .rename _ | .drop _ | .dissect .. | .grok .. | .mvExpand _
  | .enrich .. => 0

/-- The height of a command behind a pipe. -/
def ProcessingCommand.height : ProcessingCommand → Nat
  | .command _ clause _ => clause.height
  | .error _ => 0

mutual

/-- The height of a pipeline. -/
def Query.height : Query → Nat
  | .source command => command.height
  | .pipe query _ command => max query.height command.height

/-- The height of a source command. -/
def SourceCommand.height : SourceCommand → Nat
  | .command _ clause _ => clause.height
  | .error _ => 0

/-- The height of what a source command asks for. -/
def SourceClause.height : SourceClause → Nat
  | .explain query => query.height + 1
  | .row fields => tallest Field.height fields
  | .indices _ | .listing _ => 0

end

/-- Stages stand beside each other. -/
theorem Query.height_ofStages (first : SourceCommand)
    (stages : List (Token × ProcessingCommand)) :
    (ofStages first stages).height = max first.height (tallest (·.2.height) stages) := by
  have h (q : Query) : (stages.foldl (fun query stage => .pipe query stage.1 stage.2) q).height
      = max q.height (tallest (·.2.height) stages) := by
    induction stages generalizing q with
    | nil => simp
    | cons stage stages ih =>
      rw [List.foldl_cons, ih, height, tallest_cons, Nat.max_assoc]
  rw [ofStages, h, height]

/-- The height of a statement. -/
def Statement.height (s : Statement) : Nat := s.query.height

end PipeQuery
