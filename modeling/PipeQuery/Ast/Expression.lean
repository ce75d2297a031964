import PipeQuery.Ast.Literal
import PipeQuery.Ast.Name
import PipeQuery.Ast.Operator

/-!
# Expressions

Expressions come in layers. A `BooleanExpr` joins conditions by `NOT`, `AND` and `OR`; its operands
are `ValueExpr`s, each one `OperatorExpr` or a comparison of two. An `OperatorExpr` is arithmetic
over calls and `PrimaryExpr`s, the constants, field references, groups and calls at the leaves.

Infix operators group to the left, so a run of them is a chain along the left edge of the tree.
`BooleanExpr.leftChain` and `OperatorExpr.leftChain` take such a chain apart. The span of a chain
reaches from its leftmost operand to its right operand.
-/

namespace PipeQuery

/-- An argument of an aggregate or of a predicate function. -/
inductive FieldArgument where
  /-- A field. -/
  | field (name : QualifiedName)
  /-- A string. -/
  | string (value : StringLiteral)
  /-- A number. -/
  | numeric (value : NumericValue)
deriving DecidableEq, Repr, Inhabited

/-- The tokens of an argument. -/
def FieldArgument.span : FieldArgument → Span
  | .field name => name.span
  | .string s => s.span
  | .numeric n => n.span

/-- A length of time: a number and a unit, as in `1 day`. -/
structure TimeSpan where
  /-- The number of units. -/
  value : NumericValue
  /-- The unit as written. -/
  unit : String
  /-- The tokens of both. -/
  span : Span
deriving DecidableEq, Repr, Inhabited

/-- A call of a predicate function on a field, as in `cidr_match(ip, "10.0.0.0/8")`. -/
structure PredicateCall where
  /-- The function. -/
  name : Identifier
  /-- The field that the predicate speaks of. -/
  field : QualifiedName
  /-- Further arguments. -/
  args : List FieldArgument
  /-- The tokens of the call. -/
  span : Span
deriving DecidableEq, Repr, Inhabited

mutual

/-- A condition. Membership, pattern matching and predicate functions stand in filters only. -/
inductive BooleanExpr where
  /-- A negation. -/
  | not (operator : Token) (operand : BooleanExpr) (span : Span)
  /-- A value. -/
  | value (value : ValueExpr)
  /-- Two conditions joined by a connective. -/
  | connective (op : Connective) (left : BooleanExpr) (operator : Token) (right : BooleanExpr)
  /-- A membership test; `negation` is the token that turns it round. -/
  | isIn (value : ValueExpr) (negation : Option Token) (items : List ValueExpr) (span : Span)
  /-- A pattern match; `negation` is the token that turns it round. -/
  | isMatch (value : ValueExpr) (negation : Option Token) (kind : PatternKind)
      (pattern : StringLiteral) (span : Span)
  /-- A call of a predicate function. -/
  | predicate (call : PredicateCall)

/-- An arithmetic expression, or a comparison of two. -/
inductive ValueExpr where
  /-- An arithmetic expression. -/
  | operator (value : OperatorExpr)
  /-- A comparison. -/
  | comparison (left : OperatorExpr) (op : ComparisonOp) (operator : Token) (right : OperatorExpr)

/-- An arithmetic expression. -/
inductive OperatorExpr where
  /-- A leaf. -/
  | primary (value : PrimaryExpr)
  /-- A call of an aggregate function. -/
  | aggregate (name : Identifier) (args : List FieldArgument) (span : Span)
  /-- A call of a scalar function. -/
  | scalar (name : Identifier) (args : List ScalarArgument) (span : Span)
  /-- A sign and its operand. -/
  | signed (sign : Sign) (operator : Token) (operand : OperatorExpr) (span : Span)
  /-- Two operands joined by an infix operator. -/
  | binary (op : ArithmeticOp) (operator : Token) (left : OperatorExpr) (right : OperatorExpr)

/-- A leaf of arithmetic. -/
inductive PrimaryExpr where
  /-- A constant. -/
  | constant (value : Constant)
  /-- A field. -/
  | field (name : QualifiedName)
  /-- A condition in parentheses. -/
  | group (inner : BooleanExpr) (span : Span)
  /-- A call of any other function. -/
  | call (name : Identifier) (args : List BooleanExpr) (span : Span)

/-- An argument of a scalar function. -/
inductive ScalarArgument where
  /-- A value. -/
  | value (value : ValueExpr)
  /-- A length of time. -/
  | timeSpan (value : TimeSpan)

end

instance : Inhabited PrimaryExpr := ⟨.constant (.null default)⟩

instance : Inhabited OperatorExpr := ⟨.primary default⟩

instance : Inhabited ValueExpr := ⟨.operator default⟩

instance : Inhabited BooleanExpr := ⟨.value default⟩

/-! ## Chains along the left edge -/

/-- One link of a chain: an operator, its token and its right operand. -/
structure ChainLink (Op Operand : Type) where
  /-- The operator. -/
  op : Op
  /-- The token of the operator. -/
  operator : Token
  /-- The right operand. -/
  right : Operand

namespace BooleanExpr

/-- The leftmost operand of a chain of connectives; any other condition itself. -/
def leftmost : BooleanExpr → BooleanExpr
  | .connective _ left _ _ => left.leftmost
  | e => e

/-- The leftmost operand of a chain of connectives, and then the links of the chain in source
order. -/
def leftChain (e : BooleanExpr) : BooleanExpr × List (ChainLink Connective BooleanExpr) :=
  go e []
where
  /-- Takes a chain apart in front of the links that are known already. -/
  go : BooleanExpr → List (ChainLink Connective BooleanExpr) →
      BooleanExpr × List (ChainLink Connective BooleanExpr)
    | .connective op left operator right, links => go left (⟨op, operator, right⟩ :: links)
    | e, links => (e, links)

/-- The chain with a given leftmost operand and given links. -/
def ofChain (first : BooleanExpr) (links : List (ChainLink Connective BooleanExpr)) : BooleanExpr :=
  links.foldl (fun left link => .connective link.op left link.operator link.right) first

theorem leftChain_go (links : List (ChainLink Connective BooleanExpr)) : ∀ e : BooleanExpr,
    leftChain.go e links = (e.leftmost, e.leftChain.2 ++ links)
  | .connective op left token right => by
    have hleft (links) := leftChain_go links left
    have h : (connective op left token right).leftChain
        = leftChain.go left [⟨op, token, right⟩] := by
      rw [leftChain, leftChain.go]
    rw [leftChain.go, h, hleft, hleft, leftmost, List.append_assoc]
    rfl
  | .not .. | .value _ | .isIn .. | .isMatch .. | .predicate _ => by
    simp [leftChain, leftChain.go, leftmost]

/-- The link of a chain's outermost connective is its last one. -/
theorem leftChain_connective (op : Connective) (left : BooleanExpr) (token : Token)
    (right : BooleanExpr) : (connective op left token right).leftChain
      = (left.leftChain.1, left.leftChain.2 ++ [⟨op, token, right⟩]) := by
  rw [leftChain, leftChain.go, leftChain_go, leftChain, leftChain_go]

theorem leftChain_fst (e : BooleanExpr) : e.leftChain.1 = e.leftmost :=
  congrArg Prod.fst (leftChain_go [] e)

/-- The last link of a chain is the outermost one. -/
theorem ofChain_append_singleton (first : BooleanExpr)
    (links : List (ChainLink Connective BooleanExpr)) (link : ChainLink Connective BooleanExpr) :
    ofChain first (links ++ [link])
      = .connective link.op (ofChain first links) link.operator link.right := by
  simp [ofChain]

/-- A condition is the chain of its links. -/
theorem ofChain_leftChain : ∀ e : BooleanExpr, ofChain e.leftChain.1 e.leftChain.2 = e
  | .connective op left token right => by
    rw [leftChain_connective, ofChain_append_singleton, left.ofChain_leftChain]
  | .not .. | .value _ | .isIn .. | .isMatch .. | .predicate _ => by
    simp [leftChain, leftChain.go, ofChain]

theorem sizeOf_leftmost_le : ∀ e : BooleanExpr, sizeOf e.leftmost ≤ sizeOf e
  | .connective _ left _ _ => by
    have h := left.sizeOf_leftmost_le
    rw [leftmost, connective.sizeOf_spec]
    omega
  | .not .. | .value _ | .isIn .. | .isMatch .. | .predicate _ => by simp [leftmost]

theorem sizeOf_first_lt (op : Connective) (left : BooleanExpr) (token : Token)
    (right : BooleanExpr) : sizeOf (connective op left token right).leftChain.1
      < sizeOf (connective op left token right) := by
  have h := left.sizeOf_leftmost_le
  rw [leftChain_connective, leftChain_fst, connective.sizeOf_spec]
  omega

theorem sizeOf_right_lt {link : ChainLink Connective BooleanExpr} :
    ∀ {e : BooleanExpr}, link ∈ e.leftChain.2 → sizeOf link.right < sizeOf e
  | .connective op left token right, h => by
    rw [leftChain_connective, List.mem_append, List.mem_singleton] at h
    rw [connective.sizeOf_spec]
    rcases h with h | rfl
    · have h := sizeOf_right_lt h
      omega
    · dsimp only
      omega
  | .not .., h | .value _, h | .isIn .., h | .isMatch .., h | .predicate _, h => by
    simp [leftChain, leftChain.go] at h

end BooleanExpr

namespace OperatorExpr

/-- The leftmost operand of a chain of infix operators; any other expression itself. -/
def leftmost : OperatorExpr → OperatorExpr
  | .binary _ _ left _ => left.leftmost
  | e => e

/-- The leftmost operand of a chain of infix operators, and then the links of the chain in source
order. -/
def leftChain (e : OperatorExpr) : OperatorExpr × List (ChainLink ArithmeticOp OperatorExpr) :=
  go e []
where
  /-- Takes a chain apart in front of the links that are known already. -/
  go : OperatorExpr → List (ChainLink ArithmeticOp OperatorExpr) →
      OperatorExpr × List (ChainLink ArithmeticOp OperatorExpr)
    | .binary op operator left right, links => go left (⟨op, operator, right⟩ :: links)
    | e, links => (e, links)

/-- The chain with a given leftmost operand and given links. -/
def ofChain (first : OperatorExpr) (links : List (ChainLink ArithmeticOp OperatorExpr)) :
    OperatorExpr :=
  links.foldl (fun left link => .binary link.op link.operator left link.right) first

theorem leftChain_go (links : List (ChainLink ArithmeticOp OperatorExpr)) : ∀ e : OperatorExpr,
    leftChain.go e links = (e.leftmost, e.leftChain.2 ++ links)
  | .binary op token left right => by
    have hleft (links) := leftChain_go links left
    have h : (binary op token left right).leftChain = leftChain.go left [⟨op, token, right⟩] := by
      rw [leftChain, leftChain.go]
    rw [leftChain.go, h, hleft, hleft, leftmost, List.append_assoc]
    rfl
  | .primary _ | .aggregate .. | .scalar .. | .signed .. => by
    simp [leftChain, leftChain.go, leftmost]

/-- The link of a chain's outermost operator is its last one. -/
theorem leftChain_binary (op : ArithmeticOp) (token : Token) (left right : OperatorExpr) :
    (binary op token left right).leftChain
      = (left.leftChain.1, left.leftChain.2 ++ [⟨op, token, right⟩]) := by
  rw [leftChain, leftChain.go, leftChain_go, leftChain, leftChain_go]

theorem leftChain_fst (e : OperatorExpr) : e.leftChain.1 = e.leftmost :=
  congrArg Prod.fst (leftChain_go [] e)

/-- The last link of a chain is the outermost one. -/
theorem ofChain_append_singleton (first : OperatorExpr)
    (links : List (ChainLink ArithmeticOp OperatorExpr))
    (link : ChainLink ArithmeticOp OperatorExpr) :
    ofChain first (links ++ [link])
      = .binary link.op link.operator (ofChain first links) link.right := by
  simp [ofChain]

/-- An arithmetic expression is the chain of its links. -/
theorem ofChain_leftChain : ∀ e : OperatorExpr, ofChain e.leftChain.1 e.leftChain.2 = e
  | .binary op token left right => by
    rw [leftChain_binary, ofChain_append_singleton, left.ofChain_leftChain]
  | .primary _ | .aggregate .. | .scalar .. | .signed .. => by
    simp [leftChain, leftChain.go, ofChain]

theorem sizeOf_leftmost_le : ∀ e : OperatorExpr, sizeOf e.leftmost ≤ sizeOf e
  | .binary _ _ left _ => by
    have h := left.sizeOf_leftmost_le
    rw [leftmost, binary.sizeOf_spec]
    omega
  | .primary _ | .aggregate .. | .scalar .. | .signed .. => by simp [leftmost]

theorem sizeOf_first_lt (op : ArithmeticOp) (token : Token) (left right : OperatorExpr) :
    sizeOf (binary op token left right).leftChain.1 < sizeOf (binary op token left right) := by
  have h := left.sizeOf_leftmost_le
  rw [leftChain_binary, leftChain_fst, binary.sizeOf_spec]
  omega

theorem sizeOf_right_lt {link : ChainLink ArithmeticOp OperatorExpr} :
    ∀ {e : OperatorExpr}, link ∈ e.leftChain.2 → sizeOf link.right < sizeOf e
  | .binary op token left right, h => by
    rw [leftChain_binary, List.mem_append, List.mem_singleton] at h
    rw [binary.sizeOf_spec]
    rcases h with h | rfl
    · have h := sizeOf_right_lt h
      omega
    · dsimp only
      omega
  | .primary _, h | .aggregate .., h | .scalar .., h | .signed .., h => by
    simp [leftChain, leftChain.go] at h

end OperatorExpr

/-! ## Spans -/

/-- The tokens of a leaf. -/
def PrimaryExpr.span : PrimaryExpr → Span
  | .constant c => c.span
  | .field name => name.span
  | .group _ span | .call _ _ span => span

mutual

/-- The tokens of an arithmetic expression. -/
def OperatorExpr.span : OperatorExpr → Span
  | .primary p => p.span
  | .aggregate _ _ span | .scalar _ _ span | .signed _ _ _ span => span
  | .binary _ _ left right => left.leftSpan.cover right.span

/-- The tokens of the leftmost operand of an arithmetic expression. -/
def OperatorExpr.leftSpan : OperatorExpr → Span
  | .primary p => p.span
  | .aggregate _ _ span | .scalar _ _ span | .signed _ _ _ span => span
  | .binary _ _ left _ => left.leftSpan

end

/-- The tokens of a value. -/
def ValueExpr.span : ValueExpr → Span
  | .operator o => o.span
  | .comparison left _ _ right => left.span.cover right.span

mutual

/-- The tokens of a condition. -/
def BooleanExpr.span : BooleanExpr → Span
  | .not _ _ span | .isIn _ _ _ span | .isMatch _ _ _ _ span => span
  | .value v => v.span
  | .connective _ left _ right => left.leftSpan.cover right.span
  | .predicate call => call.span

/-- The tokens of the leftmost operand of a condition. -/
def BooleanExpr.leftSpan : BooleanExpr → Span
  | .not _ _ span | .isIn _ _ _ span | .isMatch _ _ _ _ span => span
  | .value v => v.span
  | .connective _ left _ _ => left.leftSpan
  | .predicate call => call.span

end

theorem OperatorExpr.leftSpan_eq : ∀ e : OperatorExpr, e.leftSpan = e.leftmost.span
  | .binary _ _ left _ => by simpa [leftSpan, leftmost] using left.leftSpan_eq
  | .primary _ | .aggregate .. | .scalar .. | .signed .. => by simp [leftSpan, leftmost, span]

theorem BooleanExpr.leftSpan_eq : ∀ e : BooleanExpr, e.leftSpan = e.leftmost.span
  | .connective _ left _ _ => by simpa [leftSpan, leftmost] using left.leftSpan_eq
  | .not .. | .value _ | .isIn .. | .isMatch .. | .predicate _ => by
    simp [leftSpan, leftmost, span]

/-- The tokens of an argument. -/
def ScalarArgument.span : ScalarArgument → Span
  | .value v => v.span
  | .timeSpan t => t.span

end PipeQuery
