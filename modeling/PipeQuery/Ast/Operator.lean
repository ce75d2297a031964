import PipeQuery.Kind

/-!
# Operators

The operators and modifiers of the language, how they are written, and how tightly they bind.

An infix operator binds its left operand with `leftPower` and its right operand with the next higher
power, so operators of one level group to the left. `NOT` and the signs bind their operand more
tightly than every infix operator of their layer.
-/

namespace PipeQuery

/-- Whether two texts are equal up to the case of ASCII letters. -/
def sameWord (s t : String) : Bool := s.toLower == t.toLower

theorem sameWord_congr {s s' : String} (h : s.toLower = s'.toLower) (t : String) :
    sameWord s t = sameWord s' t := by
  rw [sameWord, sameWord, h]

/-- The connectives of conditions. -/
inductive Connective where
  /-- Both conditions. -/
  | and
  /-- One of the conditions. -/
  | or
deriving DecidableEq, Repr, Inhabited

namespace Connective

/-- The connective as a keyword. -/
def keyword : Connective → String
  | and => "AND"
  | or => "OR"

/-- How tightly the left operand is bound. -/
def leftPower : Connective → Nat
  | and => 2
  | or => 1

/-- How tightly the right operand is bound. -/
def rightPower (c : Connective) : Nat := c.leftPower + 1

/-- The connective that a kind of token stands for. -/
def ofKind? : Kind → Option Connective
  | .kwAnd => some and
  | .kwOr => some or
  | _ => none

/-- How tightly `NOT` binds its operand. -/
def notPower : Nat := 4

end Connective

/-- The infix operators of arithmetic. -/
inductive ArithmeticOp where
  /-- Addition. -/
  | add
  /-- Subtraction. -/
  | sub
  /-- Multiplication. -/
  | mul
  /-- Division. -/
  | div
  /-- Remainder. -/
  | mod
deriving DecidableEq, Repr, Inhabited

namespace ArithmeticOp

/-- The operator as written. -/
def symbol : ArithmeticOp → String
  | add => "+"
  | sub => "-"
  | mul => "*"
  | div => "/"
  | mod => "%"

/-- How tightly the left operand is bound. -/
def leftPower : ArithmeticOp → Nat
  | mul | div | mod => 2
  | add | sub => 1

/-- How tightly the right operand is bound. -/
def rightPower (op : ArithmeticOp) : Nat := op.leftPower + 1

/-- The operator that a kind of token stands for. -/
def ofKind? : Kind → Option ArithmeticOp
  | .asterisk => some mul
  | .slash => some div
  | .percent => some mod
  | .plus => some add
  | .minus => some sub
  | _ => none

end ArithmeticOp

/-- The signs in front of an operand. -/
inductive Sign where
  /-- A plus sign. -/
  | plus
  /-- A minus sign. -/
  | minus
deriving DecidableEq, Repr, Inhabited

namespace Sign

/-- The sign as written. -/
def symbol : Sign → String
  | plus => "+"
  | minus => "-"

/-- The sign that a kind of token stands for. -/
def ofKind? : Kind → Option Sign
  | .plus => some plus
  | .minus => some minus
  | _ => none

/-- How tightly a sign binds its operand. -/
def power : Nat := 3

end Sign

/-- The comparison operators. -/
inductive ComparisonOp where
  /-- Equal. -/
  | eq
  /-- Not equal. -/
  | neq
  /-- Less. -/
  | lt
  /-- Less or equal. -/
  | lte
  /-- Greater. -/
  | gt
  /-- Greater or equal. -/
  | gte
deriving DecidableEq, Repr, Inhabited

namespace ComparisonOp

/-- The operator as written. -/
def symbol : ComparisonOp → String
  | eq => "=="
  | neq => "!="
  | lt => "<"
  | lte => "<="
  | gt => ">"
  | gte => ">="

/-- The operator with a given spelling. -/
def ofText? (text : String) : Option ComparisonOp :=
  [eq, neq, lt, lte, gt, gte].find? (·.symbol == text)

end ComparisonOp

/-- The two kinds of pattern matching. -/
inductive PatternKind where
  /-- Wildcards, after `LIKE`. -/
  | like
  /-- Regular expressions, after `RLIKE`. -/
  | rlike
deriving DecidableEq, Repr, Inhabited

namespace PatternKind

/-- The operator as a keyword. -/
def keyword : PatternKind → String
  | like => "LIKE"
  | rlike => "RLIKE"

/-- The kind of matching that a kind of token stands for. -/
def ofKind? : Kind → Option PatternKind
  | .kwLike => some like
  | .kwRlike => some rlike
  | _ => none

end PatternKind

/-- The direction of a sort. -/
inductive SortOrder where
  /-- Least first. -/
  | asc
  /-- Greatest first. -/
  | desc
deriving DecidableEq, Repr, Inhabited

namespace SortOrder

/-- The direction as a keyword. -/
def keyword : SortOrder → String
  | asc => "ASC"
  | desc => "DESC"

/-- The direction that a word stands for; only `DESC` sorts downwards. -/
def ofText (text : String) : SortOrder :=
  if sameWord text "desc" then desc else asc

theorem ofText_congr {s t : String} (h : s.toLower = t.toLower) : ofText s = ofText t := by
  rw [ofText, ofText, sameWord_congr h]

end SortOrder

/-- Where a sort puts missing values. -/
inductive NullsOrder where
  /-- In front. -/
  | first
  /-- At the end. -/
  | last
deriving DecidableEq, Repr, Inhabited

namespace NullsOrder

/-- The place as a keyword. -/
def keyword : NullsOrder → String
  | first => "FIRST"
  | last => "LAST"

/-- The place that a word stands for. -/
def ofText? (text : String) : Option NullsOrder :=
  if sameWord text "first" then some first
  else if sameWord text "last" then some last
  else none

theorem ofText?_congr {s t : String} (h : s.toLower = t.toLower) : ofText? s = ofText? t := by
  rw [ofText?, ofText?, sameWord_congr h, sameWord_congr h]

end NullsOrder

/-- What a listing shows. -/
inductive ShowTarget where
  /-- The version and build. -/
  | info
  /-- The functions. -/
  | functions
deriving DecidableEq, Repr, Inhabited

namespace ShowTarget

/-- The target as a keyword. -/
def keyword : ShowTarget → String
  | info => "INFO"
  | functions => "FUNCTIONS"

/-- The target that a kind of token stands for. -/
def ofKind? : Kind → Option ShowTarget
  | .kwInfo => some info
  | .kwFunctions => some functions
  | _ => none

end ShowTarget

end PipeQuery
