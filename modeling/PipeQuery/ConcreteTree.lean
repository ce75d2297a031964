import PipeQuery.Event

/-!
# Concrete trees

A `ConcreteTree` has every token of a text as a leaf, blanks and comments included, so it gives the
text back whatever was read from it. Its inner nodes come from regions: spans of tokens with a kind,
which the grammar lays down in any order (`Region`).

`ConcreteTree.ofRegions` builds the tree in one pass over the tokens. Regions open in the order of
their starts, and of those with one start the longest opens first. A region that would start inside
an earlier one that has been passed by is left out. A token that is no token of the language gets a
node of its own.
-/

namespace PipeQuery

/-- A span of tokens that is a node of the concrete tree. -/
structure Region where
  /-- The kind of the node. -/
  kind : Kind
  /-- The tokens of the node. -/
  span : Span
deriving DecidableEq, Repr, Inhabited

/-- A tree over all the tokens of a text. -/
inductive ConcreteTree where
  /-- A token. -/
  | leaf (token : Token)
  /-- A node. -/
  | node (kind : Kind) (children : List ConcreteTree)
deriving Inhabited

namespace ConcreteTree

/-- The tokens of a tree in order, in front of further tokens. -/
def leavesThen : ConcreteTree → List Token → List Token
  | leaf token, rest => token :: rest
  | node _ children, rest => forest children rest
where
  /-- The tokens of several trees in order, in front of further tokens. -/
  forest : List ConcreteTree → List Token → List Token
    | [], rest => rest
    | tree :: trees, rest => leavesThen tree (forest trees rest)

/-- The tokens of a tree in order. -/
def leaves (tree : ConcreteTree) : List Token := tree.leavesThen []

/-- The text of a tree. -/
def text (tree : ConcreteTree) : String := String.join (tree.leaves.map Token.text)

mutual

theorem leavesThen_append (tree : ConcreteTree) (l m : List Token) :
    tree.leavesThen (l ++ m) = tree.leavesThen l ++ m := by
  cases tree with
  | leaf token => rfl
  | node kind children => exact forest_append children l m

theorem forest_append (trees : List ConcreteTree) (l m : List Token) :
    leavesThen.forest trees (l ++ m) = leavesThen.forest trees l ++ m := by
  cases trees with
  | nil => rfl
  | cons tree trees =>
    rw [leavesThen.forest, leavesThen.forest, forest_append trees l m, leavesThen_append]

end

/-- The tokens of a tree come before what they are put in front of. -/
theorem leavesThen_eq (tree : ConcreteTree) (rest : List Token) :
    tree.leavesThen rest = tree.leaves ++ rest := leavesThen_append tree [] rest

@[simp] theorem leaves_leaf (token : Token) : (leaf token).leaves = [token] := rfl

/-- The tokens of a node are those of its children, one after another. -/
theorem leaves_node (kind : Kind) (children : List ConcreteTree) :
    (node kind children).leaves = children.flatMap leaves := by
  change leavesThen.forest children [] = _
  induction children with
  | nil => rfl
  | cons tree trees ih => rw [leavesThen.forest, ih, leavesThen_eq, List.flatMap_cons]

/-! ## Building a tree -/

/-- Whether a region opens before another one, or together with it. -/
def opensBefore (r s : Region) : Bool :=
  r.span.start < s.span.start || (r.span.start == s.span.start && s.span.stop ≤ r.span.stop)

/-- The regions that have tokens, in the order in which they open. -/
def openingOrder (regions : List Region) : List Region :=
  (regions.filter (!·.span.isEmpty)).mergeSort opensBefore

/-- A node that is open: its kind, the position where it stops, and the trees in front of it under
the node around it, last one first. -/
structure Opening where
  /-- The kind of the node. -/
  kind : Kind
  /-- The position just past its last token. -/
  stop : Nat
  /-- The trees in front of the node, last one first. -/
  before : List ConcreteTree

/-- A tree that is being built. -/
structure Builder where
  /-- The trees under the innermost open node, last one first. -/
  trees : List ConcreteTree
  /-- The open nodes, innermost first. -/
  openings : List Opening
  /-- The regions that have not been met yet. -/
  pending : List Region
  /-- The end of the text so far. -/
  textEnd : Nat
  /-- What did not fit, last one first. -/
  events : List Event

namespace Builder

/-- A tree of which nothing has been built. -/
def start (regions : List Region) : Builder := ⟨[], [], openingOrder regions, 0, []⟩

/-- Closes the open nodes, from the innermost one outwards, as long as they stop no later than
`position`. -/
def closeAt (position : Nat) : List Opening → List ConcreteTree →
    List Opening × List ConcreteTree
  | [], trees => ([], trees)
  | o :: openings, trees =>
    if o.stop ≤ position then closeAt position openings (.node o.kind trees.reverse :: o.before)
    else (o :: openings, trees)

/-- Opens the regions that start at `position`, and leaves out those that start in front of it. -/
def openAt (position : Nat) : List Region → Builder → Builder
  | [], b => { b with pending := [] }
  | r :: pending, b =>
    if r.span.start < position then
      openAt position pending { b with events := .crossingRegion r.kind r.span :: b.events }
    else if r.span.start = position then
      openAt position pending
        { b with openings := ⟨r.kind, r.span.stop, b.trees⟩ :: b.openings, trees := [] }
    else { b with pending := r :: pending }

/-- Takes down a token whose text overlaps what is in front of it. -/
def checkToken (token : Token) (b : Builder) : Builder :=
  if token.start ≤ token.stop && b.textEnd ≤ token.start then { b with textEnd := token.stop }
  else { b with events := .overlappingToken token.start token.stop b.textEnd :: b.events }

/-- The tree of a single token. -/
def tokenTree (token : Token) : ConcreteTree :=
  if token.kind = .error then .node .error [.leaf token] else .leaf token

/-- Adds the token at `position`. -/
def add (b : Builder) (position : Nat) (token : Token) : Builder :=
  let (openings, trees) := closeAt position b.openings b.trees
  let b := openAt position b.pending { b with openings := openings, trees := trees }
  let b := checkToken token b
  { b with trees := tokenTree token :: b.trees }

/-- Adds tokens from `position` on. -/
def addAll (b : Builder) (position : Nat) : List Token → Builder
  | [] => b
  | token :: tokens => (b.add position token).addAll (position + 1) tokens

/-- Closes all the open nodes, from the innermost one outwards. -/
def closeAll : List Opening → List ConcreteTree → List ConcreteTree
  | [], trees => trees
  | o :: openings, trees => closeAll openings (.node o.kind trees.reverse :: o.before)

/-- The tree, with every node closed. -/
def finish (b : Builder) : ConcreteTree :=
  .node .statement (closeAll b.openings b.trees).reverse

end Builder

/-- The tree of some tokens and regions, and what did not fit. -/
def ofRegions (tokens : List Token) (regions : List Region) : ConcreteTree × List Event :=
  let b := (Builder.start regions).addAll 0 tokens
  (b.finish, b.events.reverse)

end ConcreteTree

end PipeQuery
