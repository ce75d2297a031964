import PipeQuery.ConcreteTree
import PipeQuery.TokenStream

/-!
# The state of the grammar

A `State` is what the rules of the grammar pass on: the tokens that are left, what has been
reported, the regions of the concrete tree, and the events of the run. Its `Scope` says where in the
grammar a rule stands.

A single mistake leads to a single diagnostic: once one is reported, `State.report` holds further
ones back until a token is matched again (`State.bump`). Where a stage cannot be read on, its tokens
are passed over up to the next boundary (`State.resync`).
-/

namespace PipeQuery

/-- How a text is to be read. -/
structure Config where
  /-- The greatest number of expressions and queries inside each other. -/
  maxDepth : Nat := 128
  /-- Whether to repair small mistakes and to go on behind others; otherwise the first mistake ends
  the reading. -/
  recover : Bool := true
deriving DecidableEq, Repr

namespace Grammar

/-- Where in the grammar a rule stands. -/
structure Scope where
  /-- The number of brackets of `EXPLAIN` around it. -/
  subqueries : Nat
  /-- Whether the predicates of filters may be used. -/
  predicates : Bool
deriving DecidableEq, Repr

/-- The outermost scope. -/
def Scope.outermost : Scope := ⟨0, false⟩

/-- What the rules of the grammar pass on. -/
structure State where
  /-- How the text is to be read. -/
  config : Config
  /-- Where the rules stand. -/
  scope : Scope
  /-- The tokens that are left. -/
  stream : TokenStream
  /-- The diagnostics, in the order of the reports. -/
  diagnostics : Array Diagnostic
  /-- Whether a diagnostic was reported and no token has been matched since. -/
  recovering : Bool
  /-- Whether the first diagnostic has ended the reading. -/
  halted : Bool
  /-- The regions of the concrete tree. -/
  regions : Array Region
  /-- What has happened. -/
  events : Array Event

namespace State

/-- The beginning of a text. -/
def start (config : Config) (tokens : List Token) : State where
  config := config
  scope := .outermost
  stream := .ofTokens tokens
  diagnostics := #[]
  recovering := false
  halted := false
  regions := #[]
  events := #[]

/-- The next token. -/
def current (s : State) : Token := s.stream.current

/-- The kind of the next token. -/
def kind (s : State) : Kind := s.stream.kind

/-- The kind of the token after the next one. -/
def kindAfter (s : State) : Kind := (s.stream.lookahead 1).kind

/-- The position of the next token. -/
def position (s : State) : Nat := s.stream.position

/-- Whether the next token ends a stage: a pipe, the end of the input, or the bracket that closes a
query in brackets. -/
def atBoundary (s : State) : Bool :=
  match s.kind with
  | .pipe | .endOfInput => true
  | .rightBracket => decide (0 < s.scope.subqueries)
  | _ => false

theorem atBoundary_iff {s : State} :
    s.atBoundary = true ↔ s.kind = .pipe ∨ s.kind = .endOfInput ∨
      s.kind = .rightBracket ∧ 0 < s.scope.subqueries := by
  unfold atBoundary
  split <;> simp_all

/-- The kinds that may stand behind a whole command. -/
def boundaryKinds (s : State) : KindSet :=
  if 0 < s.scope.subqueries then .ofList [.pipe, .rightBracket] else .ofList [.pipe, .endOfInput]

/-- Away from a boundary there is neither a pipe nor what closes the query. -/
theorem not_mem_boundaryKinds {s : State} (h : s.atBoundary = false) : s.kind ∉ s.boundaryKinds := by
  have hb : ¬ (s.kind = .pipe ∨ s.kind = .endOfInput ∨
      s.kind = .rightBracket ∧ 0 < s.scope.subqueries) := by
    rw [← atBoundary_iff, h]
    exact Bool.false_ne_true
  unfold boundaryKinds
  split <;> simp_all

/-- Matches the next token. -/
def bump (s : State) : State := { s with stream := s.stream.next, recovering := false }

/-- Passes over the next token. -/
def skip (s : State) : State := { s with stream := s.stream.next }

/-- The span from position `start` to the last token that was read. -/
def spanFrom (s : State) (start : Nat) : Span :=
  match s.stream.previous with
  | none => ⟨start, start⟩
  | some i => ⟨start, max (i + 1) start⟩

/-- Takes down an event. -/
def note (s : State) (event : Event) : State := { s with events := s.events.push event }

/-- Lays down a region. -/
def record (s : State) (kind : Kind) (span : Span) : State :=
  { s with regions := s.regions.push ⟨kind, span⟩ }

/-- Reports a diagnostic, unless one before it is not resolved. -/
def report (s : State) (d : Diagnostic) : State :=
  if s.recovering then s.note (.suppressing d)
  else
    { s with
      diagnostics := s.diagnostics.push d
      recovering := true
      halted := s.halted || !s.config.recover }

/-- Blames the next token. -/
def blame (s : State) (cause : Diagnostic.Cause) : State := s.report ⟨cause, s.current⟩

/-- Passes over at most `n` tokens, up to the next boundary; a halted run has no boundaries. -/
def passOver : Nat → State → State
  | 0, s => s
  | n + 1, s =>
    if s.stream.atEnd || (!s.halted && s.atBoundary) then s else passOver n s.skip

/-- Passes over the tokens up to the next boundary, and lays down an error from position `start`
on. -/
def resync (s : State) (start : Nat) : Span × State :=
  let s := s.passOver s.stream.remaining
  let span := s.spanFrom start
  (span, (s.note (.resynchronised s.current span)).record .error span)

/-- Blames the next token for standing behind a whole command, and passes over the stage. -/
def skipExtraneous (s : State) : State :=
  ((s.blame (.extraneous s.boundaryKinds)).resync s.position).2

end State

end Grammar

end PipeQuery
