import PipeQuery.Diagnostic
import PipeQuery.Span

/-!
# Events

An `Event` is a step of a run that someone who follows it may want to see: a command that is
started, a repair, a diagnostic that is held back, tokens that are passed over, and what does not
fit when the concrete tree is built. `Event.level` says how much the step matters, and
`Event.message` words it.
-/

namespace PipeQuery

/-- How much an event matters. -/
inductive Event.Level where
  /-- The ordinary course. -/
  | trace
  /-- A repair or a summary. -/
  | debug
  /-- Something that does not fit. -/
  | warn
deriving DecidableEq, Repr

/-- The level in a log. -/
def Event.Level.symbol : Event.Level → String
  | trace => "TRACE"
  | debug => "DEBUG"
  | warn => "WARN"

/-- A step of a run. -/
inductive Event where
  /-- A source command starts at a token. -/
  | sourceCommand (token : Token)
  /-- A processing command starts at a token. -/
  | processingCommand (token : Token)
  /-- A token is passed over to get to an expected one. -/
  | deleting (token : Token)
  /-- An expected token is taken for granted in front of a token. -/
  | inserting (expected : KindSet) (token : Token)
  /-- A diagnostic is held back, as the one before it is not resolved. -/
  | suppressing (diagnostic : Diagnostic)
  /-- Reading goes on at a token, after the tokens of a span were passed over. -/
  | resynchronised (token : Token) (span : Span)
  /-- A statement was read to its end. -/
  | parsed (tokens diagnostics regions : Nat)
  /-- The text of a token starts before the end of an earlier one, or ends before its own start. -/
  | overlappingToken (start stop previous : Nat)
  /-- A region starts inside an earlier one that ended in between. -/
  | crossingRegion (kind : Kind) (span : Span)
deriving DecidableEq, Repr

namespace Event

/-- How much the event matters. -/
def level : Event → Level
  | sourceCommand _ | processingCommand _ => .trace
  | deleting _ | inserting _ _ | suppressing _ | resynchronised _ _ | parsed _ _ _ => .debug
  | overlappingToken _ _ _ | crossingRegion _ _ => .warn

/-- A half-open range. -/
private def range (start stop : Nat) : String := toString start ++ ".." ++ toString stop

/-- The wording of the event. -/
def message : Event → String
  | sourceCommand token => "source command at '" ++ token.shown ++ "'"
  | processingCommand token => "processing command at '" ++ token.shown ++ "'"
  | deleting token =>
    "deleting '" ++ token.shown ++ "' at " ++ toString token.line ++ ":" ++ toString token.column
  | inserting expected token =>
    "inserting " ++ expected.wording ++ " before '" ++ token.shown ++ "' at "
      ++ toString token.line ++ ":" ++ toString token.column
  | suppressing diagnostic => "suppressing follow-on error: " ++ diagnostic.text
  | resynchronised token span =>
    "resynchronised at '" ++ token.shown ++ "' after skipping tokens " ++ range span.start span.stop
  | parsed tokens diagnostics regions =>
    "parsed " ++ toString tokens ++ " tokens with " ++ toString diagnostics ++ " error(s) and "
      ++ toString regions ++ " node span(s)"
  | overlappingToken start stop previous =>
    "token span " ++ range start stop ++ " overlaps the previous token ending at "
      ++ toString previous
  | crossingRegion kind span =>
    kind.symbol ++ " span " ++ range span.start span.stop ++ " starts inside an earlier node"

end Event

end PipeQuery
