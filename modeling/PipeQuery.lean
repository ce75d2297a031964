import PipeQuery.Ast.Outline
import PipeQuery.Ast.Text
import PipeQuery.Main
import PipeQuery.Proofs.KindSets
import PipeQuery.Proofs.Steps
import PipeQuery.Proofs.Lawful
import PipeQuery.Proofs.Accepts
import PipeQuery.Proofs.Derivation
import PipeQuery.Proofs.Repeats
import PipeQuery.Proofs.SoundLeaf
import PipeQuery.Proofs.SoundExpression
import PipeQuery.Proofs.SoundCondition
import PipeQuery.Proofs.SoundQuery
import PipeQuery.Proofs.Spans
import PipeQuery.Proofs.SpanBounds
import PipeQuery.Proofs.Fronts
import PipeQuery.Proofs.Readings
import PipeQuery.Proofs.CompleteLeaf
import PipeQuery.Proofs.CompleteExpression
import PipeQuery.Proofs.CompleteCondition
import PipeQuery.Proofs.CompleteQuery
import PipeQuery.Proofs.Acceptance
import PipeQuery.Proofs.Regions
import PipeQuery.Proofs.ConcreteTrees
import PipeQuery.Proofs.BalancedTrees
import PipeQuery.Proofs.Printing
import PipeQuery.Proofs.PrintedQuery
import PipeQuery.Proofs.RoundTrip
import PipeQuery.Proofs.StrictReading
import PipeQuery.Proofs.HaltedReading
import PipeQuery.Proofs.SameStage
import PipeQuery.Proofs.Isolation
import PipeQuery.Proofs.Bars
import PipeQuery.Proofs.ViablePrefix
import PipeQuery.Proofs.Places
import PipeQuery.Proofs.SameTokens
import PipeQuery.Proofs.EndLeftOut
import PipeQuery.Proofs.Blames
import PipeQuery.Proofs.NestingLimit
import PipeQuery.Proofs.Layout
import PipeQuery.Proofs.LetterCase
import PipeQuery.Proofs.Repairs
import PipeQuery.Proofs.RepairedLeaf
import PipeQuery.Proofs.RepairedExpression
import PipeQuery.Proofs.RepairedCondition
import PipeQuery.Proofs.RepairedCommand
import PipeQuery.Proofs.RepairedQuery
import PipeQuery.Proofs.ModeFlow
import PipeQuery.Proofs.Recuts
import PipeQuery.Proofs.RepairedText
import PipeQuery.Proofs.WellFormed
import PipeQuery.Proofs.Chains
import PipeQuery.Proofs.Visits
import PipeQuery.Proofs.VisitedTokens
import PipeQuery.Proofs.Blanks
import PipeQuery.Proofs.Ahead
import PipeQuery.Proofs.Wrapped
import PipeQuery.Proofs.Embedded
import PipeQuery.Proofs.QuotedNames
import PipeQuery.Proofs.QuotedStrings
import PipeQuery.Proofs.Brackets
import PipeQuery.Proofs.QueryFrames
import PipeQuery.Proofs.Cursors
import PipeQuery.Proofs.WatchedRules
import PipeQuery.Proofs.CallStacks
import PipeQuery.Proofs.Termination
import PipeQuery.Proofs.RestoredContext
import PipeQuery.Proofs.Mishaps
import PipeQuery.Proofs.BackedTrees
import PipeQuery.Proofs.Reported
