import PipeQuery.Proofs.LoopPrinting
import PipeQuery.Proofs.SpanBounds
import PipeQuery.Proofs.WellFormed

/-!
# Chains by loops

A chain of connectives or infix operators, and a pipeline, nests along its left edge as deeply as it
is long. `leftChain` and `Query.stages` take it apart in a loop, and its text and its s-expression
can be written in one pass over the links, by `infixText` and by `leftNested`. The printers that do
so at every level (`BooleanExpr.loopText`, `Query.loopSexpr` and so on) write what the recursion
along the tree writes.

The span of a chain that is read needs no recursion either: the spans of its leftmost operand and of
its last one are enough, and cover what the spans of its two sides cover (`Phrase.Covers`).
-/

namespace PipeQuery

/-! ## Chains of connectives -/

namespace BooleanExpr

/-- The leftmost operand is no chain. -/
theorem connective?_leftmost : ∀ e : BooleanExpr, e.leftmost.connective? = none
  | .connective _ left _ _ => by simpa [leftmost] using left.connective?_leftmost
  | .not .. | .value _ | .isIn .. | .isMatch .. | .predicate _ => by simp [leftmost, connective?]

/-- The loops over the chain of a condition take apart and write what the recursion does. -/
structure ByLoop (e : BooleanExpr) : Prop where
  /-- The links put together again make the condition. -/
  refold : ofChain e.leftChain.1 e.leftChain.2 = e
  /-- The first operand is no chain. -/
  first : e.leftChain.1.connective? = none
  /-- The s-expression in one pass. -/
  sexpr : leftNested e.leftChain.1.sexpr
    (e.leftChain.2.map fun link => (link.op.tag, link.right.sexpr)) = e.sexpr
  /-- The text in one pass. -/
  text : infixText e.leftChain.1.text
    (e.leftChain.2.map fun link => (link.op.keyword, link.right.text)) = e.text
  /-- The s-expression where each chain in the condition is written in one pass. -/
  loopSexpr : e.loopSexpr = e.sexpr
  /-- The text where each chain in the condition is written in one pass. -/
  loopText : e.loopText = e.text

theorem byLoop (e : BooleanExpr) : e.ByLoop where
  refold := e.ofChain_leftChain
  first := e.leftChain_fst ▸ e.connective?_leftmost
  sexpr := e.leftNested_leftChain
  text := e.infixText_leftChain
  loopSexpr := e.loops_eq.1
  loopText := e.loops_eq.2

end BooleanExpr

/-! ## Chains of infix operators -/

namespace OperatorExpr

/-- The leftmost operand is no chain. -/
theorem arithmeticOp?_leftmost : ∀ e : OperatorExpr, e.leftmost.arithmeticOp? = none
  | .binary _ _ left _ => by simpa [leftmost] using left.arithmeticOp?_leftmost
  | .primary _ | .aggregate .. | .scalar .. | .signed .. => by simp [leftmost, arithmeticOp?]

/-- The loops over the chain of an arithmetic expression take apart and write what the recursion
does. -/
structure ByLoop (e : OperatorExpr) : Prop where
  /-- The links put together again make the expression. -/
  refold : ofChain e.leftChain.1 e.leftChain.2 = e
  /-- The first operand is no chain. -/
  first : e.leftChain.1.arithmeticOp? = none
  /-- The s-expression in one pass. -/
  sexpr : leftNested e.leftChain.1.sexpr
    (e.leftChain.2.map fun link => (link.op.symbol, link.right.sexpr)) = e.sexpr
  /-- The text in one pass. -/
  text : infixText e.leftChain.1.text
    (e.leftChain.2.map fun link => (link.op.symbol, link.right.text)) = e.text
  /-- The s-expression where each chain in the expression is written in one pass. -/
  loopSexpr : e.loopSexpr = e.sexpr
  /-- The text where each chain in the expression is written in one pass. -/
  loopText : e.loopText = e.text

theorem byLoop (e : OperatorExpr) : e.ByLoop where
  refold := e.ofChain_leftChain
  first := e.leftChain_fst ▸ e.arithmeticOp?_leftmost
  sexpr := e.leftNested_leftChain
  text := e.infixText_leftChain
  loopSexpr := e.loops_eq.1
  loopText := e.loops_eq.2

end OperatorExpr

/-! ## Pipelines -/

namespace Query

/-- The loops over a pipeline take apart and write what the recursion does. -/
structure ByLoop (q : Query) : Prop where
  /-- The first command and the stages put together again make the pipeline. -/
  refold : ofStages q.sourceCommand q.stages = q
  /-- The s-expression in one pass. -/
  sexpr : leftNested q.sourceCommand.sexpr
    (q.processingCommands.map fun command => ("pipe", command.sexpr)) = q.sexpr
  /-- The text in one pass. -/
  text : infixText q.sourceCommand.text
    (q.processingCommands.map fun command => ("|", command.text)) = q.text
  /-- The s-expression where each chain and each pipeline in the query is written in one pass. -/
  loopSexpr : q.loopSexpr = q.sexpr
  /-- The text where each chain and each pipeline in the query is written in one pass. -/
  loopText : q.loopText = q.text

theorem byLoop (q : Query) : q.ByLoop where
  refold := q.ofStages_stages
  sexpr := q.leftNested_stages
  text := q.infixText_stages
  loopSexpr := q.loops_eq.1
  loopText := q.loops_eq.2

end Query

/-! ## Spans -/

namespace Grammar

open Rule

variable {len : Nat}

theorem inRange_wholeExpression (levels : Nat) :
    (wholeExpression levels).InRange len .boolean := by
  unfold wholeExpression
  exact ((inRange_expressions levels).boolean 0).bind fun e he => Ensures.next fun atEnd =>
    Ensures.ite (Ensures.pure he) Ensures.giveUp

end Grammar

/-- In a statement that is read, the span of a chain covers those of its sides, whatever was
reported. -/
theorem covers_below_parse (tokens : List Token) (config : Config) {p : Phrase}
    (hp : (Phrase.query (parse tokens config).statement.query).Below p) : p.Covers :=
  (Grammar.inRange_query config.maxDepth (Grammar.State.regular_start config tokens) rfl p hp).2

theorem covers_below_parseExpression {text : String} {e : BooleanExpr}
    (h : (parseExpression text).result = .ok e) {p : Phrase} (hp : (Phrase.boolean e).Below p) :
    p.Covers := by
  obtain ⟨t, hrun, -⟩ := parseExpression_eq_ok_iff.1 h
  have hrange := Grammar.inRange_wholeExpression _ _ _ e (Grammar.State.regular_start {} _) rfl hrun
  exact (hrange p hp).2

/-! ## Loops and recursion -/

/-- Chains may be handled by loops. For all conditions, arithmetic expressions and pipelines, also
those that no text is read as, the links are taken apart so that they can be put together again, and
what is written in one pass over them, here or in all the chains further in, is what the recursion
writes, which has a form or an infix operator for each link. In all that is read, the span of a
chain is the cover of its two sides. -/
theorem chains_byLoop :
    ((∀ e : BooleanExpr, e.ByLoop) ∧ (∀ e : OperatorExpr, e.ByLoop) ∧ ∀ q : Query, q.ByLoop) ∧
    ((∀ op left token right,
        (BooleanExpr.connective op left token right).sexpr
          = "(" ++ op.tag ++ " " ++ left.sexpr ++ " " ++ right.sexpr ++ ")" ∧
        (BooleanExpr.connective op left token right).text
          = left.text ++ " " ++ op.keyword ++ " " ++ right.text) ∧
      (∀ op token left right,
        (OperatorExpr.binary op token left right).sexpr
          = "(" ++ op.symbol ++ " " ++ left.sexpr ++ " " ++ right.sexpr ++ ")" ∧
        (OperatorExpr.binary op token left right).text
          = left.text ++ " " ++ op.symbol ++ " " ++ right.text) ∧
      ∀ q bar command,
        (Query.pipe q bar command).sexpr
          = "(" ++ "pipe" ++ " " ++ q.sexpr ++ " " ++ command.sexpr ++ ")" ∧
        (Query.pipe q bar command).text = q.text ++ " | " ++ command.text) ∧
    (∀ tokens config p, (Phrase.query (parse tokens config).statement.query).Below p → p.Covers) ∧
    ∀ text e, (parseExpression text).result = .ok e → ∀ p, (Phrase.boolean e).Below p →
      p.Covers := by
  refine ⟨⟨BooleanExpr.byLoop, OperatorExpr.byLoop, Query.byLoop⟩, ⟨?_, ?_, ?_⟩,
    fun tokens config p hp => covers_below_parse tokens config hp,
    fun text e h p hp => covers_below_parseExpression h hp⟩
  · exact fun op left token right => ⟨by rw [BooleanExpr.sexpr, form₂], by rw [BooleanExpr.text]⟩
  · exact fun op token left right => ⟨by rw [OperatorExpr.sexpr, form₂], by rw [OperatorExpr.text]⟩
  · exact fun q bar command => ⟨by rw [Query.sexpr, form₂], by rw [Query.text]⟩

theorem chains_byLoop_unfinished :
    (parse (tokenize "ROW a AND b OR c | LIMIT") {}).isOk = false ∧
      (∃ p, (Phrase.query (parse (tokenize "ROW a AND b OR c | LIMIT") {}).statement.query).Below p ∧
        p.connective? = some .or ∧ p.Covers) ∧
      ∃ e, (parseExpression "a AND b OR c").result = .ok e ∧
        e.leftChain.2.map ChainLink.op = [.and, .or] ∧ (Phrase.boolean e).Covers := by
  obtain ⟨p, hp, hop⟩ := Phrase.exists_of_anyBelow (P := fun p => p.connective? == some .or)
    (n := 8) (p := .query (parse (tokenize "ROW a AND b OR c | LIMIT") {}).statement.query)
    (by decide +kernel)
  have hops : (parseExpression "a AND b OR c").result.toOption.map
      (fun e => e.leftChain.2.map ChainLink.op) = some [.and, .or] := by
    decide +kernel
  obtain ⟨-, -, hcovers, hexpression⟩ := chains_byLoop
  refine ⟨by decide +kernel, ⟨p, hp, eq_of_beq hop, hcovers _ _ p hp⟩, ?_⟩
  cases he : (parseExpression "a AND b OR c").result with
  | error diagnostics => simp [he, Except.toOption] at hops
  | ok e =>
    exact ⟨e, rfl, by simpa [he, Except.toOption] using hops, hexpression _ e he _ .refl⟩

end PipeQuery
