import Mathlib.Data.List.Induction
import PipeQuery.Ast.Loops

/-!
# Loops write what the recursion writes

The printers that take chains apart (`BooleanExpr.loopText` and the like) write what the recursion
along the tree writes. A chain is the fold of its links (`BooleanExpr.ofChain_leftChain`), and so is
each of the two passes over the links that are written already; what the operands are written as is
known by induction, since they are smaller than the chain.
-/

namespace PipeQuery

/-! ## One pass over the links -/

/-- The last link makes the outermost form. -/
theorem leftNested_append_singleton (first : String) (rest : List (String × String))
    (link : String × String) :
    leftNested first (rest ++ [link]) = form₂ link.1 (leftNested first rest) link.2 := by
  -- what is written in front of a pass stays in front of it
  have heads (front : String) (links : List (String × String)) :
      links.foldl (fun out link => out ++ "(" ++ link.1 ++ " ") front
        = front ++ links.foldl (fun out link => out ++ "(" ++ link.1 ++ " ") "" := by
    have h : links.foldl (fun out link => out ++ "(" ++ link.1 ++ " ") (front ++ "")
        = front ++ links.foldl (fun out link => out ++ "(" ++ link.1 ++ " ") "" :=
      List.foldl_hom (front ++ ·) fun out link => by simp only [String.append_assoc]
    rwa [String.append_empty] at h
  have tails (front out : String) (links : List (String × String)) :
      links.foldl (fun out link => out ++ " " ++ link.2 ++ ")") (front ++ out)
        = front ++ links.foldl (fun out link => out ++ " " ++ link.2 ++ ")") out :=
    List.foldl_hom (front ++ ·) fun out link => by simp only [String.append_assoc]
  simp only [leftNested, List.reverse_append, List.reverse_singleton, List.singleton_append,
    List.foldl_cons, List.foldl_append, List.foldl_nil, form₂]
  rw [heads, tails, tails]
  simp only [String.empty_append, String.append_assoc]

/-- The pass is the recursion: each link puts a form around what is to the left of it. -/
theorem leftNested_eq_foldl (first : String) (rest : List (String × String)) :
    leftNested first rest = rest.foldl (fun out link => form₂ link.1 out link.2) first := by
  induction rest using List.reverseRecOn with
  | nil => simp [leftNested]
  | append_singleton rest link ih =>
    rw [leftNested_append_singleton, ih, List.foldl_append]
    rfl

/-! ## Chains -/

namespace BooleanExpr

theorem sexpr_ofChain (first : BooleanExpr) (links : List (ChainLink Connective BooleanExpr)) :
    (ofChain first links).sexpr
      = leftNested first.sexpr (links.map fun link => (link.op.tag, link.right.sexpr)) := by
  rw [leftNested_eq_foldl, List.foldl_map, ofChain]
  exact (List.foldl_hom BooleanExpr.sexpr fun left link => by rw [sexpr]).symm

theorem text_ofChain (first : BooleanExpr) (links : List (ChainLink Connective BooleanExpr)) :
    (ofChain first links).text
      = infixText first.text (links.map fun link => (link.op.keyword, link.right.text)) := by
  rw [infixText, List.foldl_map, ofChain]
  exact (List.foldl_hom BooleanExpr.text fun left link => by rw [text]).symm

theorem leftNested_leftChain (e : BooleanExpr) :
    leftNested e.leftChain.1.sexpr
      (e.leftChain.2.map fun link => (link.op.tag, link.right.sexpr)) = e.sexpr := by
  rw [← sexpr_ofChain, ofChain_leftChain]

theorem infixText_leftChain (e : BooleanExpr) :
    infixText e.leftChain.1.text
      (e.leftChain.2.map fun link => (link.op.keyword, link.right.text)) = e.text := by
  rw [← text_ofChain, ofChain_leftChain]

end BooleanExpr

namespace OperatorExpr

theorem sexpr_ofChain (first : OperatorExpr) (links : List (ChainLink ArithmeticOp OperatorExpr)) :
    (ofChain first links).sexpr
      = leftNested first.sexpr (links.map fun link => (link.op.symbol, link.right.sexpr)) := by
  rw [leftNested_eq_foldl, List.foldl_map, ofChain]
  exact (List.foldl_hom OperatorExpr.sexpr fun left link => by rw [sexpr]).symm

theorem text_ofChain (first : OperatorExpr) (links : List (ChainLink ArithmeticOp OperatorExpr)) :
    (ofChain first links).text
      = infixText first.text (links.map fun link => (link.op.symbol, link.right.text)) := by
  rw [infixText, List.foldl_map, ofChain]
  exact (List.foldl_hom OperatorExpr.text fun left link => by rw [text]).symm

theorem leftNested_leftChain (e : OperatorExpr) :
    leftNested e.leftChain.1.sexpr
      (e.leftChain.2.map fun link => (link.op.symbol, link.right.sexpr)) = e.sexpr := by
  rw [← sexpr_ofChain, ofChain_leftChain]

theorem infixText_leftChain (e : OperatorExpr) :
    infixText e.leftChain.1.text
      (e.leftChain.2.map fun link => (link.op.symbol, link.right.text)) = e.text := by
  rw [← text_ofChain, ofChain_leftChain]

end OperatorExpr

namespace Query

theorem sexpr_ofStages (first : SourceCommand) (stages : List (Token × ProcessingCommand)) :
    (ofStages first stages).sexpr
      = leftNested first.sexpr (stages.map fun stage => ("pipe", stage.2.sexpr)) := by
  rw [leftNested_eq_foldl, List.foldl_map, ofStages, ← Query.sexpr]
  exact (List.foldl_hom Query.sexpr fun q stage => by rw [sexpr]).symm

theorem text_ofStages (first : SourceCommand) (stages : List (Token × ProcessingCommand)) :
    (ofStages first stages).text
      = infixText first.text (stages.map fun stage => ("|", stage.2.text)) := by
  rw [infixText, List.foldl_map, ofStages, ← Query.text]
  have hbar : " | " = " " ++ "|" ++ " " := by decide
  exact (List.foldl_hom Query.text fun q stage => by
    rw [text, hbar]
    simp only [String.append_assoc]).symm

theorem leftNested_stages (q : Query) :
    leftNested q.sourceCommand.sexpr
      (q.processingCommands.map fun command => ("pipe", command.sexpr)) = q.sexpr := by
  rw [processingCommands, List.map_map]
  exact (sexpr_ofStages ..).symm.trans (congrArg Query.sexpr q.ofStages_stages)

theorem infixText_stages (q : Query) :
    infixText q.sourceCommand.text
      (q.processingCommands.map fun command => ("|", command.text)) = q.text := by
  rw [processingCommands, List.map_map]
  exact (text_ofStages ..).symm.trans (congrArg Query.text q.ofStages_stages)

end Query

/-! ## Every level -/

mutual

/-- A condition is written by loops as it is by the recursion. -/
theorem BooleanExpr.loops_eq : ∀ e : BooleanExpr, e.loopSexpr = e.sexpr ∧ e.loopText = e.text
  | .not _ operand _ => by
    obtain ⟨hs, ht⟩ := operand.loops_eq
    rw [BooleanExpr.loopSexpr, BooleanExpr.sexpr, BooleanExpr.loopText, BooleanExpr.text, hs, ht]
    exact ⟨rfl, rfl⟩
  | .value v => by
    rw [BooleanExpr.loopSexpr, BooleanExpr.sexpr, BooleanExpr.loopText, BooleanExpr.text]
    exact v.loops_eq
  | .connective op left token right => by
    obtain ⟨hs, ht⟩ := (BooleanExpr.connective op left token right).leftChain.1.loops_eq
    have hlinks (link) (h : link ∈ (BooleanExpr.connective op left token right).leftChain.2) :=
      link.right.loops_eq
    rw [BooleanExpr.loopSexpr_connective, BooleanExpr.loopText_connective, hs, ht,
      List.map_congr_left fun link h => congrArg (Prod.mk link.op.tag) (hlinks link h).1,
      List.map_congr_left fun link h => congrArg (Prod.mk link.op.keyword) (hlinks link h).2,
      BooleanExpr.leftNested_leftChain, BooleanExpr.infixText_leftChain]
    exact ⟨rfl, rfl⟩
  | .isIn v negation items _ => by
    obtain ⟨hs, ht⟩ := v.loops_eq
    have hitems (item) (h : item ∈ items) := item.loops_eq
    rw [BooleanExpr.loopSexpr, BooleanExpr.sexpr, BooleanExpr.loopText, BooleanExpr.text,
      ValueExpr.sexprs_eq, ValueExpr.texts_eq, hs, ht,
      List.map_congr_left fun item h => (hitems item h).1,
      List.map_congr_left fun item h => (hitems item h).2]
    exact ⟨rfl, rfl⟩
  | .isMatch v negation kind pattern _ => by
    obtain ⟨hs, ht⟩ := v.loops_eq
    rw [BooleanExpr.loopSexpr, BooleanExpr.sexpr, BooleanExpr.loopText, BooleanExpr.text, hs, ht]
    exact ⟨rfl, rfl⟩
  | .predicate call => by
    rw [BooleanExpr.loopSexpr, BooleanExpr.sexpr, BooleanExpr.loopText, BooleanExpr.text]
    exact ⟨rfl, rfl⟩
termination_by e => sizeOf e
decreasing_by
  any_goals decreasing_tactic
  · exact BooleanExpr.sizeOf_first_lt ..
  · exact BooleanExpr.sizeOf_right_lt h

theorem ValueExpr.loops_eq : ∀ v : ValueExpr, v.loopSexpr = v.sexpr ∧ v.loopText = v.text
  | .operator o => by
    rw [ValueExpr.loopSexpr, ValueExpr.sexpr, ValueExpr.loopText, ValueExpr.text]
    exact o.loops_eq
  | .comparison left op _ right => by
    obtain ⟨hs, ht⟩ := left.loops_eq
    obtain ⟨hs', ht'⟩ := right.loops_eq
    rw [ValueExpr.loopSexpr, ValueExpr.sexpr, ValueExpr.loopText, ValueExpr.text, hs, ht, hs', ht']
    exact ⟨rfl, rfl⟩
termination_by v => sizeOf v

theorem OperatorExpr.loops_eq : ∀ o : OperatorExpr, o.loopSexpr = o.sexpr ∧ o.loopText = o.text
  | .primary p => by
    rw [OperatorExpr.loopSexpr, OperatorExpr.sexpr, OperatorExpr.loopText, OperatorExpr.text]
    exact p.loops_eq
  | .aggregate name args _ => by
    rw [OperatorExpr.loopSexpr, OperatorExpr.sexpr, OperatorExpr.loopText, OperatorExpr.text]
    exact ⟨rfl, rfl⟩
  | .scalar name args _ => by
    have hargs (arg) (h : arg ∈ args) := arg.loops_eq
    rw [OperatorExpr.loopSexpr, OperatorExpr.sexpr, OperatorExpr.loopText, OperatorExpr.text,
      ScalarArgument.sexprs_eq, ScalarArgument.texts_eq,
      List.map_congr_left fun arg h => (hargs arg h).1,
      List.map_congr_left fun arg h => (hargs arg h).2]
    exact ⟨rfl, rfl⟩
  | .signed sign _ operand _ => by
    obtain ⟨hs, ht⟩ := operand.loops_eq
    rw [OperatorExpr.loopSexpr, OperatorExpr.sexpr, OperatorExpr.loopText, OperatorExpr.text, hs,
      ht]
    exact ⟨rfl, rfl⟩
  | .binary op token left right => by
    obtain ⟨hs, ht⟩ := (OperatorExpr.binary op token left right).leftChain.1.loops_eq
    have hlinks (link) (h : link ∈ (OperatorExpr.binary op token left right).leftChain.2) :=
      link.right.loops_eq
    rw [OperatorExpr.loopSexpr_binary, OperatorExpr.loopText_binary, hs, ht,
      List.map_congr_left fun link h => congrArg (Prod.mk link.op.symbol) (hlinks link h).1,
      List.map_congr_left fun link h => congrArg (Prod.mk link.op.symbol) (hlinks link h).2,
      OperatorExpr.leftNested_leftChain, OperatorExpr.infixText_leftChain]
    exact ⟨rfl, rfl⟩
termination_by o => sizeOf o
decreasing_by
  any_goals decreasing_tactic
  · exact OperatorExpr.sizeOf_first_lt ..
  · exact OperatorExpr.sizeOf_right_lt h

theorem PrimaryExpr.loops_eq : ∀ p : PrimaryExpr, p.loopSexpr = p.sexpr ∧ p.loopText = p.text
  | .constant c => by
    rw [PrimaryExpr.loopSexpr, PrimaryExpr.sexpr, PrimaryExpr.loopText, PrimaryExpr.text]
    exact ⟨rfl, rfl⟩
  | .field name => by
    rw [PrimaryExpr.loopSexpr, PrimaryExpr.sexpr, PrimaryExpr.loopText, PrimaryExpr.text]
    exact ⟨rfl, rfl⟩
  | .group inner _ => by
    obtain ⟨hs, ht⟩ := inner.loops_eq
    rw [PrimaryExpr.loopSexpr, PrimaryExpr.sexpr, PrimaryExpr.loopText, PrimaryExpr.text, hs, ht]
    exact ⟨rfl, rfl⟩
  | .call name args _ => by
    have hargs (arg) (h : arg ∈ args) := arg.loops_eq
    rw [PrimaryExpr.loopSexpr, PrimaryExpr.sexpr, PrimaryExpr.loopText, PrimaryExpr.text,
      BooleanExpr.sexprs_eq, BooleanExpr.texts_eq,
      List.map_congr_left fun arg h => (hargs arg h).1,
      List.map_congr_left fun arg h => (hargs arg h).2]
    exact ⟨rfl, rfl⟩
termination_by p => sizeOf p

theorem ScalarArgument.loops_eq : ∀ a : ScalarArgument, a.loopSexpr = a.sexpr ∧ a.loopText = a.text
  | .value v => by
    rw [ScalarArgument.loopSexpr, ScalarArgument.sexpr, ScalarArgument.loopText,
      ScalarArgument.text]
    exact v.loops_eq
  | .timeSpan t => by
    rw [ScalarArgument.loopSexpr, ScalarArgument.sexpr, ScalarArgument.loopText,
      ScalarArgument.text]
    exact ⟨rfl, rfl⟩
termination_by a => sizeOf a

end

theorem BooleanExpr.loopSexpr_eq : BooleanExpr.loopSexpr = BooleanExpr.sexpr :=
  funext fun e => e.loops_eq.1

theorem BooleanExpr.loopText_eq : BooleanExpr.loopText = BooleanExpr.text :=
  funext fun e => e.loops_eq.2

mutual

/-- A pipeline is written by loops as it is by the recursion. -/
theorem Query.loops_eq : ∀ q : Query, q.loopSexpr = q.sexpr ∧ q.loopText = q.text
  | q => by
    obtain ⟨hs, ht⟩ := q.sourceCommand.loops_eq
    rw [Query.loopSexpr, Query.loopText, hs, ht, BooleanExpr.loopSexpr_eq, BooleanExpr.loopText_eq]
    exact ⟨q.leftNested_stages, q.infixText_stages⟩
termination_by q => sizeOf q
decreasing_by exact q.sizeOf_sourceCommand_lt

theorem SourceCommand.loops_eq : ∀ command : SourceCommand,
    command.loopSexpr = command.sexpr ∧ command.loopText = command.text
  | .command _ clause _ => by
    rw [SourceCommand.loopSexpr, SourceCommand.sexpr, SourceCommand.loopText, SourceCommand.text]
    exact clause.loops_eq
  | .error _ => by
    rw [SourceCommand.loopSexpr, SourceCommand.sexpr, SourceCommand.loopText, SourceCommand.text]
    exact ⟨rfl, rfl⟩
termination_by command => sizeOf command

theorem SourceClause.loops_eq : ∀ clause : SourceClause,
    clause.loopSexpr = clause.sexpr ∧ clause.loopText = clause.text
  | .explain query => by
    obtain ⟨hs, ht⟩ := query.loops_eq
    rw [SourceClause.loopSexpr, SourceClause.sexpr, SourceClause.loopText, SourceClause.text, hs,
      ht]
    exact ⟨rfl, rfl⟩
  | .row fields => by
    rw [SourceClause.loopSexpr, SourceClause.sexpr, SourceClause.loopText, SourceClause.text,
      BooleanExpr.loopSexpr_eq, BooleanExpr.loopText_eq]
    exact ⟨rfl, rfl⟩
  | .indices _ | .listing _ => by
    rw [SourceClause.loopSexpr, SourceClause.sexpr, SourceClause.loopText, SourceClause.text]
    exact ⟨rfl, rfl⟩
termination_by clause => sizeOf clause

end

end PipeQuery
