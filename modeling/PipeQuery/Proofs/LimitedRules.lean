import PipeQuery.Proofs.Measures

/-!
# Rules of the grammar under two limits

Every rule for expressions and commands does the same under two limits, as far as the levels of the
second run suffice (`Limits.Measures`). Each rule puts a level around what it reads by the rules of
the level below it, and passes on the height of everything else.
-/

namespace PipeQuery

namespace Grammar

open Rule Limits

namespace Limits

variable {L : Limits}

/-- A link of a chain is as high as its right operand. -/
theorem Measures.linkOf {O T : Type} {ofKind? : Kind → Option O} {left : O → Nat}
    {right right' : O → Rule T} {height : T → Nat} (power : Nat)
    (hr : ∀ op, L.Measures 0 height (right op) (right' op)) :
    L.Measures 0 (fun o => o.elim 0 fun link => height link.right) (linkOf ofKind? left right power)
      (linkOf ofKind? left right' power) := by
  unfold Grammar.linkOf
  refine .after fun kind => ?_
  split
  · split
    · exact .pure rfl
    · exact .after fun operator => (hr _).bind fun right => .pure rfl
  · exact .pure rfl

/-- Rules for expressions that do the same on either level, as far as the second one suffices. -/
structure MeasuresExpressions (L : Limits) (inner inner' : Expressions) : Prop where
  /-- Conditions are measured. -/
  boolean (power : Nat) :
    L.Measures 0 BooleanExpr.height (inner.boolean power) (inner'.boolean power)
  /-- Arithmetic is measured. -/
  operator (power : Nat) :
    L.Measures 0 OperatorExpr.height (inner.operator power) (inner'.operator power)

namespace MeasuresExpressions

variable {inner inner' : Expressions} (h : L.MeasuresExpressions inner inner')

include h

theorem value : L.Measures 0 ValueExpr.inside (value inner) (value inner') := by
  unfold Grammar.value
  refine (h.operator 0).bind fun left => .after fun compared => ?_
  split
  · refine .after fun operator => ?_
    split
    · exact (h.operator 0).next fun right => .pure (by simp [ValueExpr.inside, OperatorExpr.height])
    · exact .stopped fun _ => rfl
  · exact .pure (by simp [ValueExpr.inside, OperatorExpr.height])

theorem scalarArgument :
    L.Measures 0 ScalarArgument.inside (scalarArgument inner) (scalarArgument inner') := by
  unfold Grammar.scalarArgument
  refine .after fun number => .after fun unit => ?_
  split
  · exact .after fun span => .pure (by simp [ScalarArgument.inside])
  · exact h.value.bind fun v => .pure (by simp [ScalarArgument.inside])

theorem primary : L.Measures 0 PrimaryExpr.inside (primary inner) (primary inner') := by
  unfold Grammar.primary
  refine .after fun kind => ?_
  split
  · exact .after fun constant => .pure (by simp [PrimaryExpr.inside])
  · split
    · refine .spanned fun start => ?_
      simp only [bind_assoc, pure_bind]
      exact (h.boolean 0).parenthesised.bind fun e =>
        .ask (fun _ => by simp [PrimaryExpr.inside, BooleanExpr.height]) fun _ _ => rfl
    · split
      · refine .after fun called => ?_
        split
        · refine .spanned fun start => ?_
          simp only [bind_assoc, pure_bind]
          exact .after fun name => (h.boolean 0).arguments.bind fun args =>
            .ask (fun _ => by simp [PrimaryExpr.inside]) fun _ _ => rfl
        · exact .after fun name => .pure (by simp [PrimaryExpr.inside])
      · exact .after fun start => .stopped fun _ => rfl

theorem operand : L.Measures 0 OperatorExpr.inside (operand inner) (operand inner') := by
  unfold Grammar.operand
  refine .after fun kind => ?_
  split
  · refine .spanned fun start => ?_
    simp only [bind_assoc, pure_bind]
    exact .after fun operator => (h.operator _).bind fun e =>
      .ask (fun _ => by simp [OperatorExpr.inside, OperatorExpr.height]) fun _ _ => rfl
  · split
    · refine .spanned fun start => ?_
      simp only [bind_assoc, pure_bind]
      exact .after fun name => .after fun args =>
        .ask (fun _ => by simp [OperatorExpr.inside]) fun _ _ => rfl
    · split
      · refine .spanned fun start => ?_
        simp only [bind_assoc, pure_bind]
        exact .after fun name => h.scalarArgument.arguments.bind fun args =>
          .ask (fun _ => by simp [OperatorExpr.inside]) fun _ _ => rfl
      · split
        · exact h.primary.bind fun p => .pure (by simp [OperatorExpr.inside])
        · exact .after fun start => .stopped fun _ => rfl

theorem operatorLink (power : Nat) :
    L.Measures 0 (fun o => o.elim 0 (·.right.height)) (operatorLink inner power)
      (operatorLink inner' power) :=
  .linkOf power fun op => h.operator op.rightPower

theorem operatorChain (power : Nat) :
    L.Measures 0 OperatorExpr.inside (operatorChain inner power) (operatorChain inner' power) := by
  unfold Grammar.operatorChain
  exact h.operand.bind fun first => (h.operatorLink power).many.next fun links =>
    .pure (OperatorExpr.inside_ofChain first links)

/-- A value that was read already is part of its test. -/
theorem test (start : Nat) (tested : ValueExpr) :
    L.Measures tested.inside BooleanExpr.inside (test inner start tested)
      (test inner' start tested) := by
  unfold Grammar.test
  refine .after fun negation => .after fun kind => ?_
  split
  · exact .after fun keyword => (h.value.separated .comma).parenthesised.next fun items =>
      .ask (fun _ => by simp [BooleanExpr.inside]) fun _ _ => rfl
  · split
    · exact .after fun keyword => .after fun literal =>
        .ask (fun _ => by simp [BooleanExpr.inside]) fun _ _ => rfl
    · exact .pure (by simp [BooleanExpr.inside])

theorem condition : L.Measures 0 BooleanExpr.inside (condition inner) (condition inner') := by
  unfold Grammar.condition
  refine .after fun kind => .after fun scope => ?_
  split
  · refine .spanned fun start => ?_
    simp only [bind_assoc, pure_bind]
    exact .after fun operator => (h.boolean _).bind fun e =>
      .ask (fun _ => by simp [BooleanExpr.inside, BooleanExpr.height]) fun _ _ => rfl
  · split
    · exact .after fun call => .pure (by simp [BooleanExpr.inside])
    · split
      · refine .after fun start => h.value.bind fun tested => ?_
        split
        · exact h.test start tested
        · exact .pure (by simp [BooleanExpr.inside])
      · exact .after fun start => .stopped fun _ => rfl

theorem connectiveLink (power : Nat) :
    L.Measures 0 (fun o => o.elim 0 (·.right.height)) (connectiveLink inner power)
      (connectiveLink inner' power) :=
  .linkOf power fun op => h.boolean op.rightPower

theorem connectiveChain (power : Nat) :
    L.Measures 0 BooleanExpr.inside (connectiveChain inner power)
      (connectiveChain inner' power) := by
  unfold Grammar.connectiveChain
  exact h.condition.bind fun first => (h.connectiveLink power).many.next fun links =>
    .pure (BooleanExpr.inside_ofChain first links)

end MeasuresExpressions

/-- The expressions that are read on one level are those that are read on another one, as far as
they are not too high. -/
theorem measuresExpressions (n m limit : Nat) :
    (Limits.mk n m limit).MeasuresExpressions (expressions n) (expressions m) := by
  induction n generalizing m with
  | zero => exact ⟨fun _ => .stopped fun _ => rfl, fun _ => .stopped fun _ => rfl⟩
  | succ n ih =>
    refine ⟨fun power => ?_, fun power => ?_⟩
    · exact .of_levels (R := fun n => (expressions n).boolean power) rfl
        (fun m => (ih m).connectiveChain power) m
    · exact .of_levels (R := fun n => (expressions n).operator power) rfl
        (fun m => (ih m).operatorChain power) m

/-! ## Commands -/

/-- A query in brackets. -/
theorem Measures.subquery {query query' : Rule Query} {height : Query → Nat}
    (hquery : L.Measures 0 height query query') :
    L.Measures 0 height (subquery query) (subquery query') := by
  have (start : Nat) : Steady (change fun s => s.record .subquery (s.spanFrom start)) :=
    ⟨fun _ _ => rfl⟩
  unfold Grammar.subquery
  exact .after fun start => .after fun left => (hquery.within _).bind fun q =>
    .after fun right => .after fun recorded => .pure rfl

namespace MeasuresExpressions

variable {inner inner' : Expressions} (h : L.MeasuresExpressions inner inner')

include h

theorem field : L.Measures 0 Field.height (field inner) (field inner') := by
  refine .spanned fun start => ?_
  simp only [bind_assoc, pure_bind]
  exact .after fun name => (h.boolean 0).bind fun e => .ask (fun _ => rfl) fun _ _ => rfl

theorem fields : L.Measures 0 (tallest Field.height) (fields inner) (fields inner') :=
  h.field.separated .comma

theorem sortKey : L.Measures 0 SortKey.height (sortKey inner) (sortKey inner') := by
  refine .spanned fun start => ?_
  simp only [bind_assoc, pure_bind]
  exact (h.boolean 0).bind fun e => .after fun order => .after fun nulls =>
    .ask (fun _ => rfl) fun _ _ => rfl

theorem processingClause (kind : Kind) :
    Option.Rel (L.Measures 0 ProcessingClause.height) (processingClause? inner kind)
      (processingClause? inner' kind) := by
  unfold processingClause?
  split
  · exact .some (h.fields.bind fun fields => .pure rfl)
  · exact .some (.after fun count => .pure rfl)
  · exact .some (.after fun names => .pure rfl)
  · exact .some (.after fun names => .pure rfl)
  · exact .some (.after fun clauses => .pure rfl)
  · exact .some (.after fun names => .pure rfl)
  · refine .some (.after fun names => .after fun pattern => .after fun set => ?_)
    split
    · exact .after fun options => .pure rfl
    · exact .pure rfl
  · exact .some (.after fun names => .after fun pattern => .pure rfl)
  · exact .some ((h.sortKey.separated .comma).bind fun keys => .pure rfl)
  · refine .some (.after fun listed => ?_)
    have hgrouping (aggregates : Option (List Field)) :
        L.Measures (aggregates.elim 0 (tallest Field.height)) ProcessingClause.height
          (do return .stats aggregates (← behind .kwBy qualifiedNames))
          (do return .stats aggregates (← behind .kwBy qualifiedNames)) :=
      .after fun grouping => .pure rfl
    split
    · have haggregates : L.Measures 0 (·.elim 0 (tallest Field.height))
          (some <$> Grammar.fields inner) (some <$> Grammar.fields inner') :=
        h.fields.bind fun fields => .pure rfl
      exact haggregates.bind hgrouping
    · exact hgrouping none
  · exact .some (((h.boolean 0).within _).bind fun condition => .pure rfl)
  · exact .some (.after fun names => .pure rfl)
  · exact .some (.after fun policy => .after fun matched => .after fun clauses => .pure rfl)
  · exact .none

theorem processingCommand :
    L.Measures 0 ProcessingCommand.height (processingCommand inner) (processingCommand inner') := by
  have : Steady (change fun s => s.note (.processingCommand s.current)) := ⟨fun _ _ => rfl⟩
  refine .spanned fun start => ?_
  simp only [bind_assoc]
  refine .after fun noted => .after fun kind => ?_
  have hclause := h.processingClause kind
  generalize processingClause? inner kind = clause at hclause ⊢
  generalize processingClause? inner' kind = clause' at hclause ⊢
  cases hclause with
  | none =>
    simp only [bind_assoc]
    exact .after fun start => .stopped fun _ => rfl
  | some hclause =>
    simp only [bind_assoc, pure_bind]
    exact .after fun keyword => hclause.bind fun clause => .ask (fun _ => rfl) fun _ _ => rfl

theorem sourceCommand {query query' : Rule Query}
    (hquery : L.Measures 0 (·.height + 1) query query') :
    L.Measures 0 SourceCommand.height (sourceCommand inner query)
      (sourceCommand inner' query') := by
  have : Steady (change fun s => s.note (.sourceCommand s.current)) := ⟨fun _ _ => rfl⟩
  refine .spanned fun start => ?_
  simp only [bind_assoc]
  refine .after fun noted => .after fun start => .after fun kind => ?_
  split
  · simp only [bind_assoc, pure_bind]
    exact .after fun keyword => hquery.subquery.bind fun q =>
      .ask (fun _ => by simp [SourceCommand.height, SourceClause.height]) fun _ _ => rfl
  · simp only [bind_assoc, pure_bind]
    exact .after fun keyword => .after fun sources =>
      .ask (fun _ => by simp [SourceCommand.height, SourceClause.height]) fun _ _ => rfl
  · simp only [bind_assoc, pure_bind]
    exact .after fun keyword => h.fields.bind fun fields =>
      .ask (fun _ => by simp [SourceCommand.height, SourceClause.height]) fun _ _ => rfl
  · simp only [bind_assoc]
    refine .after fun next => ?_
    split
    · simp only [bind_assoc, pure_bind]
      exact .after fun keyword => .after fun word =>
        .ask (fun _ => by simp [SourceCommand.height, SourceClause.height]) fun _ _ => rfl
    · simp only [bind_assoc]
      exact .after fun skipped => .stopped fun _ => rfl
  · exact .stopped fun _ => rfl

end MeasuresExpressions

end Limits

end Grammar

end PipeQuery
