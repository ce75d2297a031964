import PipeQuery.Proofs.Links

/-!
# The rules on two texts

Every rule of the grammar but those for queries does the same in states that are linked: the values
are the same up to their place, and the states behind them are linked again. A rule takes a token
only where it knows its kind, so no rule reads past the end of a stage.
-/

namespace PipeQuery

open Grammar

namespace Link

variable {E : Link} {P : State → Prop}

theorem inside_of_eq {k : Kind} (hk : Inside k) (s : State) (h : P s ∧ s.kind = k) :
    Inside s.kind := h.2 ▸ hk

namespace Rules

/-! ## Names and constants -/

theorem identifierOf {kinds : KindSet} (hpipe : Kind.pipe ∉ kinds)
    (hend : Kind.endOfInput ∉ kinds) :
    E.Rules P (E.Alike Identifier.recast) (Grammar.identifierOf kinds)
      (Grammar.identifierOf kinds) := by
  unfold Grammar.identifierOf
  refine spanned ((expectAny hpipe hend).bind fun t t' ht => pure fun span span' hspan hv => ?_)
  simp only [Identifier.recast, Identifier.ofToken, ht.kind, ht.text hv, hspan hv]

theorem plainIdentifier :
    E.Rules P (E.Alike Identifier.recast) Grammar.plainIdentifier Grammar.plainIdentifier :=
  identifierOf (by decide) (by decide)

theorem takeIdentifier (hP : ∀ s, P s → Inside s.kind) :
    E.Rules P (E.Alike Identifier.recast) Grammar.takeIdentifier Grammar.takeIdentifier := by
  unfold Grammar.takeIdentifier
  refine spanned ((take hP).bind fun t t' ht => pure fun span span' hspan hv => ?_)
  simp only [Identifier.recast, Identifier.ofToken, ht.sameWord.kind, ht.sameWord.text hv, hspan hv]

theorem qualifiedName :
    E.Rules P (E.Alike QualifiedName.recast) Grammar.qualifiedName Grammar.qualifiedName := by
  unfold Grammar.qualifiedName
  refine spanned ((separated ⟨by decide, by decide⟩ plainIdentifier plainIdentifier).bind
    fun parts parts' hparts => pure fun span span' hspan hv => ?_)
  simp only [QualifiedName.recast, hparts hv, hspan hv]

theorem qualifiedNames :
    E.Rules P (E.Alike fun σ => List.map (QualifiedName.recast σ)) Grammar.qualifiedNames
      Grammar.qualifiedNames :=
  separated ⟨by decide, by decide⟩ qualifiedName qualifiedName

/-- A name that is there is read without looking at what is behind it. -/
theorem run_identifierOf_of_mem {kinds : KindSet} {s : State} (hk : s.kind ∈ kinds) :
    ((Grammar.identifierOf kinds).run s).2 = s.bump := by
  unfold Grammar.identifierOf
  rw [Rule.run_spanned_snd, Rule.run_bind, run_expectAny, if_pos hk]
  rfl

theorem run_numberOf_of_mem {kinds : KindSet} {s : State} (hk : s.kind ∈ kinds) :
    ((Grammar.numberOf kinds).run s).2 = s.bump := by
  unfold Grammar.numberOf
  rw [Rule.run_spanned_snd, Rule.run_bind, run_expectAny, if_pos hk]
  rfl

theorem kind_bump (s : State) : s.bump.kind = s.kindAfter := by
  rw [State.kindAfter, TokenStream.lookahead_succ]
  rfl

theorem assigned? {kinds : KindSet} (hpipe : Kind.pipe ∉ kinds) (hend : Kind.endOfInput ∉ kinds) :
    E.Rules P (Option.Rel (E.Alike Identifier.recast)) (Grammar.assigned? kinds)
      (Grammar.assigned? kinds) := by
  unfold Grammar.assigned?
  refine atAny? fun b => ?_
  cases b with
  | false => exact ask_bind (V := fun _ _ => True) (fun _ _ _ _ => trivial) fun _ _ _ => pure .none
  | true =>
    refine before? (fun s h => inside_of_mem hpipe hend h.2) fun b => ?_
    cases b with
    | false => exact pure .none
    | true =>
      have hassign (s : State) (h : (P s ∧ kinds.contains s.kind = true) ∧
          (s.kindAfter == .assign) = true) :
          ((Grammar.identifierOf kinds).run s).2.kind = .assign := by
        rw [run_identifierOf_of_mem h.1.2, kind_bump]
        simpa using h.2
      refine (identifierOf hpipe hend).bind_of (Q := (·.kind = .assign)) hassign
        fun name name' hname => ?_
      exact (take fun s (hs : s.kind = .assign) => hs ▸ ⟨by decide, by decide⟩).bind fun _ _ _ =>
        pure (.some hname)

theorem numberOf {kinds : KindSet} (hpipe : Kind.pipe ∉ kinds) (hend : Kind.endOfInput ∉ kinds) :
    E.Rules P (E.Alike NumericValue.recast) (Grammar.numberOf kinds) (Grammar.numberOf kinds) := by
  unfold Grammar.numberOf
  refine spanned ((expectAny hpipe hend).bind fun t t' ht => pure fun span span' hspan hv => ?_)
  simp only [NumericValue.recast, ht.kind, ht.text hv, hspan hv]

theorem number : E.Rules P (E.Alike NumericValue.recast) Grammar.number Grammar.number :=
  numberOf (by decide) (by decide)

theorem integer : E.Rules P (E.Alike NumericValue.recast) Grammar.integer Grammar.integer :=
  numberOf (by decide) (by decide)

theorem string : E.Rules P (E.Alike StringLiteral.recast) Grammar.string Grammar.string := by
  unfold Grammar.string
  refine spanned ((expect ⟨by decide, by decide⟩).bind fun t t' ht =>
    pure fun span span' hspan hv => ?_)
  simp only [StringLiteral.recast, ht.text hv, hspan hv]

theorem truthValue :
    E.Rules P (E.Alike BooleanValue.recast) Grammar.truthValue Grammar.truthValue := by
  unfold Grammar.truthValue
  refine spanned ((expect ⟨by decide, by decide⟩).bind fun t t' ht =>
    pure fun span span' hspan hv => ?_)
  simp only [BooleanValue.recast, sameWord_congr (ht.toLower_text hv), hspan hv]

theorem elements {i i' : Nat} (hi : E.Position i i') :
    E.Rules P (E.Spanned (E.Alike Constant.recast)) (Grammar.elements i) (Grammar.elements i') := by
  unfold Grammar.elements
  refine askKind fun k => ?_
  split
  · exact (separated ⟨by decide, by decide⟩ truthValue truthValue).bind fun as as' has =>
      pure fun span span' hspan hv => by simp only [Constant.recast, has hv, hspan hv]
  · exact (separated ⟨by decide, by decide⟩ string string).bind fun as as' has =>
      pure fun span span' hspan hv => by simp only [Constant.recast, has hv, hspan hv]
  · exact (separated ⟨by decide, by decide⟩ number number).bind fun as as' has =>
      pure fun span span' hspan hv => by simp only [Constant.recast, has hv, hspan hv]
  · exact (separated ⟨by decide, by decide⟩ number number).bind fun as as' has =>
      pure fun span span' hspan hv => by simp only [Constant.recast, has hv, hspan hv]
  · exact noViable hi

theorem constantList (hP : ∀ s, P s → Inside s.kind) :
    E.Rules P (E.Alike Constant.recast) Grammar.constantList Grammar.constantList := by
  unfold Grammar.constantList
  refine spanned (askPosition fun i i' hi => ?_)
  exact (take hP).bind fun _ _ _ => (elements hi).bind fun list list' hlist =>
    (expect ⟨by decide, by decide⟩).bind fun _ _ _ => pure hlist

theorem constant : E.Rules P (E.Alike Constant.recast) Grammar.constant Grammar.constant := by
  unfold Grammar.constant
  refine askKind fun k => ?_
  split
  · refine spanned ((take (inside_of_eq ⟨by decide, by decide⟩)).bind fun _ _ _ =>
      pure fun span span' hspan hv => ?_)
    simp only [Constant.recast, hspan hv]
  · exact truthValue.bind fun a a' ha => pure fun hv => congrArg Constant.boolean (ha hv)
  · exact string.bind fun a a' ha => pure fun hv => congrArg Constant.string (ha hv)
  · exact constantList (inside_of_eq ⟨by decide, by decide⟩)
  · exact number.bind fun a a' ha => pure fun hv => congrArg Constant.numeric (ha hv)
  · exact number.bind fun a a' ha => pure fun hv => congrArg Constant.numeric (ha hv)
  · exact askPosition fun _ _ hi => noViable hi

theorem fieldArgument :
    E.Rules P (E.Alike FieldArgument.recast) Grammar.fieldArgument Grammar.fieldArgument := by
  unfold Grammar.fieldArgument
  refine askKind fun k => ?_
  split
  · exact string.bind fun a a' ha => pure fun hv => congrArg FieldArgument.string (ha hv)
  · exact number.bind fun a a' ha => pure fun hv => congrArg FieldArgument.numeric (ha hv)
  · exact number.bind fun a a' ha => pure fun hv => congrArg FieldArgument.numeric (ha hv)
  · exact qualifiedName.bind fun a a' ha => pure fun hv => congrArg FieldArgument.field (ha hv)
  · exact qualifiedName.bind fun a a' ha => pure fun hv => congrArg FieldArgument.field (ha hv)
  · exact askPosition fun _ _ hi => noViable hi

/-- A length of time is read where a unit is known to stand behind a number. -/
theorem timeSpan (hP : ∀ s, P s → s.kind ∈ numbers ∧ s.kindAfter = .dateUnit) :
    E.Rules P (E.Alike TimeSpan.recast) Grammar.timeSpan Grammar.timeSpan := by
  unfold Grammar.timeSpan
  have hunit (s : State) (h : P s) : (Grammar.number.run s).2.kind = .dateUnit := by
    unfold Grammar.number
    rw [run_numberOf_of_mem (hP s h).1, kind_bump, (hP s h).2]
  refine spanned (number.bind_of (Q := (·.kind = .dateUnit)) hunit fun a a' ha => ?_)
  refine (take fun s (hs : s.kind = .dateUnit) => hs ▸ ⟨by decide, by decide⟩).bind fun t t' ht =>
    pure fun span span' hspan hv => ?_
  simp only [TimeSpan.recast, ha hv, ht.sameWord.text hv, hspan hv]

/-! ## Arithmetic -/

/-- Rules for expressions that do the same on both sides. -/
structure Linked (E : Link) (inner : Expressions) : Prop where
  /-- The rules are lawful. -/
  lawful : inner.Lawful true
  /-- Conditions are the same. -/
  boolean (power : Nat) :
    E.Rules Any (E.Alike (BooleanExpr.recast E.view)) (inner.boolean power) (inner.boolean power)
  /-- Arithmetic is the same. -/
  operator (power : Nat) :
    E.Rules Any (E.Alike (OperatorExpr.recast E.view)) (inner.operator power) (inner.operator power)

section

variable {inner : Expressions}

theorem value (h : Linked E inner) :
    E.Rules Any (E.Alike (ValueExpr.recast E.view)) (Grammar.value inner) (Grammar.value inner) := by
  unfold Grammar.value
  refine (h.operator 0).bind fun left left' hleft => at? fun b => ?_
  cases b with
  | false =>
    refine pure fun hv => ?_
    rw [ValueExpr.recast, ValueExpr.recast, hleft hv]
  | true =>
    intro s s' hs hk
    have hkind : s.kind = .comparison := by simpa using hk.2
    have ht : E.SameView s.current s'.current := E.current hs
    have hop := E.comparison_of_view ht hkind
    rw [if_pos rfl, if_pos rfl, Rule.run_bind, Rule.run_bind, Grammar.run_take, Grammar.run_take]
    dsimp only
    -- both operators are one of the six, or neither is
    cases ho : ComparisonOp.ofText? s.current.text with
    | none =>
      have ho' : ComparisonOp.ofText? s'.current.text = none := by simpa [ho] using hop.symm
      rw [ho']
      exact .stop (E.unknown hs hkind)
    | some op =>
      obtain ⟨op', ho'⟩ : ∃ op', ComparisonOp.ofText? s'.current.text = some op' := by
        simpa [ho, Option.isSome_iff_exists] using hop.symm
      rw [ho']
      have hright : E.Rules Any (E.Alike (ValueExpr.recast E.view))
          (do return .comparison left op s.current (← inner.operator 0))
          (do return .comparison left' op' s'.current (← inner.operator 0)) := by
        refine (h.operator 0).bind fun right right' hright => pure fun hv => ?_
        have hsame : op = op' := by
          rw [E.operator_of_view ht hv, ho'] at ho
          exact (Option.some.inj ho).symm
        rw [ValueExpr.recast, ValueExpr.recast, hleft hv, hright hv, ht, hsame]
      exact hright s.bump s'.bump (E.bump hs (hkind ▸ ⟨by decide, by decide⟩)) trivial

theorem scalarArgument (h : Linked E inner) :
    E.Rules Any (E.Alike (ScalarArgument.recast E.view)) (Grammar.scalarArgument inner)
      (Grammar.scalarArgument inner) := by
  have hvalue : E.Rules Any (E.Alike (ScalarArgument.recast E.view))
      (do return .value (← Grammar.value inner)) (do return .value (← Grammar.value inner)) :=
    (value h).bind fun a a' ha => pure fun hv => by
      rw [ScalarArgument.recast, ScalarArgument.recast, ha hv]
  unfold Grammar.scalarArgument
  refine atAny? fun b => ?_
  cases b with
  | false =>
    exact ask_bind (V := fun _ _ => True) (fun _ _ _ _ => trivial) fun _ _ _ =>
      hvalue.mono fun _ _ => trivial
  | true =>
    refine before? (fun s h => inside_of_mem (by decide) (by decide) h.2) fun b => ?_
    cases b with
    | false => exact hvalue.mono fun _ _ => trivial
    | true =>
      refine (timeSpan fun s hs => ⟨hs.1.2, by simpa using hs.2⟩).bind fun a a' ha =>
        pure fun hv => ?_
      rw [ScalarArgument.recast, ScalarArgument.recast, ha hv]

theorem primary (h : Linked E inner) :
    E.Rules P (E.Alike (PrimaryExpr.recast E.view)) (Grammar.primary inner)
      (Grammar.primary inner) := by
  have := h.lawful
  unfold Grammar.primary
  refine askKind fun k => ?_
  split
  · refine constant.bind fun a a' ha => pure fun hv => ?_
    rw [PrimaryExpr.recast, PrimaryExpr.recast, ha hv]
  split
  · refine spanned ((parenthesised (h.boolean 0)).bind fun a a' ha =>
      pure fun span span' hspan hv => ?_)
    rw [PrimaryExpr.recast, PrimaryExpr.recast, ha hv, hspan hv]
  split
  · next hk =>
    refine before? (inside_of_eq (inside_of_mem (by decide) (by decide) hk)) fun b => ?_
    cases b with
    | false =>
      refine qualifiedName.bind fun a a' ha => pure fun hv => ?_
      rw [PrimaryExpr.recast, PrimaryExpr.recast, ha hv]
    | true =>
      refine spanned (plainIdentifier.bind fun name name' hname => (arguments (h.boolean 0)).bind
        fun args args' hargs => pure fun span span' hspan hv => ?_)
      rw [PrimaryExpr.recast, PrimaryExpr.recast, BooleanExpr.recastAll_eq, BooleanExpr.recastAll_eq,
        hname hv, hargs.map hv, hspan hv]
  · exact askPosition fun _ _ hi => noViable hi

theorem operand (h : Linked E inner) :
    E.Rules P (E.Alike (OperatorExpr.recast E.view)) (Grammar.operand inner)
      (Grammar.operand inner) := by
  have := h.lawful
  unfold Grammar.operand
  refine askKind fun k => ?_
  cases hsign : Sign.ofKind? k with
  | some sign =>
    have hk : Inside k := by
      constructor <;> rintro rfl <;> cases hsign
    refine spanned ((take (inside_of_eq hk)).bind fun t t' ht => (h.operator _).bind
      fun a a' ha => pure fun span span' hspan hv => ?_)
    rw [OperatorExpr.recast, OperatorExpr.recast, ht, ha hv, hspan hv]
  | none =>
    dsimp only
    split
    · next hk =>
      refine spanned ((takeIdentifier (inside_of_eq (hk ▸ ⟨by decide, by decide⟩))).bind
        fun name name' hname => (arguments fieldArgument).bind fun args args' hargs =>
        pure fun span span' hspan hv => ?_)
      rw [OperatorExpr.recast, OperatorExpr.recast, hname hv, hargs.map hv, hspan hv]
    split
    · next hk =>
      refine spanned ((takeIdentifier (inside_of_eq (hk ▸ ⟨by decide, by decide⟩))).bind
        fun name name' hname => (arguments (scalarArgument h)).bind fun args args' hargs =>
        pure fun span span' hspan hv => ?_)
      rw [OperatorExpr.recast, OperatorExpr.recast, ScalarArgument.recastAll_eq,
        ScalarArgument.recastAll_eq, hname hv, hargs.map hv, hspan hv]
    split
    · refine (primary h).bind fun a a' ha => pure fun hv => ?_
      rw [OperatorExpr.recast, OperatorExpr.recast, ha hv]
    · exact askPosition fun _ _ hi => noViable hi

/-- A link of a chain is the same on both sides, since its operator ends no stage. -/
theorem linkOf {O T : Type} {ofKind? : Kind → Option O} {left : O → Nat} {right : O → Rule T}
    {recast : Recast → T → T} (hin : ∀ k op, ofKind? k = some op → Inside k)
    (hr : ∀ op, E.Rules Any (E.Alike recast) (right op) (right op)) (power : Nat) :
    E.Rules Any (Option.Rel (E.Alike fun σ => ChainLink.recast E.view (recast σ)))
      (Grammar.linkOf ofKind? left right power) (Grammar.linkOf ofKind? left right power) := by
  unfold Grammar.linkOf
  refine askKind fun k => ?_
  cases hop : ofKind? k with
  | none => exact pure .none
  | some op =>
    dsimp only
    split
    · exact pure .none
    · refine (take (inside_of_eq (hin k op hop))).bind fun t t' ht => (hr op).bind fun a a' ha =>
        pure (.some fun hv => ?_)
      change (⟨op, E.view t, recast E.seen a⟩ : ChainLink O T) = ⟨op, E.view t', recast E.seen' a'⟩
      rw [ht, ha hv]

theorem operatorLink (h : Linked E inner) (power : Nat) :
    E.Rules Any (Option.Rel (E.Alike fun σ => ChainLink.recast E.view (OperatorExpr.recast E.view σ)))
      (Grammar.operatorLink inner power) (Grammar.operatorLink inner power) := by
  refine linkOf (fun k op hop => ?_) (fun op => h.operator op.rightPower) power
  constructor <;> rintro rfl <;> cases hop

/-- The operator of a link is matched, and then its operand is read. -/
theorem steps_of_link {α β : Type} {r : Rule α} [Grammar.Rule.Lawful true r] {f : Token → α → β}
    {s t : State} {b : β}
    (h : (do
      let operator ← Grammar.take
      return some (f operator (← r)) : Rule (Option β)).run s = (some (some b), t)) :
    s.bump.Steps true t := by
  have hsteps : s.bump.Steps true (r.run s.bump).2 := Grammar.Rule.Lawful.steps s.bump
  rw [Rule.run_bind, Grammar.run_take] at h
  obtain ⟨a, hr, -⟩ := Rule.run_bind_pure_eq_some.1 h
  rwa [hr] at hsteps

/-- A link of a chain takes its operator at least. -/
theorem progress_linkOf {O T : Type} {ofKind? : Kind → Option O} {left : O → Nat}
    {right : O → Rule T} [∀ op, Grammar.Rule.Lawful true (right op)]
    (hend : ofKind? .endOfInput = none) (power : Nat) :
    Progress (Grammar.linkOf ofKind? left right power) := by
  refine progress_of_bump fun s t a hrun => ?_
  unfold Grammar.linkOf at hrun
  rw [Rule.run_bind, Rule.run_ask] at hrun
  cases hop : ofKind? s.kind with
  | none => simp [hop] at hrun
  | some op =>
    simp only [hop] at hrun
    refine ⟨fun hk => by simp [hk, hend] at hop, ?_⟩
    split at hrun
    · simp at hrun
    · exact steps_of_link hrun

theorem progress_operatorLink [inner.Lawful true] (power : Nat) :
    Progress (Grammar.operatorLink inner power) :=
  progress_linkOf rfl power

theorem operatorChain (h : Linked E inner) (power : Nat) :
    E.Rules P (E.Alike (OperatorExpr.recast E.view)) (Grammar.operatorChain inner power)
      (Grammar.operatorChain inner power) := by
  have := h.lawful
  have hprogress : Progress (Grammar.operatorLink inner power) := progress_operatorLink power
  unfold Grammar.operatorChain
  refine (operand h).bind fun first first' hfirst =>
    (many (operatorLink h power) hprogress hprogress).bind fun links links' hlinks =>
    pure fun hv => ?_
  rw [OperatorExpr.recast_ofChain, OperatorExpr.recast_ofChain, hfirst hv, hlinks.map hv]

/-! ## Conditions -/

theorem predicateCall (hP : ∀ s, P s → Inside s.kind) :
    E.Rules P (E.Alike PredicateCall.recast) Grammar.predicateCall Grammar.predicateCall := by
  have hargument : E.Rules Any (Option.Rel (E.Alike FieldArgument.recast))
      (Grammar.behind .comma Grammar.fieldArgument) (Grammar.behind .comma Grammar.fieldArgument) :=
    behind ⟨by decide, by decide⟩ fieldArgument
  have hprogress : Progress (Grammar.behind .comma Grammar.fieldArgument) :=
    progress_behind (by decide)
  unfold Grammar.predicateCall
  refine spanned ((takeIdentifier hP).bind fun name name' hname => (parenthesised
    (V := fun p p' => E.Alike QualifiedName.recast p.1 p'.1 ∧
      E.Alike (fun σ => List.map (FieldArgument.recast σ)) p.2 p'.2) ?_).bind
    fun p p' hp => pure fun span span' hspan hv => ?_)
  · exact qualifiedName.bind fun field field' hfield =>
      (many hargument hprogress hprogress).bind fun args args' hargs => pure ⟨hfield, hargs⟩
  · rw [PredicateCall.recast, PredicateCall.recast, hname hv, hp.1 hv, hp.2.map hv, hspan hv]

theorem testNegation :
    E.Rules P (Option.Rel E.SameView) Grammar.testNegation Grammar.testNegation := by
  unfold Grammar.testNegation
  refine at? fun b => ?_
  cases b with
  | false => exact ask_bind (V := fun _ _ => True) (fun _ _ _ _ => trivial) fun _ _ _ => pure .none
  | true =>
    have hk (s : State) (h : P s ∧ (s.kind == .kwNot) = true) : Inside s.kind := by
      have heq : s.kind = .kwNot := by simpa using h.2
      exact heq ▸ ⟨by decide, by decide⟩
    refine ask_same (fun s s' hs h => by rw [E.kindAfter hs (hk s h)]) fun b => ?_
    cases b with
    | false => exact pure .none
    | true =>
      exact ask_bind (V := E.SameView) (fun _ _ hs _ => E.current hs) fun t t' ht =>
        change_bind (Q := Any) (fun s _ hs h => ⟨E.skip hs (hk s h.1), trivial⟩) (pure (.some ht))

theorem negation_of_sameView {negation negation' : Option Token}
    (h : Option.Rel E.SameView negation negation') : negation.map E.view = negation'.map E.view := by
  cases h with
  | none => rfl
  | some ht => exact congrArg some ht

theorem test (h : Linked E inner) {i i' : Nat} (hi : E.Position i i') {tested tested' : ValueExpr}
    (ht : E.Alike (ValueExpr.recast E.view) tested tested') :
    E.Rules P (E.Alike (BooleanExpr.recast E.view)) (Grammar.test inner i tested)
      (Grammar.test inner i' tested') := by
  have := h.lawful
  unfold Grammar.test
  refine testNegation.bind fun negation negation' hnegation => askKind fun k => ?_
  have hnegation := negation_of_sameView hnegation
  split
  · next hk =>
    have hin : Inside k := hk ▸ ⟨by decide, by decide⟩
    refine (take (inside_of_eq hin)).bind fun _ _ _ => (parenthesised
      (separated ⟨by decide, by decide⟩ (value h) (value h))).bind fun items items' hitems =>
      ask fun s s' hs _ hv => ?_
    rw [BooleanExpr.recast, BooleanExpr.recast, ht hv, hnegation, ValueExpr.recastAll_eq,
      ValueExpr.recastAll_eq, hitems.map hv, E.span_seen hs hi hv]
  · cases hpattern : PatternKind.ofKind? k with
    | some pattern =>
      have hin : Inside k := by
        constructor <;> rintro rfl <;> cases hpattern
      refine (take (inside_of_eq hin)).bind fun _ _ _ => string.bind fun literal literal' hliteral =>
        ask fun s s' hs _ hv => ?_
      rw [BooleanExpr.recast, BooleanExpr.recast, ht hv, hnegation, hliteral hv, E.span_seen hs hi hv]
    | none =>
      refine pure fun hv => ?_
      rw [BooleanExpr.recast, BooleanExpr.recast, ht hv]

theorem condition (h : Linked E inner) :
    E.Rules P (E.Alike (BooleanExpr.recast E.view)) (Grammar.condition inner)
      (Grammar.condition inner) := by
  unfold Grammar.condition
  refine askKind fun k => askScope fun scope => ?_
  split
  · next hk =>
    have hin : Inside k := hk ▸ ⟨by decide, by decide⟩
    refine spanned ((take fun s hs => inside_of_eq hin s hs.1).bind fun t t' ht =>
      (h.boolean _).bind fun a a' ha => pure fun span span' hspan hv => ?_)
    rw [BooleanExpr.recast, BooleanExpr.recast, ht, ha hv, hspan hv]
  split
  · next hk =>
    have hin : Inside k := by
      simp only [Bool.and_eq_true, decide_eq_true_eq] at hk
      exact hk.1 ▸ ⟨by decide, by decide⟩
    refine (predicateCall fun s hs => inside_of_eq hin s hs.1).bind fun a a' ha =>
      pure fun hv => ?_
    rw [BooleanExpr.recast, BooleanExpr.recast, ha hv]
  split
  · refine askPosition fun i i' hi => ((value h).mono fun _ _ => trivial).bind
      fun tested tested' ht => ?_
    split
    · exact test h hi ht
    · refine pure fun hv => ?_
      rw [BooleanExpr.recast, BooleanExpr.recast, ht hv]
  · exact askPosition fun _ _ hi => noViable hi

theorem connectiveLink (h : Linked E inner) (power : Nat) :
    E.Rules Any (Option.Rel (E.Alike fun σ => ChainLink.recast E.view (BooleanExpr.recast E.view σ)))
      (Grammar.connectiveLink inner power) (Grammar.connectiveLink inner power) := by
  refine linkOf (fun k op hop => ?_) (fun op => h.boolean op.rightPower) power
  constructor <;> rintro rfl <;> cases hop

theorem progress_connectiveLink [inner.Lawful true] (power : Nat) :
    Progress (Grammar.connectiveLink inner power) :=
  progress_linkOf rfl power

theorem connectiveChain (h : Linked E inner) (power : Nat) :
    E.Rules P (E.Alike (BooleanExpr.recast E.view)) (Grammar.connectiveChain inner power)
      (Grammar.connectiveChain inner power) := by
  have := h.lawful
  have hprogress : Progress (Grammar.connectiveLink inner power) := progress_connectiveLink power
  unfold Grammar.connectiveChain
  refine (condition h).bind fun first first' hfirst =>
    (many (connectiveLink h power) hprogress hprogress).bind fun links links' hlinks =>
    pure fun hv => ?_
  rw [BooleanExpr.recast_ofChain, BooleanExpr.recast_ofChain, hfirst hv, hlinks.map hv]

/-- Expressions do the same on both sides, however deep they nest. -/
theorem expressions (n : Nat) : Linked E (Grammar.expressions n) := by
  induction n with
  | zero => exact ⟨inferInstance, fun _ => tooDeep, fun _ => tooDeep⟩
  | succ n ih => exact ⟨inferInstance, fun power => connectiveChain ih power,
      fun power => operatorChain ih power⟩

/-! ## Commands -/

theorem field (h : Linked E inner) :
    E.Rules P (E.Alike (Field.recast E.view)) (Grammar.field inner) (Grammar.field inner) := by
  unfold Grammar.field
  refine spanned ((assigned? (by decide) (by decide)).bind fun name name' hname =>
    (h.boolean 0).bind fun a a' ha => pure fun span span' hspan hv => ?_)
  rw [Field.recast, Field.recast, map_of_alike hname hv, ha hv, hspan hv]

theorem fields (h : Linked E inner) :
    E.Rules P (E.Alike fun σ => List.map (Field.recast E.view σ)) (Grammar.fields inner)
      (Grammar.fields inner) := by
  have := h.lawful
  exact separated ⟨by decide, by decide⟩ (field h) (field h)

theorem renameClause :
    E.Rules P (E.Alike RenameClause.recast) Grammar.renameClause Grammar.renameClause := by
  unfold Grammar.renameClause
  refine spanned (plainIdentifier.bind fun name name' hname =>
    (expect ⟨by decide, by decide⟩).bind fun _ _ _ => qualifiedName.bind fun old old' hold =>
    pure fun span span' hspan hv => ?_)
  rw [RenameClause.recast, RenameClause.recast, hname hv, hold hv, hspan hv]

theorem commandOption :
    E.Rules P (E.Alike CommandOption.recast) Grammar.commandOption Grammar.commandOption := by
  unfold Grammar.commandOption
  refine spanned (plainIdentifier.bind fun name name' hname =>
    (expect ⟨by decide, by decide⟩).bind fun _ _ _ => constant.bind fun value value' hvalue =>
    pure fun span span' hspan hv => ?_)
  rw [CommandOption.recast, CommandOption.recast, hname hv, hvalue hv, hspan hv]

theorem sortKey (h : Linked E inner) :
    E.Rules P (E.Alike (SortKey.recast E.view)) (Grammar.sortKey inner) (Grammar.sortKey inner) := by
  unfold Grammar.sortKey
  refine spanned (((h.boolean 0).mono fun _ _ => trivial).bind fun a a' ha =>
    (accept ⟨by decide, by decide⟩).bind fun order order' horder =>
    (behind ⟨by decide, by decide⟩ (expect ⟨by decide, by decide⟩)).bind fun nulls nulls' hnulls =>
    pure fun span span' hspan hv => ?_)
  have horder : order.map (SortOrder.ofText ·.text) = order'.map (SortOrder.ofText ·.text) := by
    cases horder with
    | none => rfl
    | some ht => exact congrArg some (SortOrder.ofText_congr (ht.sameWord.toLower_text hv))
  have hnulls : nulls.bind (NullsOrder.ofText? ·.text) = nulls'.bind (NullsOrder.ofText? ·.text) := by
    cases hnulls with
    | none => rfl
    | some ht => exact NullsOrder.ofText?_congr (ht.toLower_text hv)
  rw [SortKey.recast, SortKey.recast, ha hv, horder, hnulls, hspan hv]

theorem enrichClause :
    E.Rules P (E.Alike EnrichClause.recast) Grammar.enrichClause Grammar.enrichClause := by
  unfold Grammar.enrichClause
  refine spanned ((assigned? (by decide) (by decide)).bind fun name name' hname =>
    (identifierOf (by decide) (by decide)).bind fun a a' ha => pure fun span span' hspan hv => ?_)
  rw [EnrichClause.recast, EnrichClause.recast, map_of_alike hname hv, ha hv, hspan hv]

theorem processingClause (h : Linked E inner) {kind : Kind} {clause : Rule ProcessingClause}
    (hclause : processingClause? inner kind = some clause) :
    E.Rules Any (E.Alike (ProcessingClause.recast E.view)) clause clause := by
  have := h.lawful
  have hnames {f : List QualifiedName → ProcessingClause} (hf : ∀ names σ,
      (f names).recast E.view σ = f (names.map (QualifiedName.recast σ))) :
      E.Rules Any (E.Alike (ProcessingClause.recast E.view))
        (do return f (← Grammar.qualifiedNames)) (do return f (← Grammar.qualifiedNames)) :=
    qualifiedNames.bind fun a a' ha => pure fun hv => by rw [hf, hf, ha.map hv]
  unfold processingClause? at hclause
  split at hclause <;> cases hclause
  · exact (fields h).bind fun a a' ha => pure fun hv => by
      rw [ProcessingClause.recast, ProcessingClause.recast, ha.map hv]
  · exact integer.bind fun a a' ha => pure fun hv => by
      rw [ProcessingClause.recast, ProcessingClause.recast, ha hv]
  · exact hnames fun _ _ => rfl
  · exact hnames fun _ _ => rfl
  · exact (separated ⟨by decide, by decide⟩ renameClause renameClause).bind fun a a' ha =>
      pure fun hv => by rw [ProcessingClause.recast, ProcessingClause.recast, ha.map hv]
  · exact hnames fun _ _ => rfl
  · refine qualifiedNames.bind fun names names' hnames => string.bind fun pattern pattern' hpattern =>
      atAny? fun b => ?_
    cases b with
    | false =>
      refine pure fun hv => ?_
      rw [ProcessingClause.recast, ProcessingClause.recast, hnames.map hv, hpattern hv]
      rfl
    | true =>
      refine (separated ⟨by decide, by decide⟩ commandOption commandOption).bind fun a a' ha =>
        pure fun hv => ?_
      rw [ProcessingClause.recast, ProcessingClause.recast, hnames.map hv, hpattern hv,
        Option.map_some, Option.map_some, ha.map hv]
  · exact qualifiedNames.bind fun names names' hnames => string.bind fun pattern pattern' hpattern =>
      pure fun hv => by
        rw [ProcessingClause.recast, ProcessingClause.recast, hnames.map hv, hpattern hv]
  · exact (separated ⟨by decide, by decide⟩ (sortKey h) (sortKey h)).bind fun a a' ha =>
      pure fun hv => by rw [ProcessingClause.recast, ProcessingClause.recast, ha.map hv]
  · have hgrouping (fields fields' : Option (List Field))
        (hfields : Option.Rel (E.Alike fun σ => List.map (Field.recast E.view σ)) fields fields') :
        E.Rules Any (E.Alike (ProcessingClause.recast E.view))
          (do return .stats fields (← Grammar.behind .kwBy Grammar.qualifiedNames))
          (do return .stats fields' (← Grammar.behind .kwBy Grammar.qualifiedNames)) := by
      refine (behind ⟨by decide, by decide⟩ qualifiedNames).bind fun names names' hnames =>
        pure fun hv => ?_
      rw [ProcessingClause.recast, ProcessingClause.recast]
      exact congrArg₂ ProcessingClause.stats (map_of_alike hfields hv) (map_of_alike hnames hv)
    refine atAny? fun b => ?_
    cases b with
    | false => exact (pure .none).bind hgrouping
    | true => exact ((fields h).map fun _ _ ha => .some ha).bind hgrouping
  · exact (within (h.boolean 0)).bind fun a a' ha => pure fun hv => by
      rw [ProcessingClause.recast, ProcessingClause.recast, ha hv]
  · exact hnames fun _ _ => rfl
  · refine (identifierOf (by decide) (by decide)).bind fun policy policy' hpolicy =>
      (behind ⟨by decide, by decide⟩ (identifierOf (by decide) (by decide))).bind
      fun field field' hfield => (behind ⟨by decide, by decide⟩
        (separated ⟨by decide, by decide⟩ enrichClause enrichClause)).bind
      fun clauses clauses' hclauses => pure fun hv => ?_
    have hclauses := map_of_alike hclauses hv
    rw [ProcessingClause.recast, ProcessingClause.recast, hpolicy hv, map_of_alike hfield hv]
    exact congrArg (ProcessingClause.enrich _ _) hclauses

theorem kind_of_processingClause {kind : Kind} {clause : Rule ProcessingClause}
    (h : processingClause? inner kind = some clause) : Inside kind := by
  constructor <;> rintro rfl <;> cases h

theorem processingCommand (h : Linked E inner) :
    E.Rules P (E.Alike (ProcessingCommand.recast E.view)) (Grammar.processingCommand inner)
      (Grammar.processingCommand inner) := by
  unfold Grammar.processingCommand
  refine spanned (change_bind (Q := Any) (fun _ _ hs _ => ⟨E.note hs _ _, trivial⟩)
    (askKind fun k => ?_))
  cases hclause : processingClause? inner k with
  | none => exact askPosition fun _ _ hi => noViable hi
  | some clause =>
    refine (take (inside_of_eq (kind_of_processingClause hclause))).bind fun t t' ht =>
      (processingClause h hclause).bind fun a a' ha => pure fun span span' hspan hv => ?_
    rw [ProcessingCommand.recast, ProcessingCommand.recast, ht, ha hv, hspan hv]

theorem subquery {query query' : Rule Query}
    (h : E.Rules Any (E.Alike (Query.recast E.view)) query query') :
    E.Rules P (E.Alike (Query.recast E.view)) (Grammar.subquery query) (Grammar.subquery query') := by
  unfold Grammar.subquery
  exact askPosition fun i i' hi => (expect ⟨by decide, by decide⟩).bind fun _ _ _ =>
    (within h).bind fun a a' ha => (expect ⟨by decide, by decide⟩).bind fun _ _ _ =>
    change_bind (Q := Any) (fun _ _ hs _ => ⟨E.record hs _ _ _, trivial⟩) (pure ha)

/-- A source command is the same on both sides if a query in brackets is, where there is one. -/
theorem sourceCommand (h : Linked E inner) {Q : State → Prop} {query query' : Rule Query}
    (hP : ∀ s, P s → s.kind = .kwExplain → Q s.bump)
    (hq : E.Rules Q (E.Alike (Query.recast E.view)) (Grammar.subquery query)
      (Grammar.subquery query')) (hnote : ∀ s, P s → P (s.note (.sourceCommand s.current))) :
    E.Rules P (E.Alike (SourceCommand.recast E.view)) (Grammar.sourceCommand inner query)
      (Grammar.sourceCommand inner query') := by
  unfold Grammar.sourceCommand
  refine spanned (change_bind (Q := P) (fun s _ hs hp => ⟨E.note hs _ _, hnote s hp⟩)
    (askPosition fun i i' hi => askKind fun k => ?_))
  split
  · refine (take (inside_of_eq ⟨by decide, by decide⟩)).bind_of (Q := Q)
      (fun s hs => hP s hs.1 hs.2) fun t t' ht => hq.bind fun a a' ha =>
      pure fun span span' hspan hv => ?_
    rw [SourceCommand.recast, SourceCommand.recast, SourceClause.recast, SourceClause.recast, ht, ha hv,
      hspan hv]
  · refine (take (inside_of_eq ⟨by decide, by decide⟩)).bind fun t t' ht =>
      (separated ⟨by decide, by decide⟩ (identifierOf (by decide) (by decide))
        (identifierOf (by decide) (by decide))).bind fun a a' ha =>
      pure fun span span' hspan hv => ?_
    rw [SourceCommand.recast, SourceCommand.recast, SourceClause.recast, SourceClause.recast, ht,
      ha.map hv, hspan hv]
  · refine (take (inside_of_eq ⟨by decide, by decide⟩)).bind fun t t' ht => (fields h).bind
      fun a a' ha => pure fun span span' hspan hv => ?_
    rw [SourceCommand.recast, SourceCommand.recast, SourceClause.recast, SourceClause.recast, ht,
      ha.map hv, hspan hv]
  · have hin := inside_of_eq (P := P) (k := .kwShow) ⟨by decide, by decide⟩
    refine ask_same (fun s s' hs hp => E.kindAfter hs (hin s hp)) fun k => ?_
    cases htarget : ShowTarget.ofKind? k with
    | none =>
      exact change_bind (Q := Any) (fun s _ hs hp => ⟨E.skip hs (hin s hp.1), trivial⟩)
        (noViable hi)
    | some target =>
      have hk : Inside k := by
        constructor <;> rintro rfl <;> cases htarget
      refine (take fun s hp => hin s hp.1).bind_of (Q := fun s => s.kind = k)
        (fun s hp => (kind_bump s).trans hp.2) fun t t' ht =>
        (take fun s (hs : s.kind = k) => hs ▸ hk).bind fun _ _ _ =>
        pure fun span span' hspan hv => ?_
      rw [SourceCommand.recast, SourceCommand.recast, SourceClause.recast, SourceClause.recast, ht,
        hspan hv]
  · exact noViable hi

/-- A source command that is no `EXPLAIN` is the same on both sides. -/
theorem sourceCommand_of_ne (h : Linked E inner) (query : Rule Query) :
    E.Rules (fun s => s.kind ≠ .kwExplain) (E.Alike (SourceCommand.recast E.view))
      (Grammar.sourceCommand inner query) (Grammar.sourceCommand inner query) :=
  sourceCommand h (Q := fun _ => False) (fun _ hs hs' => absurd hs' hs) (fun _ _ _ h => h.elim)
    fun _ hs => hs

end

end Rules

end Link

end PipeQuery
