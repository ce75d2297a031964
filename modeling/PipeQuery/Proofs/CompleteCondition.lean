import PipeQuery.Proofs.CompleteExpression

/-!
# Completeness of conditions

Conditions that the grammar derives are read, and with them expressions on all levels of nesting
(`expressions_complete`). A `NOT` that comes behind a value belongs to a test, and one that comes in
front of a condition negates it; the word behind it tells them apart.
-/

namespace PipeQuery.Grammar

open Rule State

variable {ρ : Token → Token} {exact : Bool} {c : Context} {scope : Scope}
  {ps : List Placed} {follow : Kind → Prop}

/-! ## Predicates and tests -/

theorem reads_predicateCall {a : PredicateCall} (h : Spells ρ exact c (.predicateCall a) ps) :
    predicateCall.Reads scope ps follow (·.recast .erase = a.recast .erase) := by
  obtain ⟨-, hitems, -⟩ := Yields.same_iff.1 h
  obtain ⟨x, y, z, qs, rfl, hx, -, hy, hz, hargs⟩ := Yields.of_call hitems
  unfold predicateCall
  refine Rule.Reads.spanned ?_
  refine (reads_takeIdentifier hx).andThen fun name hname => ?_
  have hsep : Separated .comma (fun item ps => Yields ρ exact c [item] ps)
      (.same (.qualifiedName a.field) :: a.args.map fun a => .same (.fieldArgument a)) qs := by
    refine (Yields.separated_iff (f := id) (by simp)).1 ?_
    rwa [List.map_id]
  obtain ⟨qs, rs, rfl, hfield, hrest⟩ := hsep.exists_trailing
  have hargs : (many (behind .comma fieldArgument)).Reads scope rs (· = .rightParen)
      (fun as => as.map (FieldArgument.recast .erase) = a.args.map (FieldArgument.recast .erase)) :=
    reads_many_behind (fun b ps hb => reads_fieldArgument hb fun k hk => hk) (by decide)
      (fun k hk => by rw [hk]; decide) hrest.of_map
  have hfield : qualifiedName.Reads scope qs (fun k => k ≠ .dot)
    (·.recast .erase = a.field.recast .erase) :=
    reads_qualifiedName hfield fun k hk => hk
  have hinner : (do
      let field ← qualifiedName
      let args ← many (behind .comma fieldArgument)
      return (field, args) : Rule (QualifiedName × List FieldArgument)).Reads scope (qs ++ rs)
      (· = .rightParen) fun b => b.1.recast .erase = a.field.recast .erase ∧
        b.2.map (FieldArgument.recast .erase) = a.args.map (FieldArgument.recast .erase) := by
    refine hfield.bind (fun rest hk => ?_) fun field hf => hargs.map fun as has => ⟨hf, has⟩
    have hk : frontKind rest ≠ .dot := by
      rw [hk]
      decide
    exact hrest.front (P := (· ≠ .dot)) (by decide) hk
  refine (reads_parenthesised hy hz hinner).map fun b hb span => ?_
  simp only [PredicateCall.recast, hname, hb.1, hb.2]

theorem reads_skip {x : Placed} :
    (change (·.skip)).Reads scope [x] follow fun _ => True := by
  intro s rest hs _ hr _
  have hskip := hs.reads_skip
  rw [hr] at hskip
  exact ⟨(), s.skip, accepts_change.2 ⟨rfl, hskip⟩, trivial⟩

/-- The negation of a test stands in front of its word. -/
theorem reads_testNegation {negation : Option Token}
    (h : Yields ρ exact c (Item.negation negation) ps) (hf : ∀ k, follow k → k ∈ testWords) :
    testNegation.Reads scope ps follow (fun o => o.map ρ = negation.map ρ) := by
  unfold testNegation
  cases negation with
  | none =>
    obtain rfl := Yields.nil_iff.1 h
    refine .ask false (fun s rest hs _ hr hk => ?_) ?_
    · rw [hs.kind_eq, hr, List.nil_append, beq_eq_false_iff_ne]
      rintro heq
      exact absurd (heq ▸ hf _ hk) (by decide)
    · exact .askAny fun b => by
        rw [Bool.false_and]
        exact .pure rfl
  | some token =>
    obtain ⟨x, rfl, hx, htoken⟩ := Yields.singleton_terminal_iff.1 h
    have hx : x.1.kind = .kwNot := by simpa using hx
    refine .at? (by simp) ?_
    refine .ask true (fun s rest hs _ hr hk => ?_) ?_
    · rw [Rule.Reads.kindAfter_eq hs hr, List.nil_append]
      exact KindSet.contains_iff.2 (hf _ hk)
    rw [frontKind_cons, hx]
    refine .ask x.1 (fun s rest hs _ hr hk => ?_) ?_
    · simp [State.current, TokenStream.current, hr]
    · rw [← List.append_nil [x]]
      refine reads_skip.andThen fun _ _ => .pure ?_
      rw [Option.map_some, Option.map_some, htoken]

section

variable {inner : Expressions} {n : Nat}

/-- Where no test follows, the value stands alone. -/
theorem reads_test_none {v tested : ValueExpr} {start : Nat}
    (he : tested.recast ρ .erase = v.recast ρ .erase) :
    (test inner start tested).Reads scope [] (·.grip < 3)
      (·.recast ρ .erase = (BooleanExpr.value v).recast ρ .erase) := by
  intro s rest hs hscope hr hk
  have hkind : s.kind = frontKind rest := by rw [hs.kind_eq, hr, List.nil_append]
  rw [← hkind] at hk
  refine ⟨.value tested, s, ?_, by simp only [BooleanExpr.recast, he]⟩
  have hneg : testNegation.Accepts s [] none s := by
    unfold testNegation
    rw [accepts_at?_bind, accepts_ask_bind, if_neg]
    · exact accepts_pure.2 ⟨hs, rfl, rfl, rfl⟩
    · rw [Bool.and_eq_true, beq_iff_eq]
      rintro ⟨heq, -⟩
      rw [heq] at hk
      exact absurd hk (by decide)
  have htest : (test inner start tested).Accepts s ([] ++ []) (.value tested) s := by
    unfold test
    refine hneg.bind ?_
    rw [accepts_ask_bind, if_neg]
    · have hnone : PatternKind.ofKind? s.kind = none := by
        cases hp : PatternKind.ofKind? s.kind with
        | none => rfl
        | some pattern =>
          rw [PatternKind.ofKind?_eq_some_iff.1 hp] at hk
          cases pattern <;> exact absurd hk (by decide)
      rw [hnone]
      exact accepts_pure.2 ⟨hs, rfl, rfl, rfl⟩
    · rintro heq
      rw [heq] at hk
      exact absurd hk (by decide)
  exact htest

/-- A test by `IN`, behind its value. -/
theorem reads_test_isIn [inner.Lawful true] (hi : inner.Complete ρ exact n) {v tested : ValueExpr}
    {start : Nat} {negation : Option Token} {items : List ValueExpr} {span : Span}
    (he : tested.recast ρ .erase = v.recast ρ .erase) (hne : items ≠ [])
    (h : Yields ρ exact (scope.context n) (Item.negation negation
      ++ .kind .kwIn :: .kind .leftParen :: (Item.list .value items ++ [.kind .rightParen])) ps) :
    (test inner start tested).Reads scope ps follow
      (·.recast ρ .erase = (BooleanExpr.isIn v negation items span).recast ρ .erase) := by
  obtain ⟨qs, rs, rfl, hneg, hrest⟩ := Yields.append_iff.1 h
  obtain ⟨x, rs, rfl, hx, hrest⟩ := Yields.terminal_iff.1 hrest
  obtain ⟨y, rs, rfl, hy, hrest⟩ := Yields.terminal_iff.1 hrest
  obtain ⟨rs, zs, rfl, hlist, hclose⟩ := Yields.append_iff.1 hrest
  obtain ⟨z, rfl, hz⟩ := Yields.singleton_terminal_iff.1 hclose
  have hx : x.1.kind = .kwIn := hx
  unfold test
  refine (reads_testNegation hneg fun k hk => hk).bind (fun rest _ => ?_) fun o ho => ?_
  · rw [List.cons_append, frontKind_cons, hx]
    decide
  refine .askKind (by simp) ?_
  rw [frontKind_cons, hx, if_pos rfl]
  refine .take_bind ?_
  have hitems : (separated .comma (value inner)).Reads scope rs (· = .rightParen)
      (fun vs => vs.map (ValueExpr.recast ρ .erase) = items.map (ValueExpr.recast ρ .erase)) :=
    reads_list hne hlist (fun w ps hw => reads_value hi hw) (by decide)
      (fun k hk => by rw [hk]; decide)
  refine (reads_parenthesised hy hz hitems).map_ask fun vs t hvs => ?_
  simp only [BooleanExpr.recast, ValueExpr.recastAll_eq, he, ho, hvs]

/-- A test by a pattern, behind its value. -/
theorem reads_test_isMatch {v tested : ValueExpr} {start : Nat} {negation : Option Token}
    {kind : PatternKind} {pattern : StringLiteral} {span : Span}
    (he : tested.recast ρ .erase = v.recast ρ .erase)
    (h : Yields ρ exact c (Item.negation negation
      ++ [.kind kind.kind, .same (.string pattern)]) ps) :
    (test inner start tested).Reads scope ps follow
      (·.recast ρ .erase = (BooleanExpr.isMatch v negation kind pattern span).recast ρ .erase) := by
  obtain ⟨qs, rs, rfl, hneg, hrest⟩ := Yields.append_iff.1 h
  obtain ⟨x, rs, rfl, hx, hpattern⟩ := Yields.terminal_iff.1 hrest
  have hx : x.1.kind = kind.kind := hx
  unfold test
  refine (reads_testNegation hneg fun k hk => hk).bind (fun rest _ => ?_) fun o ho => ?_
  · rw [List.cons_append, frontKind_cons, hx]
    cases kind <;> decide
  refine .askKind (by simp) ?_
  rw [frontKind_cons, hx, if_neg (by cases kind <;> decide), PatternKind.ofKind?_eq_some_iff.2 rfl]
  refine .take_bind ?_
  refine (reads_string hpattern).map_ask fun l t hl => ?_
  simp only [BooleanExpr.recast, he, ho, hl]

/-! ## Operands of connectives -/

/-- How a value begins decides that it is one. -/
theorem operatorStart_cases {k : Kind} (h : k ∈ operatorStart) :
    k ≠ .kwNot ∧ k ≠ .predicateFunction := by
  constructor
  · rintro rfl
    exact absurd h (by decide)
  · rintro rfl
    exact absurd h (by decide)

/-- A condition that begins with a value, and what is read behind the value. -/
theorem reads_condition_of_value (hi : inner.Complete ρ exact n) {v : ValueExpr} {qs : List Placed}
    {wanted : BooleanExpr → Prop} (h : Spells ρ exact (scope.context n) (.value v) ps)
    (hend : ∀ rest, follow (frontKind rest) → EndsValue (frontKind (qs ++ rest)))
    (hrest : ∀ start tested, tested.recast ρ .erase = v.recast ρ .erase →
      (if scope.predicates then test inner start tested
        else pure (.value tested)).Reads scope qs follow wanted) :
    (condition inner).Reads scope (ps ++ qs) follow wanted := by
  have hps : ps ≠ [] := h.ne_nil_of_phrase
  have hfront : frontKind (ps ++ qs) ∈ operatorStart := by
    rw [frontKind_append hps]
    exact (Yields.begins_value h).front
  obtain ⟨hnot, hpredicate⟩ := operatorStart_cases hfront
  unfold condition
  refine .askKind (by simp [hps]) ?_
  refine .ask scope (fun s rest _ hscope _ _ => hscope) ?_
  simp only [hnot, hpredicate, decide_false, Bool.false_and, if_false, Bool.false_eq_true]
  rw [if_pos hfront]
  refine .askAny fun start => ?_
  exact (reads_value hi h).bind hend (hrest start)

/-- A value ends where its test begins. -/
theorem ends_value_of_negation {negation : Option Token} {items : List Item} {rest : List Placed}
    (h : Yields ρ exact c (Item.negation negation ++ items) ps)
    (hitems : ∀ qs, Yields ρ exact c items qs →
      qs ≠ [] ∧ (frontKind qs = .kwIn ∨ ∃ kind : PatternKind, frontKind qs = kind.kind)) :
    EndsValue (frontKind (ps ++ rest)) := by
  have hends : ∀ qs, Yields ρ exact c items qs → EndsValue (frontKind qs) := by
    intro qs hqs
    obtain ⟨-, hk | ⟨kind, hk⟩⟩ := hitems qs hqs
    · rw [hk]
      decide
    · rw [hk]
      cases kind <;> decide
  have hps : ps ≠ [] := by
    rintro rfl
    obtain ⟨qs, rs, heq, -, hrs⟩ := Yields.append_iff.1 h
    obtain ⟨-, rfl⟩ := List.append_eq_nil_iff.1 heq.symm
    exact (hitems [] hrs).1 rfl
  rw [frontKind_append hps]
  exact h.front_negation (by decide) hends

variable [inner.Lawful true]

/-- A condition without a connective of its own. -/
theorem reads_condition (hi : inner.Complete ρ exact n) {e : BooleanExpr}
    (hpower : e.power = Connective.notPower)
    (h : Spells ρ exact (scope.context n) (.boolean e) ps) :
    (condition inner).Reads scope ps (·.grip < 3) (·.recast ρ .erase = e.recast ρ .erase) := by
  have hps := h.ne_nil_of_phrase
  obtain ⟨hadm, hitems, -⟩ := Yields.same_iff.1 h
  simp only [Phrase.items] at hitems
  cases e with
  | not operator operand span =>
    have hbound : Connective.notPower ≤ operand.power := hadm
    simp only [BooleanExpr.items] at hitems
    obtain ⟨x, qs, rfl, ⟨hx, htoken⟩, he⟩ := Yields.terminal_iff.1 hitems
    have hx : x.1.kind = .kwNot := by simpa using hx
    unfold condition
    refine .askKind hps (.askAny fun scope' => ?_)
    rw [frontKind_cons, hx, if_pos rfl]
    refine Rule.Reads.spanned (.take_bind ?_)
    refine ((hi.boolean hbound he).mono (fun k hk => ?_) fun _ h => h).map fun d hd span => ?_
    · exact hk
    · rw [BooleanExpr.recast, BooleanExpr.recast, hd, htoken]
  | value v =>
    simp only [BooleanExpr.items] at hitems
    rw [← List.append_nil ps]
    refine reads_condition_of_value hi hitems (fun rest hk => ?_) fun start tested he => ?_
    · exact Nat.lt_succ_of_lt hk
    · split
      · exact reads_test_none he
      · exact .pure (by simp only [BooleanExpr.recast, he])
  | connective op left operator right =>
    have : op.leftPower = Connective.notPower := hpower
    cases op <;> simp [Connective.leftPower, Connective.notPower] at this
  | isIn v negation items span =>
    obtain ⟨hfilters, hne⟩ : scope.predicates = true ∧ items ≠ [] := hadm
    simp only [BooleanExpr.items] at hitems
    obtain ⟨qs, rs, rfl, hv, hrest⟩ := Yields.cons_iff.1 hitems
    refine reads_condition_of_value hi hv (fun rest _ => ?_) fun start tested he => ?_
    · refine ends_value_of_negation hrest fun zs hzs => ?_
      obtain ⟨x, qs, rfl, hx, -⟩ := Yields.terminal_iff.1 hzs
      exact ⟨by simp, .inl hx⟩
    · rw [if_pos hfilters]
      exact reads_test_isIn hi he hne hrest
  | isMatch v negation kind pattern span =>
    have hfilters : scope.predicates = true := hadm
    simp only [BooleanExpr.items] at hitems
    obtain ⟨qs, rs, rfl, hv, hrest⟩ := Yields.cons_iff.1 hitems
    refine reads_condition_of_value hi hv (fun rest _ => ?_) fun start tested he => ?_
    · refine ends_value_of_negation hrest fun zs hzs => ?_
      obtain ⟨x, qs, rfl, hx, -⟩ := Yields.terminal_iff.1 hzs
      have hx : x.1.kind = kind.kind := hx
      exact ⟨by simp, .inr ⟨kind, hx⟩⟩
    · rw [if_pos hfilters]
      exact reads_test_isMatch he hrest
  | predicate call =>
    have hfilters : scope.predicates = true := hadm
    simp only [BooleanExpr.items] at hitems
    have hk : frontKind ps = .predicateFunction := by
      obtain ⟨hcall, hparts, -⟩ := Yields.same_iff.1 hitems
      obtain ⟨x, y, z, qs, rfl, -, hx, -⟩ := Yields.of_call hparts
      exact hx.trans hcall
    unfold condition
    refine .askKind hps ?_
    refine .ask scope (fun s rest _ hscope _ _ => hscope) ?_
    rw [hk, if_neg (by decide), if_pos (by simp [hfilters])]
    exact (reads_predicateCall hitems).map fun d hd => by
      rw [BooleanExpr.recast, BooleanExpr.recast, hd]

/-! ## Chains of connectives -/

omit [inner.Lawful true] in
/-- A link of a chain of connectives is read if the connective joins the chain. -/
theorem reads_connectiveLink (hi : inner.Complete ρ exact n) {power : Nat} {op : Connective}
    {operator : Token} {right : BooleanExpr} {x : Placed} {qs : List Placed}
    (hx : x.1.kind = op.kind) (htoken : ρ x.1 = ρ operator) (hp : power ≤ op.leftPower)
    (hright : op.rightPower ≤ right.power)
    (h : Yields ρ exact (scope.context n) [.deeper (.boolean right)] qs) :
    (connectiveLink inner power).Reads scope (x :: qs) (EndsCondition op.rightPower) fun o =>
      ∃ link, o = some link ∧ link.op = op ∧ ρ link.operator = ρ operator ∧
        link.right.recast ρ .erase = right.recast ρ .erase :=
  (reads_linkOf (Connective.ofKind?_eq_some_iff.2 hx) hp (hi.boolean hright h)).mono
    (fun _ hk => hk) fun _ ⟨_, ho, hr⟩ => ⟨_, ho, rfl, htoken, hr⟩

/-- A condition without a connective of its own is a chain in front of every connective. -/
theorem readsChain_condition (hi : inner.Complete ρ exact n) {power : Nat} {e : BooleanExpr}
    (hpower : e.power = Connective.notPower)
    (h : Spells ρ exact (scope.context n) (.boolean e) ps) :
    ReadsChain (condition inner) (connectiveLink inner power)
      (fun left link => .connective link.op left link.operator link.right) scope ps
      (fun k => k.grip ≤ min e.power 2) (·.recast ρ .erase = e.recast ρ .erase) := by
  refine .of_operand ((reads_condition hi hpower h).mono (fun k hk => ?_) fun _ h => h)
  omega

/-- A tree of connectives is a chain, in front of a connective that binds no more tightly. -/
theorem readsChain_boolean (hi : inner.Complete ρ exact n) {power : Nat} :
    ∀ (e : BooleanExpr) {ps : List Placed}, power ≤ e.power →
      Spells ρ exact (scope.context n) (.boolean e) ps →
      ReadsChain (condition inner) (connectiveLink inner power)
        (fun left link => .connective link.op left link.operator link.right) scope ps
        (fun k => k.grip ≤ min e.power 2) (·.recast ρ .erase = e.recast ρ .erase)
  | .connective op left operator right, ps, hp, h => by
    obtain ⟨⟨hleft, hright⟩, hitems, -⟩ := Yields.same_iff.1 h
    simp only [Phrase.items, BooleanExpr.items] at hitems
    obtain ⟨qs, rs, rfl, hl, hrest⟩ := Yields.cons_iff.1 hitems
    obtain ⟨x, rs, rfl, ⟨hx, htoken⟩, hr⟩ := Yields.terminal_iff.1 hrest
    have hx : x.1.kind = op.kind := by simpa using hx
    have hp : power ≤ op.leftPower := hp
    obtain ⟨hone, hsucc, htop⟩ := op.power_bounds
    unfold Connective.notPower at htop
    have hchain := readsChain_boolean hi left (Nat.le_trans hp hleft) hl
    have hlink := reads_connectiveLink hi hx htoken hp hright hr
    have hfollow : ∀ k : Kind, k.grip ≤ min op.leftPower 2 → EndsCondition op.rightPower k := by
      intro k hk
      unfold EndsCondition
      omega
    refine hchain.append (fun rest hk => ?_) (hlink.mono hfollow fun _ h => h) fun e link he hl => ?_
    · rw [List.cons_append, frontKind_cons, hx, op.grip_kind]
      omega
    · obtain ⟨hop, htok, hright⟩ := hl
      simp only [BooleanExpr.recast, hop, htok, hright, he]
  | .not operator operand span, ps, hp, h => readsChain_condition hi rfl h
  | .value v, ps, hp, h => readsChain_condition hi rfl h
  | .isIn v negation items span, ps, hp, h => readsChain_condition hi rfl h
  | .isMatch v negation kind pattern span, ps, hp, h => readsChain_condition hi rfl h
  | .predicate call, ps, hp, h => readsChain_condition hi rfl h

theorem reads_connectiveChain (hi : inner.Complete ρ exact n) {power : Nat} {e : BooleanExpr}
    (hp : power ≤ e.power) (h : Spells ρ exact (scope.context n) (.boolean e) ps) :
    (connectiveChain inner power).Reads scope ps (EndsCondition power)
      (·.recast ρ .erase = e.recast ρ .erase) := by
  have hchain := readsChain_boolean hi e hp h
  obtain ⟨hone, htop⟩ := e.power_bounds
  unfold Connective.notPower at htop
  refine hchain.reads (fun k hk => ?_) fun s hs hk => ?_
  · unfold EndsCondition at hk
    omega
  · refine accepts_connectiveLink_none hs fun op hop => ?_
    rw [Connective.ofKind?_eq_some_iff.1 hop, EndsCondition, op.grip_kind] at hk
    have := op.power_bounds
    omega

end

/-! ## Levels -/

/-- Expressions that the grammar derives are read on all levels of nesting. -/
theorem expressions_complete (n : Nat) : (expressions n).Complete ρ exact n := by
  induction n with
  | zero =>
    exact ⟨fun _ h => absurd h Yields.not_deeper_zero, fun _ h => absurd h Yields.not_deeper_zero⟩
  | succ n ih =>
    constructor
    · intro power scope ps e hp h
      have hy : Spells ρ exact (scope.context n) (.boolean e) ps := Yields.deeper_succ_iff.1 h
      exact reads_connectiveChain ih hp hy
    · intro power scope ps e hp h
      have hy : Spells ρ exact (scope.context n) (.operator e) ps := Yields.deeper_succ_iff.1 h
      exact reads_operatorChain ih hp hy

end PipeQuery.Grammar
