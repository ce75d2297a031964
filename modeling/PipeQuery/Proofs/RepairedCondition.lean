import PipeQuery.Proofs.RepairedExpression

/-!
# Conditions with repairs

Whatever the rules for conditions answer, be there mistakes or not, is derived by the grammar, and
with them expressions on all levels of nesting (`expressions_repairs`).
-/

namespace PipeQuery.Grammar

open Rule

variable {s t : State} {us vs : List Placed} {c : Context}

/-! ## Predicates and tests -/

theorem makes_predicateCall (hk : s.kind = .predicateFunction) :
    predicateCall.Makes s fun a us _ => Builds c (.predicateCall a) us := by
  unfold predicateCall
  refine .spanned ((makes_takeIdentifier (c := c) (by rw [hk]; rfl)).bind
    fun name us t _ ⟨hname, hnk⟩ => ?_)
  -- the field and the arguments are the elements of one list
  let D : QualifiedName × List FieldArgument → List Placed → Prop := fun call us =>
    Yields id false c (Item.separated .comma
      (.same (.qualifiedName call.1) :: call.2.map fun arg => .same (.fieldArgument arg))) us
  have hcall : ∀ u, Makes (do
      let field ← qualifiedName
      let args ← many (behind .comma fieldArgument)
      return (field, args)) u fun call us _ => D call us := by
    intro u
    refine (makes_qualifiedName (c := c)).bind fun field vs v _ hfield => .bind_pure ?_
    refine (makes_many_behind (f := fun arg => .same (.fieldArgument arg))
      (D := fun item us => Yields id false c [item] us) (by decide)
      (fun _ _ => makes_fieldArgument) hfield).mono fun args ws w _ hsep => ?_
    have hitems := (Yields.separated_iff (f := id) hsep.ne_nil).2 hsep
    rwa [List.map_id] at hitems
  refine .bind_pure ((makes_parenthesised fun u _ => hcall u).mono ?_)
  rintro ⟨field, args⟩ vs u - ⟨x, y, ws, rfl, hx, hy, hargs⟩ span
  exact .of_items (hnk.trans hk) (yields_call hname (yields_parentheses hx hargs hy))

/-- The negation of a test is made in front of its word, or it does not stand there. -/
theorem makes_testNegation : testNegation.Makes s fun negation us t =>
    Yields id false c (Item.negation negation) us ∧
      (t.kind ∈ testWords ∨ us = [] ∧ negation = none) := by
  unfold testNegation
  refine .of_regular fun hs => .ask_bind (.ask_bind ?_)
  split
  · next h =>
    simp only [Bool.and_eq_true, beq_iff_eq, KindSet.contains_iff] at h
    obtain ⟨hk, hafter⟩ := h
    refine .ask_bind ?_
    intro _ negation t hrun
    obtain ⟨rfl, rfl⟩ : some s.current = negation ∧ s.skip = t := by
      rw [run_bind] at hrun
      simpa using hrun
    obtain ⟨x, hx, hgives⟩ := State.Gives.of_next hs (by simp [hk]) rfl (.single (.skip s))
    refine ⟨[x], hgives, .terminal ⟨?_, hx⟩ (.nil c), .inl ?_⟩
    · rw [hx]
      exact List.mem_singleton.2 hk
    · rwa [State.kindAfter, TokenStream.lookahead_succ] at hafter
  · exact .pure ⟨.nil c, .inr ⟨rfl, rfl⟩⟩

section

variable {inner : Expressions} {n : Nat}

/-- A value that may be tested, with its test. -/
theorem makes_test (hi : inner.Repairs n) {start : Nat} {tested : ValueExpr}
    (ht : t.scope = s.scope) (hfilters : s.scope.predicates = true)
    (htested : Builds (s.context n) (.value tested) us) :
    (test inner start tested).Makes t fun e vs _ =>
      Builds (s.context n) (.boolean e) (us ++ vs) ∧ e.power = Connective.notPower := by
  unfold test
  refine (makes_testNegation (c := s.context n)).bind fun negation vs u hu ⟨hneg, hword⟩ =>
    .ask_bind ?_
  have huscope := hu.scope.trans ht
  split
  · next hk =>
    refine (makes_take (by simp [hk])).bind ?_
    rintro token ws v hv ⟨htoken, -, x, rfl, hx⟩
    refine .bind_ask ((makes_parenthesised fun w hw => makes_list fun w' hw' =>
      makes_value hi (hw'.trans (hw.trans (hv.scope.trans huscope)))).mono ?_)
    rintro items zs w - ⟨y, z, zs, rfl, hy, hz, hne, hitems⟩
    refine ⟨.of_items ⟨hfilters, hne⟩ ?_, rfl⟩
    have hin : (Terminal.kind .kwIn).Matches id x.1 := by
      rw [hx, htoken]
      exact hk
    exact Yields.append htested (hneg.append (.terminal hin (yields_parentheses hy hitems hz)))
  · split
    · next pattern hpattern =>
      have hk := PatternKind.ofKind?_eq_some_iff.1 hpattern
      refine (makes_take (by rw [hk]; cases pattern <;> decide)).bind ?_
      rintro token ws v hv ⟨htoken, -, x, rfl, hx⟩
      refine .bind_ask ((makes_string (c := s.context n)).mono fun literal zs w _ hliteral =>
        ⟨.of_items hfilters ?_, rfl⟩)
      have hmatch : (Terminal.kind pattern.kind).Matches id x.1 := by
        rw [hx, htoken]
        exact hk
      exact Yields.append htested (hneg.append (.terminal hmatch hliteral))
    · next hin _ hpattern =>
      refine .pure ⟨?_, rfl⟩
      obtain hword | ⟨rfl, rfl⟩ := hword
      · have hword : u.kind = .kwLike ∨ u.kind = .kwRlike := by
          simpa [testWords, hin] using hword
        rcases hword with hword | hword <;> simp [hword, PatternKind.ofKind?] at hpattern
      · rw [List.append_nil, List.append_nil]
        exact htested.alone trivial rfl

theorem makes_condition (hi : inner.Repairs n) :
    (condition inner).Makes s fun e us _ =>
      Builds (s.context n) (.boolean e) us ∧ e.power = Connective.notPower := by
  unfold condition
  refine .ask_bind (.ask_bind ?_)
  split
  · next hk =>
    refine .spanned ((makes_take (by simp [hk])).bind ?_)
    rintro token us t ht ⟨htoken, -, x, rfl, rfl⟩
    refine .bind_pure ((hi.boolean_of_scope (Nat.le_refl _) ht.scope).mono
      fun e vs u _ ⟨he, hpower, _⟩ span => ⟨.of_items hpower (.terminal ⟨?_, rfl⟩ he), rfl⟩)
    rw [htoken]
    exact List.mem_singleton.2 hk
  split
  · next hk =>
    simp only [Bool.and_eq_true, decide_eq_true_eq] at hk
    exact .bind_pure ((makes_predicateCall hk.1).mono fun _ _ _ _ h => ⟨h.alone hk.2 rfl, rfl⟩)
  split
  · refine .ask_bind ((makes_value hi rfl).bind fun tested us t ht htested => ?_)
    split
    · next hfilters => exact makes_test hi ht.scope hfilters htested
    · exact .pure ⟨(List.append_nil us).symm ▸ htested.alone trivial rfl, rfl⟩
  · exact .ask_bind .giveUp

/-! ## Chains of connectives -/

theorem makes_connectiveLink (hi : inner.Repairs n) (power : Nat) (h : t.scope = s.scope) :
    (connectiveLink inner power).Makes t (LinkMade Connective.ofKind? Connective.leftPower
      BooleanExpr.power (fun e link => .connective link.op e link.operator link.right)
      (fun e us => Builds (s.context n) (.boolean e) us) power t) := by
  have hpower : ∀ op : Connective, op.rightPower ≤ Connective.notPower := fun op => by
    cases op <;> decide
  refine (makes_linkOf rfl fun op u hu =>
    hi.boolean_of_scope (hpower op) (hu.trans h)).mono fun link vs u _ hlink => ?_
  cases link with
  | none => exact hlink
  | some link =>
    obtain ⟨hlt, hop, hge, x, ws, rfl, hx, hkind, hright, hpower, hstop⟩ := hlink
    refine ⟨hlt, hop, hge, fun e us he hle => ?_, fun op hop => Nat.le_of_lt_succ (hstop op hop)⟩
    refine .of_items ⟨hle, hpower⟩ (Yields.append he (.terminal ⟨?_, hx⟩ hright))
    rw [hx, hkind, Connective.ofKind?_eq_some_iff.1 hop]
    exact List.mem_singleton_self _

theorem makes_connectiveChain (hi : inner.Repairs n) {power : Nat}
    (hp : power ≤ Connective.notPower) :
    (connectiveChain inner power).Makes s fun e us t =>
      Builds (s.context n) (.boolean e) us ∧ power ≤ e.power ∧
        ∀ op, Connective.ofKind? t.kind = some op → op.leftPower < power :=
  makes_chain (makes_condition hi) (fun _ ht => makes_connectiveLink hi power ht) (fun _ _ => rfl)
    (fun op => by cases op <;> decide) rfl hp

end

/-! ## Levels -/

/-- Whatever is read as an expression is derived by the grammar, on all levels of nesting. -/
theorem expressions_repairs (n : Nat) : (expressions n).Repairs n := by
  induction n with
  | zero => exact ⟨fun _ _ => .giveUp, fun _ _ => .giveUp⟩
  | succ n ih =>
    constructor
    · intro power hp s
      have h : (connectiveChain (expressions n) power).Makes s fun e us t =>
          Yields id false (s.context (n + 1)) [.deeper (.boolean e)] us ∧ power ≤ e.power ∧
            ∀ op, Connective.ofKind? t.kind = some op → op.leftPower < power :=
        (makes_connectiveChain ih hp).mono fun _ _ _ _ ⟨he, h⟩ =>
          ⟨Yields.deeper_succ_iff.2 he, h⟩
      exact h
    · intro power hp s
      have h : (operatorChain (expressions n) power).Makes s fun e us t =>
          Yields id false (s.context (n + 1)) [.deeper (.operator e)] us ∧ power ≤ e.power ∧
            ∀ op, ArithmeticOp.ofKind? t.kind = some op → op.leftPower < power :=
        (makes_operatorChain ih hp).mono fun _ _ _ _ ⟨he, h⟩ =>
          ⟨Yields.deeper_succ_iff.2 he, h⟩
      exact h

end PipeQuery.Grammar
