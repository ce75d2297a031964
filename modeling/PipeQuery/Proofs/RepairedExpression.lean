import PipeQuery.Proofs.RepairedLeaf
import PipeQuery.Proofs.SoundExpression

/-!
# Expressions with repairs

Whatever the rules for expressions answer, be there mistakes or not, is derived by the grammar from
the tokens that it was made of: `Expressions.Repairs inner n` says it of the expressions one level
deeper, and `expressions_repairs` of all levels. In particular operators bind as tightly as their
places ask for, and tests and predicates stand in filters only.

What carries the induction along a chain of operators is what carries it where nothing is repaired:
an operator behind a tree never binds more tightly than the tree.
-/

namespace PipeQuery.Grammar

open Rule

variable {α : Type} {s t : State} {us vs : List Placed} {c : Context}

/-- Expressions one level deeper are derived as such, and end where no operator joins them. -/
structure Expressions.Repairs (inner : Expressions) (n : Nat) : Prop where
  boolean {power : Nat} (hp : power ≤ Connective.notPower) (s : State) :
    (inner.boolean power).Makes s fun e us t =>
      Yields id false (s.context n) [.deeper (.boolean e)] us ∧ power ≤ e.power ∧
        ∀ op, Connective.ofKind? t.kind = some op → op.leftPower < power
  operator {power : Nat} (hp : power ≤ Sign.power) (s : State) :
    (inner.operator power).Makes s fun e us t =>
      Yields id false (s.context n) [.deeper (.operator e)] us ∧ power ≤ e.power ∧
        ∀ op, ArithmeticOp.ofKind? t.kind = some op → op.leftPower < power

/-- The arguments of a function, with their parentheses. -/
theorem makes_arguments {r : Rule α} {f : α → Item}
    (hr : ∀ u, u.scope = s.scope → r.Makes u fun a us _ => Yields id false c [f a] us) :
    (arguments r).Makes s fun as us _ => Yields id false c
      (.kind .leftParen :: (Item.separated .comma (as.map f) ++ [.kind .rightParen])) us := by
  unfold arguments
  refine (makes_parenthesised (D := fun as us =>
    Yields id false c (Item.separated .comma (as.map f)) us) fun u hu => .ask_bind ?_).mono ?_
  · split
    · exact .pure (.nil c)
    · exact (makes_separated (by decide) fun v hv => hr v (hv.trans hu)).mono
        fun as us t _ hsep => (Yields.separated_iff hsep.ne_nil).2 hsep
  · rintro as us t - ⟨x, y, vs, rfl, hx, hy, has⟩
    exact yields_parentheses hx has hy

/-! ## Chains -/

section

variable {O T : Type} {ofKind? : Kind → Option O} {left : O → Nat} {power : Nat}

/-- What a link of a chain is made of: an operator that joins the chain, and its right operand.
Without such an operator nothing is read, and the chain ends. -/
def LinkMade (ofKind? : Kind → Option O) (left : O → Nat) (tight : T → Nat)
    (join : T → ChainLink O T → T) (D : T → List Placed → Prop) (power : Nat) (t : State) :
    Option (ChainLink O T) → List Placed → State → Prop
  | some link, vs, u =>
    u.stream.remaining < t.stream.remaining ∧ ofKind? t.kind = some link.op ∧
      power ≤ left link.op ∧
      (∀ e us, D e us → left link.op ≤ tight e → D (join e link) (us ++ vs)) ∧
      ∀ op, ofKind? u.kind = some op → left op ≤ left link.op
  | none, vs, u => vs = [] ∧ u = t ∧ ∀ op, ofKind? t.kind = some op → left op < power

/-- An operator that joins a chain is matched, and then its right operand is read. -/
theorem makes_linkOf {right : O → Rule T} {R : O → T → List Placed → State → Prop}
    (hend : ofKind? .endOfInput = none)
    (hr : ∀ op u, u.scope = t.scope → (right op).Makes u (R op)) :
    (linkOf ofKind? left right power).Makes t fun link vs u => match link with
      | some link =>
        u.stream.remaining < t.stream.remaining ∧ ofKind? t.kind = some link.op ∧
          power ≤ left link.op ∧ ∃ (x : Placed) (ws : List Placed), vs = x :: ws ∧
            x.1 = link.operator ∧ link.operator.kind = t.kind ∧ R link.op link.right ws u
      | none => vs = [] ∧ u = t ∧ ∀ op, ofKind? t.kind = some op → left op < power := by
  unfold linkOf
  refine .of_regular fun ht => .ask_bind ?_
  split
  · next op hop =>
    split
    · next hlt =>
      refine .pure ⟨rfl, rfl, fun op' hop' => ?_⟩
      obtain rfl := Option.some.inj (hop.symm.trans hop')
      exact hlt
    · next hge =>
      have hk : t.kind ≠ .endOfInput := by
        intro hk
        rw [hk, hend] at hop
        cases hop
      refine (makes_take hk).bind ?_
      rintro token us u hu ⟨htoken, rfl, x, rfl, hx⟩
      refine .bind_pure ((hr op _ hu.scope).mono fun right vs v hv hright => ?_)
      have hlt := Nat.lt_of_le_of_lt (remaining_le_of_steps hv.steps)
        (remaining_bump_lt ht.valid hk)
      exact ⟨hlt, hop, Nat.le_of_not_lt hge, x, vs, rfl, hx, htoken ▸ rfl, hright⟩
  · next hnone =>
    refine .pure ⟨rfl, rfl, fun op hop => ?_⟩
    rw [hnone] at hop
    cases hop

/-- A chain is made of its first operand and its links. The operator behind a tree never binds more
tightly than the tree. -/
theorem makes_chain {r : Rule T} {link : Rule (Option (ChainLink O T))} {tight : T → Nat}
    {join : T → ChainLink O T → T} {D : T → List Placed → Prop} {top : Nat}
    (hr : r.Makes s fun e us _ => D e us ∧ tight e = top)
    (hlink : ∀ t, t.scope = s.scope →
      link.Makes t (LinkMade ofKind? left tight join D power t))
    (hjoin : ∀ e link, tight (join e link) = left link.op) (htop : ∀ op, left op ≤ top)
    (hend : ofKind? .endOfInput = none) (hp : power ≤ top) :
    (do return List.foldl join (← r) (← many link) : Rule T).Makes s fun e us t =>
      D e us ∧ power ≤ tight e ∧ ∀ op, ofKind? t.kind = some op → left op < power := by
  refine hr.bind fun first us t ht ⟨hfirst, htight⟩ => .bind_pure ?_
  let I : List (ChainLink O T) → List Placed → State → Prop := fun links vs u =>
    D (links.foldl join first) (us ++ vs) ∧ power ≤ tight (links.foldl join first) ∧
      ∀ op, ofKind? u.kind = some op → left op ≤ tight (links.foldl join first)
  have hstart : I [] [] t := by
    refine ⟨by simpa using hfirst, ?_, fun op _ => ?_⟩
    · exact hp.trans (Nat.le_of_eq htight.symm)
    · exact (htop op).trans (Nat.le_of_eq htight.symm)
  refine (makes_many (I := I)
    (fun u => ∀ op, ofKind? u.kind = some op → left op < power) (fun u hu op hop => ?_)
    (fun links vs u hu hI => ?_) hstart).mono fun links vs u _ ⟨⟨hD, hpower, _⟩, hstop⟩ =>
      ⟨hD, hpower, hstop⟩
  · rw [hu, hend] at hop
    cases hop
  · refine (hlink u (hu.scope.trans ht.scope)).mono fun o ws v _ ho => ?_
    obtain ⟨hD, hpower, hnext⟩ := hI
    cases o with
    | some l =>
      obtain ⟨hlt, hop, hge, hjoined, hstop⟩ := ho
      refine ⟨hlt, ?_, ?_, ?_⟩ <;> rw [List.foldl_append, List.foldl_cons, List.foldl_nil]
      · rw [← List.append_assoc]
        exact hjoined _ _ hD (hnext _ hop)
      · rw [hjoin]
        exact hge
      · intro op hop
        rw [hjoin]
        exact hstop op hop
    | none =>
      obtain ⟨rfl, rfl, hstop⟩ := ho
      rw [List.append_nil]
      exact ⟨⟨hD, hpower, hnext⟩, hstop⟩

end

/-! ## Values -/

section

variable {inner : Expressions} {n : Nat}

/-- Expressions in a state of the same scope. -/
theorem Expressions.Repairs.boolean_of_scope (hi : inner.Repairs n) {power : Nat}
    (hp : power ≤ Connective.notPower) (h : t.scope = s.scope) :
    (inner.boolean power).Makes t fun e us u =>
      Yields id false (s.context n) [.deeper (.boolean e)] us ∧ power ≤ e.power ∧
        ∀ op, Connective.ofKind? u.kind = some op → op.leftPower < power :=
  State.context_eq h n ▸ hi.boolean hp t

theorem Expressions.Repairs.operator_of_scope (hi : inner.Repairs n) {power : Nat}
    (hp : power ≤ Sign.power) (h : t.scope = s.scope) :
    (inner.operator power).Makes t fun e us u =>
      Yields id false (s.context n) [.deeper (.operator e)] us ∧ power ≤ e.power ∧
        ∀ op, ArithmeticOp.ofKind? u.kind = some op → op.leftPower < power :=
  State.context_eq h n ▸ hi.operator hp t

theorem makes_value (hi : inner.Repairs n) (h : t.scope = s.scope) :
    (value inner).Makes t fun v us _ => Builds (s.context n) (.value v) us := by
  unfold value
  refine (hi.operator_of_scope (by decide) h).bind fun left us u hu ⟨hleft, _, _⟩ => .ask_bind ?_
  have huscope := hu.scope.trans h
  split
  · next hk =>
    have hkind : u.kind = .comparison := eq_of_beq hk
    refine (makes_take (by simp [hkind])).bind ?_
    rintro token vs v hv ⟨htoken, -, x, rfl, rfl⟩
    split
    · next op hop =>
      refine .bind_pure ((hi.operator_of_scope (by decide) (hv.scope.trans huscope)).mono
        fun right ws w _ ⟨hright, _, _⟩ => .of_items trivial (hleft.append (.terminal ?_ hright)))
      exact ⟨htoken ▸ hkind, hop, rfl⟩
    · exact .giveUp
  · exact .pure (.of_items trivial ((List.append_nil us).symm ▸ hleft))

theorem makes_scalarArgument (hi : inner.Repairs n) (h : t.scope = s.scope) :
    (scalarArgument inner).Makes t fun a us _ => Builds (s.context n) (.scalarArgument a) us := by
  unfold scalarArgument
  refine .ask_bind (.ask_bind ?_)
  split
  · next hk =>
    simp only [Bool.and_eq_true, beq_iff_eq, KindSet.contains_iff] at hk
    exact .bind_pure ((makes_timeSpan hk.1 hk.2).mono fun _ _ _ _ h => h.alone trivial rfl)
  · exact .bind_pure ((makes_value hi h).mono fun _ _ _ _ h => h.alone trivial rfl)

theorem makes_primary (hi : inner.Repairs n) :
    (primary inner).Makes s fun p us _ => Builds (s.context n) (.primary p) us := by
  unfold primary
  refine .ask_bind ?_
  split
  · exact .bind_pure (makes_constant.mono fun _ _ _ _ h => h.alone trivial rfl)
  split
  · refine .spanned (.bind_pure ((makes_parenthesised fun u hu =>
      (hi.boolean_of_scope (by decide) hu).mono fun _ _ _ _ h => h.1).mono ?_))
    rintro e us t - ⟨x, y, vs, rfl, hx, hy, he⟩ span
    exact .of_items trivial (yields_parentheses hx he hy)
  split
  · refine .ask_bind ?_
    split
    · refine .spanned ((makes_plainIdentifier (c := s.context n)).bind
        fun name us t ht ⟨hname, hplain⟩ => .bind_pure ((makes_arguments fun u hu =>
          (hi.boolean_of_scope (by decide) (hu.trans ht.scope)).mono fun _ _ _ _ h => h.1).mono
            fun args vs u _ hargs span => ?_))
      exact .of_items hplain (yields_call hname hargs)
    · exact .bind_pure (makes_qualifiedName.mono fun _ _ _ _ h => h.alone trivial rfl)
  · exact .ask_bind .giveUp

/-! ## Arithmetic -/

theorem makes_operand (hi : inner.Repairs n) :
    (operand inner).Makes s fun e us _ =>
      Builds (s.context n) (.operator e) us ∧ e.power = Sign.power := by
  unfold operand
  refine .ask_bind ?_
  split
  · next sign hsign =>
    have hk := Sign.ofKind?_eq_some_iff.1 hsign
    refine .spanned ((makes_take (by rw [hk]; cases sign <;> decide)).bind ?_)
    rintro token us t ht ⟨htoken, -, x, rfl, rfl⟩
    refine .bind_pure ((hi.operator_of_scope (Nat.le_refl _) ht.scope).mono ?_)
    rintro e vs u - ⟨he, hpower, -⟩ span
    refine ⟨.of_items hpower (.terminal ⟨?_, rfl⟩ he), rfl⟩
    rw [htoken]
    exact List.mem_singleton.2 hk
  split
  · next hk =>
    refine .spanned ((makes_takeIdentifier (c := s.context n) (by rw [hk]; rfl)).bind ?_)
    rintro name us t - ⟨hname, hnk⟩
    exact .bind_pure ((makes_arguments fun _ _ => makes_fieldArgument (c := s.context n)).mono
      fun args vs u _ hargs span => ⟨.of_items (hnk.trans hk) (yields_call hname hargs), rfl⟩)
  split
  · next hk =>
    refine .spanned ((makes_takeIdentifier (c := s.context n) (by rw [hk]; rfl)).bind ?_)
    rintro name us t ht ⟨hname, hnk⟩
    exact .bind_pure ((makes_arguments fun u hu => makes_scalarArgument hi (hu.trans ht.scope)).mono
      fun args vs u _ hargs span => ⟨.of_items (hnk.trans hk) (yields_call hname hargs), rfl⟩)
  split
  · exact .bind_pure ((makes_primary hi).mono fun _ _ _ _ h => ⟨h.alone trivial rfl, rfl⟩)
  · exact .ask_bind .giveUp

theorem makes_operatorLink (hi : inner.Repairs n) (power : Nat) (h : t.scope = s.scope) :
    (operatorLink inner power).Makes t (LinkMade ArithmeticOp.ofKind? ArithmeticOp.leftPower
      OperatorExpr.power (fun e link => .binary link.op link.operator e link.right)
      (fun e us => Builds (s.context n) (.operator e) us) power t) := by
  have hpower : ∀ op : ArithmeticOp, op.rightPower ≤ Sign.power := fun op => by
    cases op <;> decide
  refine (makes_linkOf rfl fun op u hu =>
    hi.operator_of_scope (hpower op) (hu.trans h)).mono fun link vs u _ hlink => ?_
  cases link with
  | none => exact hlink
  | some link =>
    obtain ⟨hlt, hop, hge, x, ws, rfl, hx, hkind, hright, hpower, hstop⟩ := hlink
    refine ⟨hlt, hop, hge, fun e us he hle => ?_, fun op hop => Nat.le_of_lt_succ (hstop op hop)⟩
    refine .of_items ⟨hle, hpower⟩ (Yields.append he (.terminal ⟨?_, hx⟩ hright))
    rw [hx, hkind, ArithmeticOp.ofKind?_eq_some_iff.1 hop]
    exact List.mem_singleton_self _

theorem makes_operatorChain (hi : inner.Repairs n) {power : Nat} (hp : power ≤ Sign.power) :
    (operatorChain inner power).Makes s fun e us t =>
      Builds (s.context n) (.operator e) us ∧ power ≤ e.power ∧
        ∀ op, ArithmeticOp.ofKind? t.kind = some op → op.leftPower < power :=
  makes_chain (makes_operand hi) (fun _ ht => makes_operatorLink hi power ht) (fun _ _ => rfl)
    (fun op => by cases op <;> decide) rfl hp

end

end PipeQuery.Grammar
