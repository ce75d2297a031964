import PipeQuery.Proofs.CompleteLeaf
import PipeQuery.Proofs.SoundCondition

/-!
# Completeness of expressions

Expressions that the grammar derives are read, in front of every kind that does not hold on to them.
The induction is on the levels of nesting: `Expressions.Complete ρ exact inner n` says it of the
expressions one level deeper, and `expressions_complete` says it of all levels.

A tree of infix operators is a chain along its left edge. Going up that edge each operator binds no
more tightly than the tree under it, and this is what makes the chain read it: the right operand of
an operator ends in front of the next one, whose grip is too loose for it.
-/

namespace PipeQuery.Grammar

open Rule State

variable {α β : Type} {ρ : Token → Token} {exact : Bool} {c : Context} {scope : Scope}
  {ps : List Placed} {follow mid : Kind → Prop}

/-- The context of the rules in a scope. -/
def Scope.context (scope : Scope) (n : Nat) : Context := ⟨scope.predicates, n⟩

/-- A kind that ends a condition whose chain is read at a power. -/
def EndsCondition (power : Nat) (k : Kind) : Prop := k.grip < min (max power 1) 3

/-- A kind that ends arithmetic whose chain is read at a power. -/
def EndsArithmetic (power : Nat) (k : Kind) : Prop := k.grip < 4 + max power 1

/-- A kind that ends a value. -/
def EndsValue (k : Kind) : Prop := k.grip < 4

instance (power : Nat) : DecidablePred (EndsCondition power) :=
  fun k => inferInstanceAs (Decidable (k.grip < min (max power 1) 3))

instance (power : Nat) : DecidablePred (EndsArithmetic power) :=
  fun k => inferInstanceAs (Decidable (k.grip < 4 + max power 1))

instance : DecidablePred EndsValue := fun k => inferInstanceAs (Decidable (k.grip < 4))

/-- Expressions one level deeper are read if they bind as tightly as is asked for. -/
structure Expressions.Complete (ρ : Token → Token) (exact : Bool) (inner : Expressions)
    (n : Nat) : Prop where
  boolean {power : Nat} {scope : Scope} {ps : List Placed} {e : BooleanExpr} (hp : power ≤ e.power)
    (h : Yields ρ exact (scope.context n) [.deeper (.boolean e)] ps) :
    (inner.boolean power).Reads scope ps (EndsCondition power)
      (·.recast ρ .erase = e.recast ρ .erase)
  operator {power : Nat} {scope : Scope} {ps : List Placed} {e : OperatorExpr}
    (hp : power ≤ e.power) (h : Yields ρ exact (scope.context n) [.deeper (.operator e)] ps) :
    (inner.operator power).Reads scope ps (EndsArithmetic power)
      (·.recast ρ .erase = e.recast ρ .erase)

/-! ## Calls -/

theorem yields_separated_cases {F : α → Item} {as : List α}
    (h : Yields ρ exact c (Item.separated .comma (as.map F)) ps) :
    as = [] ∧ ps = [] ∨ Separated .comma (fun a ps => Yields ρ exact c [F a] ps) as ps := by
  cases as with
  | nil => exact .inl ⟨rfl, Yields.nil_iff.1 h⟩
  | cons a as => exact .inr ((Yields.separated_iff (by simp)).1 h)

/-- The name and the arguments of a call. -/
theorem Yields.of_call {name : Identifier} {items : List Item}
    (h : Yields ρ exact c (Item.call name items) ps) :
    ∃ x y z qs, ps = x :: y :: (qs ++ [z]) ∧ Spells ρ exact c (.identifier name) [x] ∧
      x.1.kind = name.kind ∧ y.1.kind = .leftParen ∧ z.1.kind = .rightParen ∧
      Yields ρ exact c (Item.separated .comma items) qs := by
  obtain ⟨qs, rs, rfl, hname, hrest⟩ := Yields.cons_iff.1 h
  obtain ⟨x, rfl, hx, -⟩ := Yields.of_identifier hname
  obtain ⟨y, rs, rfl, hy, hrest⟩ := Yields.terminal_iff.1 hrest
  obtain ⟨qs, rs, rfl, hargs, hclose⟩ := Yields.append_iff.1 hrest
  obtain ⟨z, rfl, hz⟩ := Yields.singleton_terminal_iff.1 hclose
  exact ⟨x, y, z, qs, rfl, hname, hx, hy, hz, hargs⟩

/-! ## Values -/

section

variable {inner : Expressions} {n : Nat}

theorem reads_value (hi : inner.Complete ρ exact n) {v : ValueExpr}
    (h : Spells ρ exact (scope.context n) (.value v) ps) :
    (value inner).Reads scope ps EndsValue (·.recast ρ .erase = v.recast ρ .erase) := by
  obtain ⟨-, hitems, -⟩ := Yields.same_iff.1 h
  unfold value
  cases v with
  | operator e =>
    rw [← List.append_nil ps]
    refine (hi.operator (Nat.zero_le _) hitems).bind (fun rest hk => ?_) fun left hleft => ?_
    · exact Nat.lt_trans hk (by decide)
    refine .ask false (fun s rest hs _ hr hk => ?_) (.pure ?_)
    · rw [hs.kind_eq, hr, List.nil_append, beq_eq_false_iff_ne]
      intro heq
      rw [heq] at hk
      exact absurd hk (by decide)
    · rw [ValueExpr.recast, ValueExpr.recast, hleft]
  | comparison left op token right =>
    obtain ⟨qs, rs, rfl, hleft, hrest⟩ := Yields.cons_iff.1 hitems
    obtain ⟨x, rs, rfl, ⟨hx, hop, htoken⟩, hright⟩ := Yields.terminal_iff.1 hrest
    refine (hi.operator (Nat.zero_le _) hleft).bind (fun rest hk => ?_) fun l hl => ?_
    · rw [List.cons_append, frontKind_cons, hx]
      decide
    refine .at? (by simp) ?_
    rw [frontKind_cons, hx]
    refine .take_bind ?_
    rw [hop]
    refine ((hi.operator (Nat.zero_le _) hright).mono (fun k hk => ?_) fun _ h => h).map
      fun r hr => ?_
    · exact Nat.lt_trans hk (by decide)
    · rw [ValueExpr.recast, ValueExpr.recast, hl, hr, htoken]

theorem reads_scalarArgument (hi : inner.Complete ρ exact n) {a : ScalarArgument}
    (h : Spells ρ exact (scope.context n) (.scalarArgument a) ps) :
    (scalarArgument inner).Reads scope ps EndsValue (·.recast ρ .erase = a.recast ρ .erase) := by
  obtain ⟨-, hitems, -⟩ := Yields.same_iff.1 h
  unfold scalarArgument
  cases a with
  | value v =>
    have hbegins := Yields.begins_value hitems
    have hps : ps ≠ [] := Yields.ne_nil_of_phrase hitems
    intro s rest hs hscope hr hk
    obtain ⟨w, t, hw, he⟩ := reads_value hi hitems s rest hs hscope hr hk
    refine ⟨.value w, t, ?_, by simp only [ScalarArgument.recast, he]⟩
    rw [accepts_atAny?_bind, accepts_before?_bind, if_neg]
    · exact accepts_bind_pure.2 ⟨w, hw, rfl⟩
    · rw [hs.kind_eq, hs.kindAfter_eq, hr, Bool.and_eq_true, KindSet.contains_iff, beq_iff_eq]
      rintro ⟨hnumber, hunit⟩
      refine ((hbegins.append hps ?_).second (KindSet.mem_union.2 (.inr hnumber))).1 hunit
      constructor
      · rintro heq
        rw [heq] at hk
        exact absurd hk (by decide)
      · rintro heq
        rw [heq] at hk
        exact absurd hk (by decide)
  | timeSpan t =>
    obtain ⟨-, hparts, -⟩ := Yields.same_iff.1 hitems
    obtain ⟨qs, rs, rfl, hn, hrest⟩ := Yields.cons_iff.1 hparts
    obtain ⟨x, rfl, hx, -⟩ := Yields.of_number hn
    obtain ⟨y, rfl, hy, -⟩ := Yields.singleton_terminal_iff.1 hrest
    have hnumber : numbers.contains x.1.kind = true := by
      rw [hx]
      exact t.value.kind.kind_mem_numbers
    refine .atAny? (by simp) ?_
    refine .ask true (fun s rest hs _ hr _ => ?_) ?_
    · rw [Rule.Reads.kindAfter_eq hs hr]
      simp [hy]
    have hcond : (numbers.contains (frontKind ([x] ++ [y])) && true) = true := by
      rw [Bool.and_true]
      exact hnumber
    rw [if_pos hcond]
    exact (reads_timeSpan hitems).map fun u hu => by
      rw [ScalarArgument.recast, ScalarArgument.recast, hu]

/-! ## Leaves of arithmetic -/

/-- Arguments in parentheses, each of which begins as a condition. -/
theorem reads_call_arguments {r : Rule α} [Lawful true r] {F : α → Item} {f : α → β}
    {args : List α} {y z : Placed} (hy : y.1.kind = .leftParen) (hz : z.1.kind = .rightParen)
    (h : Yields ρ exact c (Item.separated .comma (args.map F)) ps)
    (hr : ∀ a ps, Yields ρ exact c [F a] ps → r.Reads scope ps mid (f · = f a))
    (hfront : ∀ a ps, Yields ρ exact c [F a] ps → ps ≠ [] ∧ frontKind ps ≠ .rightParen)
    (hmid : mid .comma) (hend : mid .rightParen) :
    (arguments r).Reads scope (y :: (ps ++ [z])) follow (fun bs => bs.map f = args.map f) :=
  reads_arguments hy hz hr hfront hmid hend (yields_separated_cases h)

theorem ne_rightParen_of_mem {k : Kind} (h : k ∈ scope.booleanStart) : k ≠ .rightParen := by
  rintro rfl
  unfold Scope.booleanStart at h
  split at h <;> exact absurd h (by decide)

theorem begins_deeper_boolean {e : BooleanExpr}
    (h : Yields ρ exact (scope.context n) [.deeper (.boolean e)] ps) :
    Begins scope.booleanStart ps := by
  obtain ⟨d, hd, he⟩ := h.exists_same
  cases n with
  | zero => simp [Scope.context, Context.inside] at hd
  | succ n =>
    obtain rfl : (⟨scope.predicates, n⟩ : Context) = d := Option.some.inj hd
    exact Yields.begins_boolean rfl e he

theorem plainNames_cases {k : Kind} (h : k ∈ plainNames) : k = .identifier ∨ k = .quotedIdentifier := by
  simpa using KindSet.mem_ofList.1 h

variable [inner.Lawful true]

/-- What `primary` reads where a plain name stands in front: a call or a reference to a field. -/
def named (inner : Expressions) : Rule PrimaryExpr := do
  if ← before? .leftParen then spanned do
    return .call (← plainIdentifier) (← arguments (inner.boolean 0))
  else return .field (← qualifiedName)

omit [inner.Lawful true] in
theorem primary_of_plain (hk : frontKind ps ∈ plainNames) {wanted : PrimaryExpr → Prop}
    (hps : ps ≠ []) (h : (named inner).Reads scope ps follow wanted) :
    (primary inner).Reads scope ps follow wanted := by
  unfold primary
  refine .askKind hps ?_
  obtain hk | hk := plainNames_cases hk
  all_goals
    rw [hk]
    exact h

omit [inner.Lawful true] in
theorem reads_named_field {q : QualifiedName} (h : Spells ρ exact c (.qualifiedName q) ps) :
    (named inner).Reads scope ps
      (·.grip < 7) (·.recast ρ .erase = (PrimaryExpr.field q).recast ρ .erase) := by
  have hq : qualifiedName.Reads scope ps (·.grip < 7) (·.recast .erase = q.recast .erase) :=
    reads_qualifiedName h fun k hk heq => absurd (heq ▸ hk) (by decide)
  obtain ⟨x, qs, rfl, -, hqs⟩ := Yields.of_qualifiedName h
  unfold named
  refine .ask false (fun s rest hs _ hr hk => ?_) ?_
  · rw [Rule.Reads.kindAfter_eq hs hr, beq_eq_false_iff_ne]
    obtain rfl | hqs := hqs
    · rintro heq
      rw [List.nil_append] at heq
      rw [heq] at hk
      exact absurd hk (by decide)
    · rw [frontKind_append (by rintro rfl; simp at hqs), hqs]
      decide
  · exact hq.map fun d hd => by rw [PrimaryExpr.recast, PrimaryExpr.recast, hd]

theorem reads_named_call (hi : inner.Complete ρ exact n) {name : Identifier} {args : List BooleanExpr}
    {span : Span} (hname : name.IsPlain)
    (h : Yields ρ exact (scope.context n)
      (Item.call name (args.map fun e => .deeper (.boolean e))) ps) :
    (named inner).Reads scope ps follow
      (·.recast ρ .erase = (PrimaryExpr.call name args span).recast ρ .erase) := by
  obtain ⟨x, y, z, qs, rfl, hx, -, hy, hz, hargs⟩ := Yields.of_call h
  unfold named
  refine .ask true (fun s rest hs _ hr hk => ?_) ?_
  · rw [Rule.Reads.kindAfter_eq hs hr, List.cons_append, frontKind_cons, hy]
    rfl
  refine Rule.Reads.spanned ?_
  refine (reads_plainIdentifier hx hname).andThen fun i hi' => ?_
  have hr : (arguments (inner.boolean 0)).Reads scope (y :: (qs ++ [z])) follow
      (fun es => es.map (BooleanExpr.recast ρ .erase) = args.map (BooleanExpr.recast ρ .erase)) :=
    reads_call_arguments hy hz hargs
      (fun e ps he => hi.boolean (Nat.zero_le _) he)
      (fun e ps he => ⟨he.ne_nil_of_phrase, ne_rightParen_of_mem (begins_deeper_boolean he).front⟩)
      (by decide) (by decide)
  refine hr.map fun es hes span => ?_
  simp only [PrimaryExpr.recast, BooleanExpr.recastAll_eq, hi', hes]

theorem reads_primary (hi : inner.Complete ρ exact n) {p : PrimaryExpr}
    (h : Spells ρ exact (scope.context n) (.primary p) ps) :
    (primary inner).Reads scope ps (·.grip < 7) (·.recast ρ .erase = p.recast ρ .erase) := by
  have hps := h.ne_nil_of_phrase
  obtain ⟨hadm, hitems, -⟩ := Yields.same_iff.1 h
  cases p with
  | constant a =>
    unfold primary
    refine .askKind hps ?_
    rw [if_pos (Yields.begins_constant hitems).front]
    exact (reads_constant hitems).map fun b hb => by rw [PrimaryExpr.recast, PrimaryExpr.recast, hb]
  | field q =>
    exact primary_of_plain (Yields.begins_qualifiedName hitems).front hps (reads_named_field hitems)
  | group e span =>
    obtain ⟨x, rs, rfl, hx, hrest⟩ := Yields.terminal_iff.1 hitems
    obtain ⟨qs, rs, rfl, he, hclose⟩ := Yields.cons_iff.1 hrest
    obtain ⟨y, rfl, hy⟩ := Yields.singleton_terminal_iff.1 hclose
    have hx : x.1.kind = .leftParen := hx
    unfold primary
    refine .askKind hps ?_
    rw [frontKind_cons, hx, if_neg (by decide), if_pos rfl]
    refine Rule.Reads.spanned ?_
    have hinner := (hi.boolean (Nat.zero_le _) he).mono
      (fun k (hk : k = .rightParen) => by rw [hk]; decide) fun _ h => h
    exact (reads_parenthesised hx hy hinner).map fun d hd span => by
      rw [PrimaryExpr.recast, PrimaryExpr.recast, hd]
  | call name args span =>
    have hk : Begins plainNames ps := Yields.begins_call hitems (Identifier.IsPlain.mem hadm)
    exact primary_of_plain hk.front hps (reads_named_call hi hadm hitems)

/-! ## Arithmetic -/

/-- How a leaf begins decides that it is one. -/
theorem primaryStart_cases {k : Kind} (h : k ∈ primaryStart) :
    Sign.ofKind? k = none ∧ k ≠ .aggregateFunction ∧ k ≠ .scalarFunction := by
  revert h
  cases k <;> decide

theorem front_fieldArgument {a : FieldArgument} (h : Spells ρ exact c (.fieldArgument a) ps) :
    ps ≠ [] ∧ frontKind ps ≠ .rightParen := by
  refine ⟨h.ne_nil_of_phrase, ?_⟩
  obtain ⟨-, hitems, -⟩ := Yields.same_iff.1 h
  cases a with
  | field q =>
    intro hk
    exact absurd (hk ▸ (Yields.begins_qualifiedName hitems).front) (by decide)
  | string l =>
    obtain ⟨x, rfl, hx, -⟩ := Yields.of_string hitems
    rw [frontKind_cons, hx]
    decide
  | numeric m =>
    obtain ⟨x, rfl, hx, -⟩ := Yields.of_number hitems
    rw [frontKind_cons, hx]
    cases m.kind <;> decide

theorem front_scalarArgument {a : ScalarArgument} (h : Spells ρ exact c (.scalarArgument a) ps) :
    ps ≠ [] ∧ frontKind ps ≠ .rightParen := by
  refine ⟨h.ne_nil_of_phrase, ?_⟩
  obtain ⟨-, hitems, -⟩ := Yields.same_iff.1 h
  cases a with
  | value v =>
    intro hk
    exact absurd (hk ▸ (Yields.begins_value hitems).front) (by decide)
  | timeSpan t =>
    obtain ⟨-, hparts, -⟩ := Yields.same_iff.1 hitems
    obtain ⟨qs, rs, rfl, hn, -⟩ := Yields.cons_iff.1 hparts
    obtain ⟨x, rfl, hx, -⟩ := Yields.of_number hn
    rw [List.singleton_append, frontKind_cons, hx]
    cases t.value.kind <;> decide

theorem reads_operand (hi : inner.Complete ρ exact n) {e : OperatorExpr} (hpower : e.power = Sign.power)
    (h : Spells ρ exact (scope.context n) (.operator e) ps) :
    (operand inner).Reads scope ps (·.grip < 7) (·.recast ρ .erase = e.recast ρ .erase) := by
  have hps := h.ne_nil_of_phrase
  obtain ⟨hadm, hitems, -⟩ := Yields.same_iff.1 h
  unfold operand
  refine .askKind hps ?_
  cases e with
  | primary p =>
    have hitems : Spells ρ exact (scope.context n) (.primary p) ps := by
      simpa [Phrase.items, OperatorExpr.items] using hitems
    obtain ⟨hsign, haggregate, hscalar⟩ := primaryStart_cases (Yields.begins_primary hitems).front
    rw [hsign]
    simp only [haggregate, hscalar, if_false]
    rw [if_pos (Yields.begins_primary hitems).front]
    exact (reads_primary hi hitems).map fun q hq => by
      rw [OperatorExpr.recast, OperatorExpr.recast, hq]
  | aggregate name args span =>
    have hname : name.kind = .aggregateFunction := hadm
    have hitems : Yields ρ exact (scope.context n)
        (Item.call name (args.map fun a => .same (.fieldArgument a))) ps := by
      simpa [Phrase.items, OperatorExpr.items] using hitems
    obtain ⟨x, y, z, qs, rfl, hx, hk, hy, hz, hargs⟩ := Yields.of_call hitems
    rw [frontKind_cons, hk, hname]
    refine Rule.Reads.spanned ?_
    refine (reads_takeIdentifier hx).andThen fun i hi' => ?_
    have hr : (arguments fieldArgument).Reads scope (y :: (qs ++ [z])) (·.grip < 7)
        (fun as => as.map (FieldArgument.recast .erase) = args.map (FieldArgument.recast .erase)) :=
      reads_call_arguments hy hz hargs (fun a ps ha => reads_fieldArgument ha fun k hk => hk)
        (fun a ps ha => front_fieldArgument ha) (by decide) (by decide)
    refine hr.map fun as has span => ?_
    simp only [OperatorExpr.recast, hi', has]
  | scalar name args span =>
    have hname : name.kind = .scalarFunction := hadm
    have hitems : Yields ρ exact (scope.context n)
        (Item.call name (args.map fun a => .same (.scalarArgument a))) ps := by
      simpa [Phrase.items, OperatorExpr.items] using hitems
    obtain ⟨x, y, z, qs, rfl, hx, hk, hy, hz, hargs⟩ := Yields.of_call hitems
    rw [frontKind_cons, hk, hname]
    refine Rule.Reads.spanned ?_
    refine (reads_takeIdentifier hx).andThen fun i hi' => ?_
    have hr : (arguments (scalarArgument inner)).Reads scope (y :: (qs ++ [z])) (·.grip < 7)
        (fun as => as.map (ScalarArgument.recast ρ .erase)
          = args.map (ScalarArgument.recast ρ .erase)) :=
      reads_call_arguments hy hz hargs (fun a ps ha => reads_scalarArgument hi ha)
        (fun a ps ha => front_scalarArgument ha) (by decide) (by decide)
    refine hr.map fun as has span => ?_
    simp only [OperatorExpr.recast, ScalarArgument.recastAll_eq, hi', has]
  | signed sign operator e span =>
    have hbound : Sign.power ≤ e.power := hadm
    simp only [Phrase.items, OperatorExpr.items] at hitems
    obtain ⟨x, qs, rfl, ⟨hx, htoken⟩, he⟩ := Yields.terminal_iff.1 hitems
    have hx : x.1.kind = sign.kind := by simpa using hx
    rw [frontKind_cons, hx, Sign.ofKind?_eq_some_iff.2 rfl]
    refine Rule.Reads.spanned (.take_bind ?_)
    exact (hi.operator hbound he).map fun d hd span => by
      rw [OperatorExpr.recast, OperatorExpr.recast, hd, htoken]
  | binary op operator left right =>
    have : op.leftPower = Sign.power := hpower
    cases op <;> simp [ArithmeticOp.leftPower, Sign.power] at this

/-- A link of a chain is read if its operator joins the chain. -/
theorem reads_linkOf {O T : Type} {ofKind? : Kind → Option O} {left : O → Nat} {right : O → Rule T}
    {power : Nat} {op : O} {x : Placed} {qs : List Placed} {follow : Kind → Prop}
    {wanted : T → Prop} (hop : ofKind? x.1.kind = some op) (hp : power ≤ left op)
    (h : (right op).Reads scope qs follow wanted) :
    (linkOf ofKind? left right power).Reads scope (x :: qs) follow fun o =>
      ∃ a, o = some ⟨op, x.1, a⟩ ∧ wanted a := by
  unfold linkOf
  refine .askKind (by simp) ?_
  rw [frontKind_cons, hop]
  simp only [Nat.not_lt.2 hp, if_false]
  exact .take_bind (h.map fun a ha => ⟨a, rfl, ha⟩)

omit [inner.Lawful true] in
/-- A link of a chain of infix operators is read if the operator joins the chain. -/
theorem reads_operatorLink (hi : inner.Complete ρ exact n) {power : Nat} {op : ArithmeticOp}
    {operator : Token} {right : OperatorExpr} {x : Placed} {qs : List Placed}
    (hx : x.1.kind = op.kind) (htoken : ρ x.1 = ρ operator) (hp : power ≤ op.leftPower)
    (hright : op.rightPower ≤ right.power)
    (h : Yields ρ exact (scope.context n) [.deeper (.operator right)] qs) :
    (operatorLink inner power).Reads scope (x :: qs) (EndsArithmetic op.rightPower) fun o =>
      ∃ link, o = some link ∧ link.op = op ∧ ρ link.operator = ρ operator ∧
        link.right.recast ρ .erase = right.recast ρ .erase :=
  (reads_linkOf (ArithmeticOp.ofKind?_eq_some_iff.2 hx) hp (hi.operator hright h)).mono
    (fun _ hk => hk) fun _ ⟨_, ho, hr⟩ => ⟨_, ho, rfl, htoken, hr⟩

/-- An operand is a chain in front of every operator. -/
theorem readsChain_operand (hi : inner.Complete ρ exact n) {power : Nat} {e : OperatorExpr}
    (hpower : e.power = Sign.power) (h : Spells ρ exact (scope.context n) (.operator e) ps) :
    ReadsChain (operand inner) (operatorLink inner power)
      (fun left link => .binary link.op link.operator left link.right) scope ps
      (fun k => k.grip ≤ min (4 + e.power) 6) (·.recast ρ .erase = e.recast ρ .erase) := by
  refine .of_operand ((reads_operand hi hpower h).mono (fun k hk => ?_) fun _ h => h)
  omega

/-- A tree of infix operators is a chain, in front of an operator that binds no more tightly. -/
theorem readsChain_operator (hi : inner.Complete ρ exact n) {power : Nat} :
    ∀ (e : OperatorExpr) {ps : List Placed}, power ≤ e.power →
      Spells ρ exact (scope.context n) (.operator e) ps →
      ReadsChain (operand inner) (operatorLink inner power)
        (fun left link => .binary link.op link.operator left link.right) scope ps
        (fun k => k.grip ≤ min (4 + e.power) 6) (·.recast ρ .erase = e.recast ρ .erase)
  | .binary op operator left right, ps, hp, h => by
    obtain ⟨⟨hleft, hright⟩, hitems, -⟩ := Yields.same_iff.1 h
    simp only [Phrase.items, OperatorExpr.items] at hitems
    obtain ⟨qs, rs, rfl, hl, hrest⟩ := Yields.cons_iff.1 hitems
    obtain ⟨x, rs, rfl, ⟨hx, htoken⟩, hr⟩ := Yields.terminal_iff.1 hrest
    have hx : x.1.kind = op.kind := by simpa using hx
    have hp : power ≤ op.leftPower := hp
    obtain ⟨hone, hsucc, htop⟩ := op.power_bounds
    have hchain := readsChain_operator hi left (Nat.le_trans hp hleft) hl
    have hlink := reads_operatorLink hi hx htoken hp hright hr
    have hfollow : ∀ k : Kind, k.grip ≤ min (4 + op.leftPower) 6 → EndsArithmetic op.rightPower k := by
      intro k hk
      unfold EndsArithmetic
      omega
    refine hchain.append (fun rest hk => ?_) (hlink.mono hfollow fun _ h => h) fun e link he hl => ?_
    · rw [List.cons_append, frontKind_cons, hx, op.grip_kind]
      unfold Sign.power at htop
      omega
    · obtain ⟨hop, htok, hright⟩ := hl
      simp only [OperatorExpr.recast, hop, htok, hright, he]
  | .primary p, ps, hp, h => readsChain_operand hi rfl h
  | .aggregate name args span, ps, hp, h => readsChain_operand hi rfl h
  | .scalar name args span, ps, hp, h => readsChain_operand hi rfl h
  | .signed sign operator operand span, ps, hp, h => readsChain_operand hi rfl h

theorem reads_operatorChain (hi : inner.Complete ρ exact n) {power : Nat} {e : OperatorExpr}
    (hp : power ≤ e.power) (h : Spells ρ exact (scope.context n) (.operator e) ps) :
    (operatorChain inner power).Reads scope ps (EndsArithmetic power)
      (·.recast ρ .erase = e.recast ρ .erase) := by
  have hchain := readsChain_operator hi e hp h
  obtain ⟨hone, htop⟩ := e.power_bounds
  unfold Sign.power at htop
  refine hchain.reads (fun k hk => ?_) fun s hs hk => ?_
  · unfold EndsArithmetic at hk
    omega
  · refine accepts_operatorLink_none hs fun op hop => ?_
    rw [ArithmeticOp.ofKind?_eq_some_iff.1 hop, EndsArithmetic, op.grip_kind] at hk
    have := op.power_bounds
    omega

end

end PipeQuery.Grammar
