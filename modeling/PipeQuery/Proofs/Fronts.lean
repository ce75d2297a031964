import PipeQuery.Grammar.Expression
import PipeQuery.Proofs.Derivation

/-!
# How expressions begin and end

A rule decides by the next one or two tokens what it reads, and whether it goes on. The two sides of
this on the part of the grammar are here. `Begins` says how the stretch of an expression begins: with
one of some kinds, and a name or a number in front is followed neither by an equals sign nor by a
unit of time. `Kind.grip` is how tightly a token holds on to the expression in front of it; an
expression ends where a token comes whose grip is too loose.
-/

namespace PipeQuery

open Grammar

/-! ## Grip -/

/-- How tightly a token holds on to the expression in front of it: connectives by their power, then
the words of tests, comparisons, infix operators by their power, and at last what belongs to a
leaf. -/
def Kind.grip : Kind → Nat
  | .kwOr => 1
  | .kwAnd => 2
  | .kwNot | .kwIn | .kwLike | .kwRlike => 3
  | .comparison => 4
  | .plus | .minus => 5
  | .asterisk | .slash | .percent => 6
  | .dot | .leftParen | .dateUnit | .assign => 7
  | _ => 0

theorem Connective.grip_kind (op : Connective) : op.kind.grip = op.leftPower := by
  cases op <;> rfl

theorem ArithmeticOp.grip_kind (op : ArithmeticOp) : op.kind.grip = 4 + op.leftPower := by
  cases op <;> rfl

theorem Connective.power_bounds (op : Connective) :
    1 ≤ op.leftPower ∧ op.rightPower = op.leftPower + 1 ∧ op.rightPower < Connective.notPower := by
  cases op <;> decide

theorem ArithmeticOp.power_bounds (op : ArithmeticOp) :
    1 ≤ op.leftPower ∧ op.rightPower = op.leftPower + 1 ∧ op.rightPower ≤ Sign.power := by
  cases op <;> decide

theorem BooleanExpr.power_bounds (e : BooleanExpr) :
    1 ≤ e.power ∧ (e.power ≤ 2 ∨ e.power = Connective.notPower) := by
  cases e with
  | connective op left operator right => cases op <;> simp [power, Connective.leftPower]
  | _ => simp [power, Connective.notPower]

theorem OperatorExpr.power_bounds (e : OperatorExpr) : 1 ≤ e.power ∧ e.power ≤ Sign.power := by
  cases e with
  | binary op operator left right =>
    cases op <;> simp [power, ArithmeticOp.leftPower, Sign.power]
  | _ => simp [power, Sign.power]

/-! ## Beginnings -/

/-- A stretch that begins as an expression may begin. -/
structure Begins (kinds : KindSet) (ps : List Placed) : Prop where
  front : frontKind ps ∈ kinds
  second (h : frontKind ps ∈ plainNames ∪ numbers) :
    frontKind ps.tail ≠ .dateUnit ∧ frontKind ps.tail ≠ .assign

namespace Begins

variable {kinds kinds' : KindSet} {ps qs : List Placed} {x : Placed} {k : Kind}

theorem mono (h : Begins kinds ps) (hk : ∀ k ∈ kinds, k ∈ kinds') : Begins kinds' ps :=
  ⟨hk _ h.front, h.second⟩

theorem singleton (hx : x.1.kind ∈ kinds) : Begins kinds [x] := by
  refine ⟨hx, fun _ => ?_⟩
  simp

/-- A token in front that is neither a name nor a number. -/
theorem cons (hx : x.1.kind = k) (hk : k ∈ kinds) (hn : k ∉ plainNames ∪ numbers) :
    Begins kinds (x :: ps) := by
  refine ⟨by rwa [frontKind_cons, hx], fun h => ?_⟩
  rw [frontKind_cons, hx] at h
  exact absurd h hn

theorem cons_cons {y : Placed} (hx : x.1.kind ∈ kinds)
    (hy : y.1.kind ≠ .dateUnit ∧ y.1.kind ≠ .assign) : Begins kinds (x :: y :: ps) :=
  ⟨hx, fun _ => hy⟩

/-- What comes behind the first token of a longer stretch does not matter. -/
theorem append (h : Begins kinds ps) (hps : ps ≠ [])
    (hqs : frontKind qs ≠ .dateUnit ∧ frontKind qs ≠ .assign) : Begins kinds (ps ++ qs) := by
  obtain ⟨x, rest, rfl⟩ := List.exists_cons_of_ne_nil hps
  refine ⟨h.front, fun hx => ?_⟩
  cases rest with
  | nil => exact hqs
  | cons y rest => exact h.second hx

end Begins

section

variable {ρ : Token → Token} {exact : Bool} {c : Context} {ps : List Placed}

theorem Yields.exists_same {nesting : Nesting} {p : Phrase}
    (h : Yields ρ exact c [.phrase nesting p] ps) :
    ∃ d, c.inside nesting = some d ∧ Yields ρ exact d [.same p] ps := by
  obtain ⟨d, hd, hadm, hitems, hspan⟩ := singleton_phrase_iff.1 h
  exact ⟨d, hd, same_iff.2 ⟨hadm, hitems, hspan⟩⟩

/-! ## Leaves are single tokens -/

theorem Yields.of_identifier {i : Identifier} (h : Yields ρ exact c [.same (.identifier i)] ps) :
    ∃ x, ps = [x] ∧ x.1.kind = i.kind ∧ x.1.text = i.raw ∧
      i.quoted = i.kind.isQuotedIdentifier := by
  obtain ⟨hadm, hitems, -⟩ := same_iff.1 h
  obtain ⟨x, rfl, hx⟩ := singleton_terminal_iff.1 hitems
  exact ⟨x, rfl, hx.1, hx.2, hadm.2⟩

theorem Yields.of_number {n : NumericValue} (h : Yields ρ exact c [.same (.number n)] ps) :
    ∃ x, ps = [x] ∧ x.1.kind = n.kind.kind ∧ x.1.text = n.raw := by
  obtain ⟨-, hitems, -⟩ := same_iff.1 h
  obtain ⟨x, rfl, hx⟩ := singleton_terminal_iff.1 hitems
  exact ⟨x, rfl, hx.1, hx.2⟩

theorem Yields.of_string {l : StringLiteral} (h : Yields ρ exact c [.same (.string l)] ps) :
    ∃ x, ps = [x] ∧ x.1.kind = .string ∧ x.1.text = l.raw := by
  obtain ⟨-, hitems, -⟩ := same_iff.1 h
  obtain ⟨x, rfl, hx⟩ := singleton_terminal_iff.1 hitems
  exact ⟨x, rfl, hx.1, hx.2⟩

theorem Yields.of_truthValue {b : BooleanValue} (h : Yields ρ exact c [.same (.truthValue b)] ps) :
    ∃ x, ps = [x] ∧ x.1.kind = .boolean ∧ sameWord x.1.text "true" = b.value := by
  obtain ⟨-, hitems, -⟩ := same_iff.1 h
  obtain ⟨x, rfl, hx⟩ := singleton_terminal_iff.1 hitems
  exact ⟨x, rfl, hx.1, hx.2⟩

theorem NumericKind.kind_mem_numbers (k : NumericKind) : k.kind ∈ numbers := by
  cases k <;> decide

theorem Identifier.IsPlain.mem {i : Identifier} (h : i.IsPlain) : i.kind ∈ plainNames :=
  KindSet.mem_ofList.2 h

/-! ## Expressions -/

theorem Yields.begins_constant {a : Constant} (h : Yields ρ exact c [.same (.constant a)] ps) :
    Begins constantStart ps := by
  obtain ⟨-, hitems, -⟩ := same_iff.1 h
  cases a with
  | null span =>
    obtain ⟨x, rfl, hx⟩ := singleton_terminal_iff.1 hitems
    exact .cons hx (by decide) (by decide)
  | numeric n =>
    obtain ⟨x, rfl, hx, -⟩ := Yields.of_number hitems
    refine .singleton ?_
    rw [hx]
    cases n.kind <;> decide
  | boolean b =>
    obtain ⟨x, rfl, hx, -⟩ := Yields.of_truthValue hitems
    exact .cons hx (by decide) (by decide)
  | string l =>
    obtain ⟨x, rfl, hx, -⟩ := Yields.of_string hitems
    exact .cons hx (by decide) (by decide)
  | numericArray | booleanArray | stringArray =>
    obtain ⟨x, qs, rfl, hx, -⟩ := terminal_iff.1 hitems
    exact .cons hx (by decide) (by decide)

/-- A reference to a field begins with a plain name, and a dot or nothing comes behind it. -/
theorem Yields.of_qualifiedName {q : QualifiedName}
    (h : Yields ρ exact c [.same (.qualifiedName q)] ps) :
    ∃ x qs, ps = x :: qs ∧ x.1.kind ∈ plainNames ∧ (qs = [] ∨ frontKind qs = .dot) := by
  obtain ⟨⟨hne, hplain⟩, hitems, -⟩ := same_iff.1 h
  obtain ⟨parts, span⟩ := q
  have hsep := (Yields.separated_iff hne).1 hitems
  cases hsep with
  | @one a _ first =>
    obtain ⟨x, rfl, hx, -⟩ := Yields.of_identifier first
    have ha : a.IsPlain := hplain a (by simp)
    exact ⟨x, [], rfl, hx ▸ ha.mem, .inl rfl⟩
  | @more a as qs rs y first separator _ =>
    obtain ⟨x, rfl, hx, -⟩ := Yields.of_identifier first
    have ha : a.IsPlain := hplain a (by simp)
    exact ⟨x, y :: rs, rfl, hx ▸ ha.mem, .inr separator⟩

theorem Yields.begins_qualifiedName {q : QualifiedName}
    (h : Yields ρ exact c [.same (.qualifiedName q)] ps) : Begins plainNames ps := by
  obtain ⟨x, qs, rfl, hx, rfl | hqs⟩ := Yields.of_qualifiedName h
  · exact .singleton hx
  · refine ⟨hx, fun _ => ?_⟩
    rw [List.tail_cons, hqs]
    decide

theorem Yields.begins_call {name : Identifier} {args : List Item} {kinds : KindSet}
    (h : Yields ρ exact c (Item.call name args) ps) (hname : name.kind ∈ kinds) :
    Begins kinds ps := by
  obtain ⟨qs, rs, rfl, hn, hrest⟩ := cons_iff.1 h
  obtain ⟨x, rfl, hx, -⟩ := Yields.of_identifier hn
  obtain ⟨y, rs, rfl, hy, -⟩ := terminal_iff.1 hrest
  have hy : y.1.kind = .leftParen := hy
  refine .cons_cons (hx ▸ hname) ?_
  rw [hy]
  decide

theorem Yields.begins_primary {p : PrimaryExpr} (h : Yields ρ exact c [.same (.primary p)] ps) :
    Begins primaryStart ps := by
  obtain ⟨hadm, hitems, -⟩ := same_iff.1 h
  cases p with
  | constant a =>
    refine (Yields.begins_constant hitems).mono fun k hk => ?_
    exact KindSet.mem_union.2 (.inl (KindSet.mem_union.2 (.inl hk)))
  | field name =>
    refine (Yields.begins_qualifiedName hitems).mono fun k hk => ?_
    exact KindSet.mem_union.2 (.inl (KindSet.mem_union.2 (.inr hk)))
  | group inner span =>
    obtain ⟨x, qs, rfl, hx, -⟩ := terminal_iff.1 hitems
    exact .cons hx (by decide) (by decide)
  | call name args span =>
    refine (Yields.begins_call hitems (Identifier.IsPlain.mem hadm)).mono fun k hk => ?_
    exact KindSet.mem_union.2 (.inl (KindSet.mem_union.2 (.inr hk)))

theorem Yields.begins_operator :
    ∀ (e : OperatorExpr) {ps : List Placed}, Yields ρ exact c [.same (.operator e)] ps →
      Begins operatorStart ps
  | .primary p, ps, h => by
    obtain ⟨-, hitems, -⟩ := same_iff.1 h
    refine (Yields.begins_primary (by simpa [Phrase.items, OperatorExpr.items] using hitems)).mono
      fun k hk => KindSet.mem_union.2 (.inl hk)
  | .aggregate name args span, ps, h => by
    obtain ⟨hadm, hitems, -⟩ := same_iff.1 h
    have hk : name.kind = .aggregateFunction := hadm
    exact Yields.begins_call (by simpa [Phrase.items, OperatorExpr.items] using hitems)
      (by rw [hk]; decide)
  | .scalar name args span, ps, h => by
    obtain ⟨hadm, hitems, -⟩ := same_iff.1 h
    have hk : name.kind = .scalarFunction := hadm
    exact Yields.begins_call (by simpa [Phrase.items, OperatorExpr.items] using hitems)
      (by rw [hk]; decide)
  | .signed sign operator operand span, ps, h => by
    obtain ⟨-, hitems, -⟩ := same_iff.1 h
    simp only [Phrase.items, OperatorExpr.items] at hitems
    obtain ⟨x, qs, rfl, ⟨hx, -⟩, -⟩ := terminal_iff.1 hitems
    have hx : x.1.kind = sign.kind := by simpa using hx
    exact .cons hx (by cases sign <;> decide) (by cases sign <;> decide)
  | .binary op operator left right, ps, h => by
    obtain ⟨-, hitems, -⟩ := same_iff.1 h
    simp only [Phrase.items, OperatorExpr.items] at hitems
    obtain ⟨qs, rs, rfl, hleft, hrest⟩ := cons_iff.1 hitems
    obtain ⟨x, rs, rfl, ⟨hx, -⟩, -⟩ := terminal_iff.1 hrest
    have hx : x.1.kind = op.kind := by simpa using hx
    refine (begins_operator left hleft).append hleft.ne_nil_of_phrase ?_
    rw [frontKind_cons, hx]
    cases op <;> decide

theorem Yields.begins_value {v : ValueExpr} (h : Yields ρ exact c [.same (.value v)] ps) :
    Begins operatorStart ps := by
  obtain ⟨-, hitems, -⟩ := same_iff.1 h
  cases v with
  | operator e =>
    simp only [Phrase.items, ValueExpr.items] at hitems
    obtain ⟨d, -, hd⟩ := hitems.exists_same
    exact Yields.begins_operator e hd
  | comparison left op operator right =>
    simp only [Phrase.items, ValueExpr.items] at hitems
    obtain ⟨qs, rs, rfl, hleft, hrest⟩ := cons_iff.1 hitems
    obtain ⟨x, rs, rfl, ⟨hx, -⟩, -⟩ := terminal_iff.1 hrest
    obtain ⟨d, -, hd⟩ := hleft.exists_same
    refine (Yields.begins_operator left hd).append hleft.ne_nil_of_phrase ?_
    rw [frontKind_cons, hx]
    decide

/-- A value with more behind it. -/
theorem Yields.begins_tested {v : ValueExpr} {items : List Item} {scope : Scope}
    (h : Yields ρ exact c (.same (.value v) :: items) ps)
    (hitems : ∀ qs, Yields ρ exact c items qs →
      frontKind qs ≠ .dateUnit ∧ frontKind qs ≠ .assign) : Begins scope.booleanStart ps := by
  obtain ⟨qs, rs, rfl, hv, hrest⟩ := cons_iff.1 h
  refine (hv.begins_value.append hv.ne_nil_of_phrase (hitems rs hrest)).mono fun k hk => ?_
  unfold Scope.booleanStart
  split
  · exact KindSet.mem_union.2 (.inl (KindSet.mem_union.2 (.inl hk)))
  · exact KindSet.mem_union.2 (.inl hk)

/-- A test begins with `NOT` or with its word. -/
theorem Yields.front_negation {negation : Option Token} {items : List Item} {P : Kind → Prop}
    (hP : P .kwNot) (h : Yields ρ exact c (Item.negation negation ++ items) ps)
    (hitems : ∀ qs, Yields ρ exact c items qs → P (frontKind qs)) : P (frontKind ps) := by
  cases negation with
  | none => exact hitems ps h
  | some token =>
    obtain ⟨x, qs, rfl, ⟨hx, -⟩, -⟩ := terminal_iff.1 h
    have hx : x.1.kind = .kwNot := by simpa using hx
    rwa [frontKind_cons, hx]

theorem Yields.begins_boolean {scope : Scope} (hscope : scope.predicates = c.filters) :
    ∀ (e : BooleanExpr) {ps : List Placed}, Yields ρ exact c [.same (.boolean e)] ps →
      Begins scope.booleanStart ps
  | .not operator operand span, ps, h => by
    obtain ⟨-, hitems, -⟩ := same_iff.1 h
    simp only [Phrase.items, BooleanExpr.items] at hitems
    obtain ⟨x, qs, rfl, ⟨hx, -⟩, -⟩ := terminal_iff.1 hitems
    have hx : x.1.kind = .kwNot := by simpa using hx
    refine .cons hx ?_ (by decide)
    unfold Scope.booleanStart
    split <;> decide
  | .value v, ps, h => by
    obtain ⟨-, hitems, -⟩ := same_iff.1 h
    simp only [Phrase.items, BooleanExpr.items] at hitems
    refine Yields.begins_tested hitems fun qs hqs => ?_
    rw [nil_iff.1 hqs]
    decide
  | .connective op left operator right, ps, h => by
    obtain ⟨-, hitems, -⟩ := same_iff.1 h
    simp only [Phrase.items, BooleanExpr.items] at hitems
    obtain ⟨qs, rs, rfl, hleft, hrest⟩ := cons_iff.1 hitems
    obtain ⟨x, rs, rfl, ⟨hx, -⟩, -⟩ := terminal_iff.1 hrest
    have hx : x.1.kind = op.kind := by simpa using hx
    refine (begins_boolean hscope left hleft).append hleft.ne_nil_of_phrase ?_
    rw [frontKind_cons, hx]
    cases op <;> decide
  | .isIn v negation items span, ps, h => by
    obtain ⟨-, hitems, -⟩ := same_iff.1 h
    simp only [Phrase.items, BooleanExpr.items] at hitems
    refine Yields.begins_tested hitems fun qs hqs =>
      hqs.front_negation (P := fun k => k ≠ .dateUnit ∧ k ≠ .assign) (by decide) fun rs hrs => ?_
    obtain ⟨x, rs, rfl, hx, -⟩ := terminal_iff.1 hrs
    have hx : x.1.kind = .kwIn := hx
    rw [frontKind_cons, hx]
    decide
  | .isMatch v negation kind pattern span, ps, h => by
    obtain ⟨-, hitems, -⟩ := same_iff.1 h
    simp only [Phrase.items, BooleanExpr.items] at hitems
    refine Yields.begins_tested hitems fun qs hqs =>
      hqs.front_negation (P := fun k => k ≠ .dateUnit ∧ k ≠ .assign) (by decide) fun rs hrs => ?_
    obtain ⟨x, rs, rfl, hx, -⟩ := terminal_iff.1 hrs
    have hx : x.1.kind = kind.kind := hx
    rw [frontKind_cons, hx]
    cases kind <;> decide
  | .predicate call, ps, h => by
    obtain ⟨hadm, hitems, -⟩ := same_iff.1 h
    simp only [Phrase.items, BooleanExpr.items] at hitems
    obtain ⟨hcall, hitems, -⟩ := same_iff.1 hitems
    have hk : call.name.kind = .predicateFunction := hcall
    refine Yields.begins_call hitems ?_
    have hfilters : c.filters = true := hadm
    rw [Scope.booleanStart, hscope, hfilters, hk]
    decide

end

end PipeQuery
