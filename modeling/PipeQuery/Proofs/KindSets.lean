import Mathlib.Data.List.Nodup
import PipeQuery.Kind.Set

/-!
# Sets of kinds as finite sets

A set of kinds is a word of bits. It is built by shifts and unions of words, its members are counted
by counting bits, and they are listed by a scan of the whole word, far beyond the last kind. All of
these speak of the same finite set: the bits that are set are the places of its members, one for
each, and the scan comes upon them from the lowest to the highest, which is the order of the kinds.

## Main statement

* `KindSet.faithful_members`
-/

namespace PipeQuery

namespace KindSet

variable {s t : KindSet}

/-! ## The list of the members -/

/-- The scan goes up the word, so the members come in the order of the kinds. -/
theorem pairwise_members (s : KindSet) : s.members.Pairwise fun k l => k.index < l.index := by
  have hscan : ((List.range width).filter fun i => s.bits &&& BitVec.twoPow width i != 0).Pairwise
      (· < ·) := List.pairwise_lt_range.filter _
  refine hscan.filterMap _ ?_
  intro i j hij k hk l hl
  rw [Kind.getElem?_all_eq_some] at hk hl
  rwa [hk, hl]

theorem nodup_members (s : KindSet) : s.members.Nodup :=
  (pairwise_members s).imp fun hlt heq => absurd (congrArg Kind.index heq) (Nat.ne_of_lt hlt)

theorem count_members (s : KindSet) (k : Kind) : s.members.count k = (s.contains k).toNat := by
  cases hk : s.contains k with
  | true => exact List.count_eq_one_of_mem (nodup_members s) (mem_members.2 hk)
  | false =>
    refine List.count_eq_zero_of_not_mem fun hmem => ?_
    rw [contains_iff.2 (mem_members.1 hmem)] at hk
    exact Bool.noConfusion hk

/-! ## The number of the members -/

/-- Counting the bits of a word from the top or along a list of the places is the same. -/
theorem cpopNatRec_eq_countP {n : Nat} (w : BitVec n) (m : Nat) :
    w.cpopNatRec m 0 = (List.range m).countP w.getLsbD := by
  induction m with
  | zero => rfl
  | succ m ih =>
    rw [BitVec.cpopNatRec_succ, BitVec.cpopNatRec_add, ih, List.range_succ, List.countP_append,
      List.countP_singleton]
    cases w.getLsbD m <;> rfl

/-- No bit is set without a kind at its place, so the scan drops none that is counted. -/
theorem length_members (s : KindSet) : s.members.length = s.size := by
  have hkind (i : Nat) (hi : s.bits.getLsbD i = true) : Kind.all[i]?.isSome = true := by
    obtain ⟨k, rfl⟩ := Kind.exists_index_eq (s.lt_count i hi)
    rw [Kind.getElem?_all_index, Option.isSome_some]
  rw [size, BitVec.toNat_cpop, cpopNatRec_eq_countP, members, List.length_filterMap_eq_countP,
    List.countP_filter]
  refine List.countP_congr fun i _ => ?_
  rw [and_twoPow_ne_zero, Bool.and_eq_true]
  exact ⟨And.right, fun hi => ⟨hkind i hi, hi⟩⟩

/-! ## Equality -/

theorem eq_iff_contains : s = t ↔ ∀ k, s.contains k = t.contains k := by
  constructor
  · rintro rfl k
    rfl
  · intro h
    apply ext_mem
    intro k
    rw [← contains_iff, h k, contains_iff]

theorem members_eq_nil_iff : s.members = [] ↔ s = ∅ := by
  rw [List.eq_nil_iff_forall_not_mem]
  constructor
  · intro hnone
    apply ext_mem
    intro k
    have hk : k ∉ s := fun hmem => hnone k (mem_members.2 hmem)
    exact iff_of_false hk (not_mem_empty k)
  · rintro rfl k hk
    exact not_mem_empty k (mem_members.1 hk)

theorem isEmpty_iff : s.isEmpty = true ↔ s = ∅ := by
  rw [isEmpty, beq_iff_eq, KindSet.ext_iff]
  rfl

/-- A set is made of its members again. -/
theorem ofList_members (s : KindSet) : ofList s.members = s :=
  ext_mem fun k => by rw [mem_ofList, mem_members]

/-- Adding kinds one by one to the empty set makes the set of them. -/
theorem insertMany_empty (ks : List Kind) : (∅ : KindSet).insertMany ks = ofList ks :=
  ext_mem fun k => by simp

theorem contains_union (s t : KindSet) (k : Kind) :
    (s ∪ t).contains k = (s.contains k || t.contains k) := by
  rw [Bool.eq_iff_iff, Bool.or_eq_true]
  exact mem_union

/-! ## Finite sets -/

/-- Sets of kinds behave as finite sets. The set of a list has the kinds of the list as its members,
whether they are set at once or added one by one, and a union has the members of both. The members
are listed once each, in the order of the kinds; there are as many of them as the size says; a set is
empty when there are none, and two sets are equal when they have the same ones. A set is made of its
members again. -/
theorem faithful_members (s t : KindSet) (ks : List Kind) :
    (∀ k, (ofList ks).contains k = true ↔ k ∈ ks) ∧
      (∅ : KindSet).insertMany ks = ofList ks ∧
      (∀ k, (∅ : KindSet).contains k = false) ∧
      (∀ k l, ({l} : KindSet).contains k = true ↔ k = l) ∧
      (∀ k, (s ∪ t).contains k = (s.contains k || t.contains k)) ∧
      (∀ k, s.members.count k = (s.contains k).toNat) ∧
      s.members.Pairwise (fun k l => k.index < l.index) ∧
      s.size = s.members.length ∧
      (s.isEmpty = true ↔ s.members = []) ∧
      (s = t ↔ ∀ k, s.contains k = t.contains k) ∧
      ofList s.members = s ∧
      (∅ : KindSet).insertMany s.members = s := by
  have hnone (k : Kind) : (∅ : KindSet).contains k = false :=
    Bool.eq_false_iff.2 (not_mem_empty k)
  have hcollect : (∅ : KindSet).insertMany s.members = s := by
    rw [insertMany_empty, ofList_members]
  exact ⟨fun _ => mem_ofList, insertMany_empty ks, hnone, fun _ _ => mem_singleton,
    contains_union s t, count_members s, pairwise_members s, (length_members s).symm,
    isEmpty_iff.trans members_eq_nil_iff.symm, eq_iff_contains, ofList_members s, hcollect⟩

example : ({.kwOr} ∪ .ofList [.pipe, .kwAnd, .pipe] : KindSet).members = [.pipe, .kwAnd, .kwOr] := by
  decide

end KindSet

end PipeQuery
