import PipeQuery.Kind

/-!
# Sets of kinds

`KindSet` is a finite set of kinds, held in one word with a bit for each kind. The word is wider than
there are kinds, and no bit beyond them is ever set (`KindSet.lt_count`). So everything about a set
is read off membership: two sets are equal exactly when they have the same members
(`KindSet.ext_mem`), and a scan of the word lists the members in the order of the kinds
(`KindSet.members`).
-/

namespace PipeQuery

/-! ## Words -/

namespace KindSet

/-- The number of bits of the word that holds a set. -/
def width : Nat := 128

/-- The word in which only the bit of `k` is set; a kind without a place in the word has none. -/
def bit (k : Kind) : BitVec width := if k.index < width then BitVec.twoPow width k.index else 0

/-- Every kind has its place in the word. -/
theorem index_lt_width (k : Kind) : k.index < width :=
  Nat.lt_of_lt_of_le (Kind.index_lt_count k) (by decide)

@[simp] theorem getLsbD_bit (k : Kind) (i : Nat) : (bit k).getLsbD i = decide (k.index = i) := by
  rw [bit, if_pos (index_lt_width k), BitVec.getLsbD_twoPow]
  simp [index_lt_width k]

theorem twoPow_ne_zero {i : Nat} (hi : i < width) : BitVec.twoPow width i ≠ 0 := by
  intro hzero
  have hbit : (BitVec.twoPow width i).getLsbD i = true := by simp [hi]
  rw [hzero] at hbit
  simp at hbit

/-- A word meets the word of one bit just when it has that bit. -/
theorem and_twoPow_ne_zero (w : BitVec width) (i : Nat) :
    (w &&& BitVec.twoPow width i != 0) = w.getLsbD i := by
  rw [BitVec.and_twoPow]
  cases h : w.getLsbD i with
  | true => simpa using twoPow_ne_zero (BitVec.lt_of_getLsbD h)
  | false => simp

theorem and_bit_ne_zero (w : BitVec width) (k : Kind) :
    (w &&& bit k != 0) = w.getLsbD k.index := by
  rw [bit, if_pos (index_lt_width k), and_twoPow_ne_zero]

/-- Sets the bits of the kinds in a list, one after the other. -/
def setBits (w : BitVec width) : List Kind → BitVec width
  | [] => w
  | k :: ks => setBits (w ||| bit k) ks

theorem getLsbD_setBits {w : BitVec width} {ks : List Kind} {i : Nat} :
    (setBits w ks).getLsbD i = true ↔ w.getLsbD i = true ∨ ∃ k ∈ ks, k.index = i := by
  induction ks generalizing w with
  | nil => simp [setBits]
  | cons k ks ih => simp [setBits, ih, or_assoc]

end KindSet

/-! ## Sets -/

/-- A finite set of kinds: bit `k.index` is set when `k` is a member. -/
@[ext] structure KindSet where
  /-- The characteristic bits. -/
  bits : BitVec KindSet.width
  /-- Every bit that is set belongs to a kind. -/
  lt_count : ∀ i, bits.getLsbD i = true → i < Kind.count
deriving DecidableEq, Repr

namespace KindSet

/-- Whether a kind is a member. -/
def contains (s : KindSet) (k : Kind) : Bool := s.bits &&& bit k != 0

instance : Membership Kind KindSet where
  mem s k := s.contains k = true

instance (k : Kind) (s : KindSet) : Decidable (k ∈ s) :=
  inferInstanceAs (Decidable (s.contains k = true))

instance : EmptyCollection KindSet where
  emptyCollection := ⟨0, fun _ h => by simp at h⟩

instance : Inhabited KindSet where
  default := ∅

/-- The set whose only member is `k`. -/
def singleton (k : Kind) : KindSet where
  bits := bit k
  lt_count i h := by
    obtain rfl : k.index = i := by simpa using h
    exact Kind.index_lt_count k

instance : Singleton Kind KindSet where
  singleton := singleton

instance : Union KindSet where
  union s t :=
    { bits := s.bits ||| t.bits
      lt_count := fun i h => by
        rw [BitVec.getLsbD_or, Bool.or_eq_true] at h
        exact h.elim (s.lt_count i) (t.lt_count i) }

instance : Insert Kind KindSet where
  insert k s := {k} ∪ s

/-- The set of the kinds in a list. -/
def ofList (ks : List Kind) : KindSet where
  bits := setBits 0 ks
  lt_count i h := by
    obtain h | ⟨k, -, rfl⟩ := getLsbD_setBits.1 h
    · simp at h
    · exact Kind.index_lt_count k

/-- Adds the kinds of a list, one after the other. -/
def insertMany (s : KindSet) (ks : List Kind) : KindSet :=
  ks.foldl (fun t k => t ∪ {k}) s

/-- The members, in the order of the kinds: the places of the word whose bit is set, each read as
the kind that stands there. -/
def members (s : KindSet) : List Kind :=
  ((List.range width).filter fun i => s.bits &&& BitVec.twoPow width i != 0).filterMap
    fun i => Kind.all[i]?

/-- The number of members: the number of bits that are set. -/
def size (s : KindSet) : Nat := s.bits.cpop.toNat

/-- Whether there is no member. -/
def isEmpty (s : KindSet) : Bool := s.bits == 0

/-! ## Membership -/

theorem mem_def {s : KindSet} {k : Kind} : k ∈ s ↔ s.bits.getLsbD k.index = true := by
  rw [← and_bit_ne_zero]
  rfl

@[simp] theorem contains_iff {s : KindSet} {k : Kind} : s.contains k = true ↔ k ∈ s := Iff.rfl

@[simp] theorem not_mem_empty (k : Kind) : k ∉ (∅ : KindSet) := by
  simp [mem_def, EmptyCollection.emptyCollection]

@[simp] theorem mem_singleton {k l : Kind} : k ∈ ({l} : KindSet) ↔ k = l := by
  simp [mem_def, Singleton.singleton, singleton, Kind.index_inj, eq_comm]

@[simp] theorem mem_union {s t : KindSet} {k : Kind} : k ∈ s ∪ t ↔ k ∈ s ∨ k ∈ t := by
  simp [mem_def, Union.union]

@[simp] theorem mem_ofList {ks : List Kind} {k : Kind} : k ∈ ofList ks ↔ k ∈ ks := by
  simp [mem_def, ofList, getLsbD_setBits, Kind.index_inj]

@[simp] theorem mem_insertMany {s : KindSet} {ks : List Kind} {k : Kind} :
    k ∈ s.insertMany ks ↔ k ∈ s ∨ k ∈ ks := by
  induction ks generalizing s with
  | nil => simp [insertMany]
  | cons l ks ih =>
    have hstep : s.insertMany (l :: ks) = (s ∪ {l}).insertMany ks := rfl
    simp [hstep, ih, or_assoc]

@[simp] theorem mem_members {s : KindSet} {k : Kind} : k ∈ s.members ↔ k ∈ s := by
  simp only [members, and_twoPow_ne_zero, List.mem_filterMap, List.mem_filter,
    List.mem_range, Kind.getElem?_all_eq_some, mem_def]
  constructor
  · rintro ⟨i, ⟨-, hi⟩, rfl⟩
    exact hi
  · intro hk
    exact ⟨k.index, ⟨index_lt_width k, hk⟩, rfl⟩

/-- Sets with the same members are equal: every bit that is set belongs to a kind. -/
theorem ext_mem {s t : KindSet} (h : ∀ k, k ∈ s ↔ k ∈ t) : s = t := by
  apply KindSet.ext
  apply BitVec.eq_of_getLsbD_eq
  intro i _
  by_cases hi : i < Kind.count
  · obtain ⟨k, rfl⟩ := Kind.exists_index_eq hi
    have hk := h k
    rw [mem_def, mem_def] at hk
    exact Bool.eq_iff_iff.2 hk
  · have hs : ¬ s.bits.getLsbD i = true := fun hbit => hi (s.lt_count i hbit)
    have ht : ¬ t.bits.getLsbD i = true := fun hbit => hi (t.lt_count i hbit)
    rw [Bool.not_eq_true] at hs ht
    rw [hs, ht]

/-! ## Wording -/

/-- The set in diagnostics: one member stands alone, any other number stands in braces. -/
def wording (s : KindSet) : String :=
  match s.members with
  | [k] => k.wording
  | ks => "\x7b" ++ ", ".intercalate (ks.map Kind.wording) ++ "\x7d"

/-- The symbolic names of the members, in braces. -/
def symbols (s : KindSet) : String :=
  "\x7b" ++ ", ".intercalate (s.members.map Kind.symbol) ++ "\x7d"

end KindSet

end PipeQuery
