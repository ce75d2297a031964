import Mathlib
import PipeQuery.Proofs.Acceptance

/-!
# The words of the grammar

The rules of the grammar look at the kinds of tokens, and hardly ever at their texts. So the language
of the grammar is also a set of words over the kinds: `Item.words` are the words that some items
derive, at whatever depth and with whatever texts. This module says which words there are. For each
production there is an inclusion of languages, with a product for a sequence, a sum for a choice and
a star for a repetition.

Where operators meet, a word does not show how they group, and each grouping can be had: an operator
and its right operand join a tree at the place where they belong (`operators_mul_le`).
-/

open scoped Computability

namespace PipeQuery

open Grammar

/-- The kinds of a stretch. -/
def kindsOf (ps : List Placed) : List Kind := ps.map (·.1.kind)

@[simp] theorem kindsOf_nil : kindsOf [] = [] := rfl

@[simp] theorem kindsOf_cons (x : Placed) (ps : List Placed) :
    kindsOf (x :: ps) = x.1.kind :: kindsOf ps := rfl

@[simp] theorem kindsOf_append (ps qs : List Placed) :
    kindsOf (ps ++ qs) = kindsOf ps ++ kindsOf qs := List.map_append

/-- Some token of a kind. -/
def Token.ofKind (kind : Kind) : Token := ⟨kind, "==", 0, 0, 0, 0⟩

/-! ## Languages over the kinds -/

/-- The words of one letter out of a set. -/
def KindSet.letters (kinds : KindSet) : Language Kind := {ks | ∃ k ∈ kinds, ks = [k]}

theorem KindSet.singleton_mem_letters {kinds : KindSet} {k : Kind} (h : k ∈ kinds) :
    [k] ∈ kinds.letters := ⟨k, h, rfl⟩

namespace Words

/-- The word of one letter. -/
abbrev letter (kind : Kind) : Language Kind := ({kind} : KindSet).letters

theorem mem_letter (kind : Kind) : [kind] ∈ letter kind := ⟨kind, by simp, rfl⟩

theorem eq_of_mem_letter {kind : Kind} {ks : List Kind} (h : ks ∈ letter kind) : ks = [kind] := by
  obtain ⟨k, hk, rfl⟩ := h
  rw [KindSet.mem_singleton.1 hk]

/-- A part behind its letter, or nothing. -/
def behind (kind : Kind) (L : Language Kind) : Language Kind := 1 + letter kind * L

/-- A part once and then behind each separator. -/
def separated (separator : Kind) (L : Language Kind) : Language Kind := L * (behind separator L)∗

/-- A part in parentheses. -/
def parenthesised (L : Language Kind) : Language Kind :=
  letter .leftParen * (L * letter .rightParen)

/-- Arguments, with commas between them. -/
def arguments (L : Language Kind) : Language Kind := parenthesised (1 + separated .comma L)

variable {L M : Language Kind} {k : Kind} {ks ks' : List Kind}

theorem nil_mem_behind : [] ∈ behind k L := .inl rfl

theorem cons_mem_behind (h : ks ∈ L) : k :: ks ∈ behind k L :=
  .inr (Language.append_mem_mul (mem_letter k) h)

theorem mem_separated (h : ks ∈ L) : ks ∈ separated k L := by
  rw [← List.append_nil ks]
  exact Language.append_mem_mul h (Language.nil_mem_kstar _)

theorem mem_parenthesised (h : ks ∈ L) : .leftParen :: (ks ++ [.rightParen]) ∈ parenthesised L :=
  Language.append_mem_mul (mem_letter _) (Language.append_mem_mul h (mem_letter _))

theorem mem_arguments_nil : [.leftParen, .rightParen] ∈ arguments L :=
  mem_parenthesised (show [] ∈ _ from .inl rfl)

theorem eq_of_mem_parenthesised (h : ks ∈ parenthesised L) :
    ∃ ks' ∈ L, ks = .leftParen :: (ks' ++ [.rightParen]) := by
  obtain ⟨_, hl, _, ⟨ks', h', _, hr, rfl⟩, rfl⟩ := h
  obtain rfl := eq_of_mem_letter hl
  obtain rfl := eq_of_mem_letter hr
  exact ⟨ks', h', rfl⟩

theorem mem_behind (h : ks ∈ behind k L) : ks = [] ∨ ∃ ks' ∈ L, ks = k :: ks' := by
  obtain rfl | ⟨_, hk, ks', h', rfl⟩ := h
  · exact .inl rfl
  · obtain rfl := eq_of_mem_letter hk
    exact .inr ⟨ks', h', rfl⟩

/-- The words of a language begin with each of some kinds. -/
def Starts (kinds : KindSet) (L : Language Kind) : Prop := ∀ k ∈ kinds, ∃ w, k :: w ∈ L

theorem Starts.mono {kinds : KindSet} (h : Starts kinds L) (hle : L ≤ M) : Starts kinds M := by
  intro k hk
  obtain ⟨w, hw⟩ := h k hk
  exact ⟨w, hle hw⟩

theorem Starts.union {kinds kinds' : KindSet} (h : Starts kinds L) (h' : Starts kinds' L) :
    Starts (kinds ∪ kinds') L := by
  intro k hk
  obtain hk | hk := KindSet.mem_union.1 hk
  · exact h k hk
  · exact h' k hk

/-- What begins a part begins the whole, if there is something to go on with. -/
theorem Starts.mul {kinds : KindSet} (h : Starts kinds L) (hM : ∃ ks, ks ∈ M) :
    Starts kinds (L * M) := by
  intro k hk
  obtain ⟨w, hw⟩ := h k hk
  obtain ⟨ks, hks⟩ := hM
  exact ⟨w ++ ks, Language.append_mem_mul hw hks⟩

theorem starts_letters (kinds : KindSet) : Starts kinds kinds.letters :=
  fun _ hk => ⟨[], KindSet.singleton_mem_letters hk⟩

end Words

/-! ## The words of items -/

/-- The words that the items derive. -/
def Item.words (filters : Bool) (items : List Item) : Language Kind :=
  {ks | ∃ n ps, kindsOf ps = ks ∧ Yields id false ⟨filters, n⟩ items ps}

namespace Item

variable {f : Bool} {items items' : List Item} {ks ks' : List Kind} {k : Kind} {p : Phrase}

theorem nil_mem_words : [] ∈ words f [] := ⟨0, [], rfl, .nil _⟩

theorem append_mem_words (h : ks ∈ words f items) (h' : ks' ∈ words f items') :
    ks ++ ks' ∈ words f (items ++ items') := by
  obtain ⟨n, ps, rfl, hy⟩ := h
  obtain ⟨n', ps', rfl, hy'⟩ := h'
  refine ⟨max n n', ps ++ ps', kindsOf_append ps ps', ?_⟩
  exact (hy.mono_levels (Nat.le_max_left ..)).append (hy'.mono_levels (Nat.le_max_right ..))

theorem terminal_mem_words {t : Terminal} {x : Token} (ht : t.Matches id x)
    (h : ks ∈ words f items) : x.kind :: ks ∈ words f (.terminal t :: items) := by
  obtain ⟨n, ps, rfl, hy⟩ := h
  exact ⟨n, (x, 0) :: ps, rfl, .terminal ht hy⟩

theorem kind_mem_words (h : ks ∈ words f items) : k :: ks ∈ words f (.kind k :: items) :=
  terminal_mem_words (x := .ofKind k) rfl h

/-- A token that the tree keeps. -/
theorem kept_mem_words {kinds : List Kind} (hk : k ∈ kinds) (h : ks ∈ words f items) :
    k :: ks ∈ words f (.terminal (.kept kinds (.ofKind k)) :: items) :=
  terminal_mem_words (x := .ofKind k) ⟨hk, rfl⟩ h

theorem same_mem_words (hp : p.Admissible f) (h : ks ∈ words f p.items) : ks ∈ words f [.same p] := by
  obtain ⟨n, ps, rfl, hy⟩ := h
  exact ⟨n, ps, rfl, Yields.same_iff.2 ⟨hp, hy, by simp⟩⟩

/-- The words do not show levels. -/
theorem words_deeper : words f [.deeper p] = words f [.same p] := by
  ext ks
  constructor
  · rintro ⟨_ | n, ps, rfl, hy⟩
    · exact absurd hy Yields.not_deeper_zero
    · exact ⟨n, ps, rfl, Yields.deeper_succ_iff.1 hy⟩
  · rintro ⟨n, ps, rfl, hy⟩
    exact ⟨n + 1, ps, rfl, Yields.deeper_succ_iff.2 hy⟩

theorem words_filter : words f [.phrase .filter p] = words true [.same p] := by
  rw [← words_deeper]
  ext ks
  constructor
  · rintro ⟨n, ps, rfl, hy⟩
    exact ⟨n, ps, rfl, Yields.filter_iff.1 hy⟩
  · rintro ⟨n, ps, rfl, hy⟩
    exact ⟨n, ps, rfl, Yields.filter_iff.2 hy⟩

theorem cons_mem_words {item : Item} (h : ks ∈ words f [item]) (h' : ks' ∈ words f items) :
    ks ++ ks' ∈ words f (item :: items) := append_mem_words h h'

end Item

namespace Words

/-- The words of phrases of one sort. -/
def phrases {α : Type} (f : Bool) (phrase : α → Phrase) : Language Kind :=
  {ks | ∃ a, ks ∈ Item.words f [.same (phrase a)]}

/-- The words of arithmetic that binds at least as tightly as some power. -/
def operators (f : Bool) (power : Nat) : Language Kind :=
  {ks | ∃ e : OperatorExpr, power ≤ e.power ∧ ks ∈ Item.words f [.same (.operator e)]}

/-- The words of conditions that bind at least as tightly as some power. -/
def conditions (f : Bool) (power : Nat) : Language Kind :=
  {ks | ∃ e : BooleanExpr, power ≤ e.power ∧ ks ∈ Item.words f [.same (.boolean e)]}

variable {f : Bool} {k : Kind} {ks ks' : List Kind} {L : Language Kind}

theorem mem_phrases {α : Type} {phrase : α → Phrase} {a : α} (ha : (phrase a).Admissible f)
    (h : ks ∈ Item.words f (phrase a).items) : ks ∈ phrases f phrase := ⟨a, Item.same_mem_words ha h⟩

/-- The words of a list of items, each as `P` says. -/
theorem exists_list {α : Type} {item : α → Item} {P : α → Prop}
    (hL : ∀ ks ∈ L, ∃ a, P a ∧ ks ∈ Item.words f [item a]) (h : ks ∈ separated k L) :
    ∃ as : List α, as ≠ [] ∧ (∀ a ∈ as, P a) ∧ ks ∈ Item.words f (Item.separated k (as.map item)) := by
  let lists : Language Kind := {ks | ∃ as : List α, as ≠ [] ∧ (∀ a ∈ as, P a) ∧
    ks ∈ Item.words f (Item.separated k (as.map item))}
  have hone : L ≤ lists := by
    intro ks hks
    obtain ⟨a, ha, hw⟩ := hL ks hks
    exact ⟨[a], by simp, by simpa using ha, hw⟩
  -- one more item at the end of a list
  have hmore : lists * behind k L ≤ lists := by
    rintro _ ⟨ks, ⟨as, hne, has, hw⟩, ks', h', rfl⟩
    obtain rfl | ⟨ks', hks, rfl⟩ := mem_behind h'
    · exact ⟨as, hne, has, by simpa using hw⟩
    · obtain ⟨a, ha, hw'⟩ := hL ks' hks
      refine ⟨as ++ [a], by simp, ?_, ?_⟩
      · intro b hb
        rcases List.mem_append.1 hb with hb | hb
        · exact has b hb
        · obtain rfl := List.mem_singleton.1 hb
          exact ha
      · obtain ⟨b, bs, rfl⟩ := List.exists_cons_of_ne_nil hne
        have hsep : Item.separated k (((b :: bs) ++ [a]).map item)
            = Item.separated k ((b :: bs).map item) ++ [.kind k, item a] := by
          simp [Item.separated]
        rw [hsep]
        exact Item.append_mem_words hw (Item.kind_mem_words hw')
  exact mul_kstar_le hone hmore h

/-- The words of a list of phrases. -/
theorem exists_phrases {α : Type} {phrase : α → Phrase} (h : ks ∈ separated .comma (phrases f phrase)) :
    ∃ as : List α, as ≠ [] ∧ ks ∈ Item.words f (Item.list phrase as) := by
  have hL : ∀ ks ∈ phrases f phrase, ∃ a, True ∧ ks ∈ Item.words f [.same (phrase a)] := by
    rintro ks ⟨a, ha⟩
    exact ⟨a, trivial, ha⟩
  obtain ⟨as, hne, -, hw⟩ := exists_list hL h
  exact ⟨as, hne, hw⟩

end Words

end PipeQuery
