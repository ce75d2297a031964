import PipeQuery.Proofs.Repairs
import PipeQuery.Proofs.SoundLeaf

/-!
# Names and constants with repairs

Whatever the rules for names and constants answer, be there mistakes or not, is derived by the
grammar from the tokens that it was made of (`Builds`). A name, a number or a string that is missing
is derived from the token that was taken for granted, and a missing truth value counts as false.
-/

namespace PipeQuery.Grammar

open Rule

variable {s t : State} {us vs : List Placed} {c : Context} {p q : Phrase}

/-- The grammar derives the tokens as a phrase. The spans of what was repaired are left open. -/
def Builds (c : Context) (p : Phrase) (us : List Placed) : Prop := Yields id false c [.same p] us

theorem Builds.of_items (hp : p.Admissible c.filters) (h : Yields id false c p.items us) :
    Builds c p us := Yields.same_iff.2 ⟨hp, h, by simp⟩

/-- A phrase that is made of another one alone. -/
theorem Builds.alone (h : Builds c q us) (hp : p.Admissible c.filters)
    (hitems : p.items = [.same q]) : Builds c p us := .of_items hp (hitems ▸ h)

/-- A list of phrases is made of its elements. -/
theorem makes_list {α : Type} {r : Rule α} {phrase : α → Phrase}
    (hr : ∀ u, u.scope = s.scope → r.Makes u fun a us _ => Builds c (phrase a) us) :
    (separated .comma r).Makes s fun as us _ =>
      as ≠ [] ∧ Yields id false c (Item.list phrase as) us :=
  (makes_separated (by decide) hr).mono fun _ _ _ _ h => ⟨h.ne_nil, (Yields.list_iff h.ne_nil).2 h⟩

/-! ## Names -/

theorem builds_ofToken {x : Placed} (hx : x.1.kind.isName = true) (span : Span) :
    Builds c (.identifier (Identifier.ofToken x.1 span)) [x] :=
  .of_items ⟨hx, rfl⟩ (.terminal ⟨rfl, rfl⟩ (.nil c))

theorem makes_identifierOf {kinds : KindSet} {k : Kind} (hn : Names kinds) (hk : k ∈ kinds) :
    (identifierOf kinds).Makes s fun i us t =>
      Builds c (.identifier i) us ∧ i.kind ∈ kinds ∧ (s.kind ∈ kinds → t = s.bump) := by
  have hleaf : ∀ k ∈ kinds, k.isLeaf = true := fun k hk => Kind.isLeaf_of_isName (hn k hk)
  unfold identifierOf
  refine .spanned (.bind_pure ((makes_expectAny hk hleaf).mono ?_))
  rintro token us t - ⟨hmem, ht, x, rfl, rfl⟩ span
  exact ⟨builds_ofToken (hn _ hmem) span, hmem, ht⟩

theorem makes_plainIdentifier :
    plainIdentifier.Makes s fun i us _ => Builds c (.identifier i) us ∧ i.IsPlain :=
  (makes_identifierOf names_plainNames (KindSet.mem_ofList.2 (List.mem_cons_self ..))).mono
    fun _ _ _ _ h => ⟨h.1, KindSet.mem_ofList.1 h.2.1⟩

theorem makes_enrichName : (identifierOf enrichNames).Makes s fun i us _ =>
    Builds c (.identifier i) us ∧ i.IsEnrich :=
  (makes_identifierOf names_enrichNames (KindSet.mem_ofList.2 (List.mem_cons_self ..))).mono
    fun _ _ _ _ h => ⟨h.1, KindSet.mem_ofList.1 h.2.1⟩

theorem makes_takeIdentifier (hk : s.kind.isName = true) :
    takeIdentifier.Makes s fun i us _ => Builds c (.identifier i) us ∧ i.kind = s.kind := by
  have he : s.kind ≠ .endOfInput := fun he => absurd (he ▸ hk) (by decide)
  unfold takeIdentifier
  refine .spanned (.bind_pure ((makes_take he).mono ?_))
  rintro token us t - ⟨rfl, -, x, rfl, hx⟩ span
  rw [← hx]
  exact ⟨builds_ofToken (by rw [hx]; exact hk) span, by rw [hx]; rfl⟩

theorem makes_qualifiedName : qualifiedName.Makes s fun q us _ => Builds c (.qualifiedName q) us := by
  unfold qualifiedName
  refine .spanned (.bind_pure ((makes_separated
    (D := fun i us => Builds c (.identifier i) us ∧ i.IsPlain) (by decide)
    fun _ _ => makes_plainIdentifier).mono fun parts us t _ hsep span => ?_))
  exact .of_items ⟨hsep.ne_nil, hsep.forall_mem fun _ _ h => h.2⟩
    ((Yields.separated_iff hsep.ne_nil).2 (hsep.mono fun _ _ h => h.1))

theorem makes_qualifiedNames : qualifiedNames.Makes s fun names us _ =>
    names ≠ [] ∧ Yields id false c (Item.list .qualifiedName names) us :=
  makes_list fun _ _ => makes_qualifiedName

/-- A new name is made with its equals sign, or it does not stand there. -/
theorem makes_assigned? {kinds : KindSet} (hn : Names kinds) :
    (assigned? kinds).Makes s fun name us _ =>
      Yields id false c (Item.assigned name) us ∧ ∀ i ∈ name, i.kind ∈ kinds := by
  unfold assigned?
  refine .ask_bind (.ask_bind ?_)
  split
  · next h =>
    simp only [Bool.and_eq_true, beq_iff_eq, KindSet.contains_iff] at h
    refine (makes_identifierOf (c := c) hn h.1).bind ?_
    rintro i us t - ⟨hi, hik, ht⟩
    have hkind : t.kind = .assign := by
      rw [ht h.1, ← h.2, State.kindAfter, TokenStream.lookahead_succ]
      rfl
    refine .bind_pure ((makes_take (by simp [hkind])).mono ?_)
    rintro token vs u - ⟨rfl, -, x, rfl, hx⟩
    refine ⟨Yields.append hi (.terminal ?_ (.nil c)), by simpa using hik⟩
    change x.1.kind = .assign
    rw [hx]
    exact hkind
  · exact .pure ⟨.nil c, by simp⟩

/-! ## Numbers, strings and truth values -/

theorem makes_numberOf {kinds : KindSet} {k : Kind} (hn : ∀ k ∈ kinds, k ∈ [Kind.integer, .decimal])
    (hk : k ∈ kinds) : (numberOf kinds).Makes s fun n us t =>
      Builds c (.number n) us ∧ n.kind.kind ∈ kinds ∧ (s.kind ∈ kinds → t = s.bump) := by
  have hleaf : ∀ k ∈ kinds, k.isLeaf = true := by
    have hnumbers : ∀ k ∈ [Kind.integer, .decimal], k.isLeaf = true := by decide
    exact fun k hk => hnumbers k (hn k hk)
  unfold numberOf
  refine .spanned (.bind_pure ((makes_expectAny hk hleaf).mono ?_))
  rintro token us t - ⟨hmem, ht, x, rfl, rfl⟩ span
  have hkind : (NumericKind.ofKind x.1.kind).kind = x.1.kind := by
    have hnum := hn _ hmem
    simp only [List.mem_cons, List.not_mem_nil, or_false] at hnum
    rcases hnum with hnum | hnum <;> rw [hnum] <;> rfl
  exact ⟨.of_items trivial (.terminal ⟨hkind.symm, rfl⟩ (.nil c)), hkind.symm ▸ hmem, ht⟩

theorem makes_number : number.Makes s fun n us t =>
    Builds c (.number n) us ∧ (s.kind ∈ numbers → t = s.bump) :=
  (makes_numberOf (fun _ hk => KindSet.mem_ofList.1 hk)
    (KindSet.mem_ofList.2 (List.mem_cons_self ..))).mono fun _ _ _ _ h => ⟨h.1, h.2.2⟩

theorem makes_integer : integer.Makes s fun n us _ =>
    Builds c (.number n) us ∧ n.kind = .integer := by
  refine (makes_numberOf (fun k hk => ?_) (KindSet.mem_singleton.2 rfl)).mono
    fun n us t _ ⟨hn, hk, _⟩ => ⟨hn, ?_⟩
  · rw [KindSet.mem_singleton.1 hk]
    decide
  · have hk := KindSet.mem_singleton.1 hk
    cases hkind : n.kind with
    | integer => rfl
    | decimal => simp [hkind, NumericKind.kind] at hk

theorem makes_string : string.Makes s fun l us _ => Builds c (.string l) us := by
  unfold string
  refine .spanned (.bind_pure ((makes_expectAny (KindSet.mem_singleton.2 rfl) (by simp; rfl)).mono ?_))
  rintro token us t - ⟨hmem, -, x, rfl, rfl⟩ span
  exact .of_items trivial (.terminal ⟨KindSet.mem_singleton.1 hmem, rfl⟩ (.nil c))

/-- The text of a truth value that is taken for granted is not that of the true one. -/
theorem sameWord_true_conjured {expected : KindSet} {token : Token}
    (hk : (Token.conjured expected token).kind = .boolean) :
    sameWord (Token.conjured expected token).text "true" = false := by
  have htext : (Token.conjured expected token).text = "<missing " ++ Kind.boolean.wording ++ ">" := by
    rw [← hk]
    rfl
  rw [htext]
  decide +kernel

theorem makes_truthValue : truthValue.Makes s fun b us _ => Builds c (.truthValue b) us := by
  unfold truthValue
  have hfalse : sameWord "false" "true" = false := by decide +kernel
  refine .spanned (.bind_pure (Makes.stand_in
    (R := fun token _ => sameWord token.text "true" = false) ((makes_expectAny_or
      (KindSet.mem_singleton.2 rfl) (by simp)).mono ?_) fun token t htoken => ?_))
  · rintro token us t - (⟨hmem, -, x, rfl, rfl⟩ | ⟨rfl, hmem, -, u, rfl⟩)
    · exact .inl fun span =>
        .of_items trivial (.terminal ⟨KindSet.mem_singleton.1 hmem, rfl⟩ (.nil c))
    · exact .inr ⟨rfl, sameWord_true_conjured (KindSet.mem_singleton.1 hmem)⟩
  · refine ⟨(_, 0), .falsehood, fun span => ?_⟩
    rw [htoken]
    exact .of_items trivial (.terminal ⟨rfl, hfalse⟩ (.nil c))

/-! ## Constants -/

/-- The elements of a list, behind its opening bracket. -/
theorem makes_elements (start : Nat) : (elements start).Makes s fun f us _ => ∀ span,
    (f span).Admissible ∧ ∃ items, Yields id false c items us ∧
      (f span).items = .kind .leftBracket :: (items ++ [.kind .rightBracket]) := by
  unfold elements
  refine .ask_bind ?_
  have hnumbers : (separated .comma number).Makes s fun ns us _ =>
      ns ≠ [] ∧ Yields id false c (Item.list .number ns) us :=
    makes_list fun _ _ => makes_number.mono fun _ _ _ _ h => h.1
  split
  · exact .bind_pure ((makes_list fun _ _ => makes_truthValue (c := c)).mono
      fun _ _ _ _ h span => ⟨h.1, _, h.2, rfl⟩)
  · exact .bind_pure ((makes_list fun _ _ => makes_string (c := c)).mono
      fun _ _ _ _ h span => ⟨h.1, _, h.2, rfl⟩)
  · exact .bind_pure (hnumbers.mono fun _ _ _ _ h span => ⟨h.1, _, h.2, rfl⟩)
  · exact .bind_pure (hnumbers.mono fun _ _ _ _ h span => ⟨h.1, _, h.2, rfl⟩)
  · exact .giveUp

theorem makes_constantList (hk : s.kind = .leftBracket) :
    constantList.Makes s fun a us _ => Builds c (.constant a) us := by
  unfold constantList
  refine .spanned (.ask_bind ((makes_take (by simp [hk])).bind ?_))
  rintro token us t - ⟨rfl, -, x, rfl, hx⟩
  refine (makes_elements (c := c) _).bind fun f vs u _ hf => ?_
  refine .bind_pure ((makes_expect rfl).mono ?_)
  rintro close ws v - ⟨y, rfl, hy⟩ span
  obtain ⟨hadm, items, hitems, heq⟩ := hf span
  refine .of_items hadm ?_
  change Yields id false c (f span).items _
  rw [heq]
  exact yields_brackets (by rw [hx]; exact hk) hitems hy

theorem makes_constant : constant.Makes s fun a us _ => Builds c (.constant a) us := by
  unfold constant
  refine .ask_bind ?_
  split
  · next hk =>
    refine .spanned (.bind_pure ((makes_take (by simp [hk])).mono ?_))
    rintro token us t - ⟨rfl, -, x, rfl, hx⟩ span
    refine .of_items trivial (.terminal ?_ (.nil c))
    change x.1.kind = .kwNull
    rw [hx]
    exact hk
  · exact .bind_pure (makes_truthValue.mono fun _ _ _ _ h => h.alone trivial rfl)
  · exact .bind_pure (makes_string.mono fun _ _ _ _ h => h.alone trivial rfl)
  · next hk => exact makes_constantList hk
  · exact .bind_pure (makes_number.mono fun _ _ _ _ h => h.1.alone trivial rfl)
  · exact .bind_pure (makes_number.mono fun _ _ _ _ h => h.1.alone trivial rfl)
  · exact .ask_bind .giveUp

/-! ## Arguments -/

theorem makes_fieldArgument :
    fieldArgument.Makes s fun a us _ => Builds c (.fieldArgument a) us := by
  unfold fieldArgument
  refine .ask_bind ?_
  split
  · exact .bind_pure (makes_string.mono fun _ _ _ _ h => h.alone trivial rfl)
  · exact .bind_pure (makes_number.mono fun _ _ _ _ h => h.1.alone trivial rfl)
  · exact .bind_pure (makes_number.mono fun _ _ _ _ h => h.1.alone trivial rfl)
  · exact .bind_pure (makes_qualifiedName.mono fun _ _ _ _ h => h.alone trivial rfl)
  · exact .bind_pure (makes_qualifiedName.mono fun _ _ _ _ h => h.alone trivial rfl)
  · exact .ask_bind .giveUp

/-- A length of time, where its number is followed by a unit. -/
theorem makes_timeSpan (hk : s.kind ∈ numbers) (hunit : s.kindAfter = .dateUnit) :
    timeSpan.Makes s fun a us _ => Builds c (.timeSpan a) us := by
  unfold timeSpan
  refine .spanned ((makes_number (c := c)).bind fun n us t _ ⟨hn, ht⟩ => ?_)
  have hkind : t.kind = .dateUnit := by
    rw [ht hk, ← hunit, State.kindAfter, TokenStream.lookahead_succ]
    rfl
  refine .bind_pure ((makes_take (by simp [hkind])).mono ?_)
  rintro token vs u - ⟨rfl, -, x, rfl, hx⟩ span
  refine .of_items trivial (Yields.append hn (.terminal ⟨?_, by rw [hx]⟩ (.nil c)))
  rw [hx]
  exact hkind

end PipeQuery.Grammar
