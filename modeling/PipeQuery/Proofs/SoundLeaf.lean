import PipeQuery.Proofs.Derivation
import PipeQuery.Proofs.Repeats

/-!
# Soundness of names and constants

What a rule reads without a diagnostic is derived by the grammar, and spans are exact. This module
shows it for the leaves of the grammar; the values of the rules say which phrases they are.
-/

namespace PipeQuery.Grammar

open Rule State

variable {α : Type} {s t : State} {ps : List Placed} {c : Context}

/-- The phrase of what the rule has read derives its stretch, and spans are exact. -/
def Derives (c : Context) (p : Phrase) (ps : List Placed) : Prop := Yields id true c [.same p] ps

/-- A phrase that took the span of its tokens derives them if its items do. -/
theorem Rule.Accepts.derives_spanned_and {r : Rule (Span → α)} {phrase : α → Phrase} {P : α → Prop}
    {a : α} (h : (Grammar.spanned r).Accepts s ps a t)
    (hr : ∀ f, r.Accepts s ps f t → ∀ span, (phrase (f span)).span = span ∧
      (phrase (f span)).Admissible c.filters ∧ Yields id true c (phrase (f span)).items ps ∧
        P (f span)) : Derives c (phrase a) ps ∧ P a := by
  obtain ⟨f, hf, rfl⟩ := accepts_spanned.1 h
  obtain ⟨hspan, hadm, hitems, hP⟩ := hr f hf (t.spanFrom s.position)
  have hps : ps ≠ [] := hitems.ne_nil (Phrase.items_ne_nil hadm)
  refine ⟨Yields.same_iff.2 ⟨hadm, hitems, fun _ => ?_⟩, hP⟩
  rw [hspan, hf.reads.spanFrom hps]

theorem Rule.Accepts.derives_spanned {r : Rule (Span → α)} {phrase : α → Phrase} {a : α}
    (h : (Grammar.spanned r).Accepts s ps a t)
    (hr : ∀ f, r.Accepts s ps f t → ∀ span, (phrase (f span)).span = span ∧
      (phrase (f span)).Admissible c.filters ∧ Yields id true c (phrase (f span)).items ps) :
    Derives c (phrase a) ps := by
  refine (h.derives_spanned_and (P := fun _ => True) fun f hf span => ?_).1
  obtain ⟨hspan, hadm, hitems⟩ := hr f hf span
  exact ⟨hspan, hadm, hitems, trivial⟩

/-- A list of phrases derives its stretch. -/
theorem yields_list {phrase : α → Phrase} {as : List α}
    (h : Separated .comma (fun a ps => Derives c (phrase a) ps) as ps) :
    as ≠ [] ∧ Yields id true c (Item.list phrase as) ps :=
  ⟨h.ne_nil, (Yields.list_iff h.ne_nil).2 h⟩

/-! ## Names -/

/-- The kinds are those of names. -/
def Names (kinds : KindSet) : Prop := ∀ k ∈ kinds, k.isName = true

theorem names_ofList {kinds : List Kind} (h : ∀ k ∈ kinds, k.isName = true) :
    Names (.ofList kinds) :=
  fun k hk => h k (KindSet.mem_ofList.1 hk)

theorem names_plainNames : Names plainNames := names_ofList (by decide)

theorem names_sourceNames : Names sourceNames := names_ofList (by decide)

theorem names_enrichNames : Names enrichNames := names_ofList (by decide)

/-- An identifier was read from a token of one of the kinds. -/
theorem Rule.Accepts.of_identifierOf {kinds : KindSet} {i : Identifier}
    (h : (identifierOf kinds).Accepts s ps i t) (hn : Names kinds) :
    ∃ x, ps = [x] ∧ i = Identifier.ofToken x.1 (Span.around [x]) ∧ x.1.kind ∈ kinds := by
  have he : .endOfInput ∉ kinds := fun hmem => absurd (hn _ hmem) (by decide)
  unfold identifierOf at h
  obtain ⟨f, hf, rfl⟩ := accepts_spanned.1 h
  obtain ⟨token, htoken, rfl⟩ := accepts_bind_pure.1 hf
  obtain ⟨x, rfl, rfl, hx, -⟩ := htoken.of_expectAny he
  refine ⟨x, rfl, ?_, hx⟩
  rw [htoken.reads.spanFrom (by simp)]

theorem derives_ofToken (c : Context) {x : Placed} (hx : x.1.kind.isName = true) :
    Derives c (.identifier (Identifier.ofToken x.1 (Span.around [x]))) [x] :=
  Yields.same_iff.2 ⟨⟨hx, rfl⟩, .terminal ⟨rfl, rfl⟩ (.nil c), fun _ => rfl⟩

theorem Rule.Accepts.derives_identifierOf {kinds : KindSet} {i : Identifier}
    (h : (identifierOf kinds).Accepts s ps i t) (hn : Names kinds) :
    Derives c (.identifier i) ps ∧ i.kind ∈ kinds := by
  obtain ⟨x, rfl, rfl, hx⟩ := h.of_identifierOf hn
  exact ⟨derives_ofToken c (hn _ hx), hx⟩

theorem Rule.Accepts.derives_plainIdentifier {i : Identifier}
    (h : plainIdentifier.Accepts s ps i t) : Derives c (.identifier i) ps ∧ i.IsPlain := by
  obtain ⟨hi, hk⟩ := h.derives_identifierOf (c := c) names_plainNames
  exact ⟨hi, KindSet.mem_ofList.1 hk⟩

theorem Rule.Accepts.derives_takeIdentifier {i : Identifier} (h : takeIdentifier.Accepts s ps i t)
    (hk : s.kind.isName = true) : Derives c (.identifier i) ps ∧ i.kind = s.kind := by
  have he : s.kind ≠ .endOfInput := fun he => absurd (he ▸ hk) (by decide)
  unfold takeIdentifier at h
  obtain ⟨f, hf, rfl⟩ := accepts_spanned.1 h
  obtain ⟨token, htoken, rfl⟩ := accepts_bind_pure.1 hf
  obtain ⟨x, rfl, rfl, hx, -⟩ := htoken.of_take he
  rw [htoken.reads.spanFrom (by simp)]
  exact ⟨derives_ofToken c (hx ▸ hk), hx⟩

/-- The parts of a name stand between dots, and no dot comes behind it. -/
theorem Rule.Accepts.derives_qualifiedName {q : QualifiedName}
    (h : qualifiedName.Accepts s ps q t) : Derives c (.qualifiedName q) ps := by
  unfold qualifiedName at h
  refine h.derives_spanned fun f hf span => ?_
  obtain ⟨parts, hparts, rfl⟩ := accepts_bind_pure.1 hf
  obtain ⟨hsep, -⟩ := hparts.of_separated
    (D := fun i ps => Derives c (.identifier i) ps ∧ i.IsPlain)
    fun _ _ _ _ _ hi => hi.derives_plainIdentifier
  exact ⟨rfl, ⟨hsep.ne_nil, hsep.forall_mem fun _ _ hi => hi.2⟩,
    (Yields.separated_iff hsep.ne_nil).2 (hsep.mono fun _ _ hi => hi.1)⟩

theorem Rule.Accepts.yields_qualifiedNames {names : List QualifiedName}
    (h : qualifiedNames.Accepts s ps names t) :
    names ≠ [] ∧ Yields id true c (Item.list .qualifiedName names) ps :=
  yields_list (h.of_separated fun _ _ _ _ _ hq => hq.derives_qualifiedName).1

/-- A new name was read with its equals sign, or it does not stand there. -/
theorem Rule.Accepts.of_assigned? {kinds : KindSet} {name : Option Identifier}
    (h : (assigned? kinds).Accepts s ps name t) (hn : Names kinds) :
    Yields id true c (Item.assigned name) ps ∧ ∀ i ∈ name, i.kind ∈ kinds := by
  unfold assigned? at h
  rw [accepts_atAny?_bind, accepts_before?_bind] at h
  split at h
  · next hk =>
    obtain ⟨i, u, qs, rs, rfl, hi, hrest⟩ := accepts_bind.1 h
    obtain ⟨token, htoken, rfl⟩ := accepts_bind_pure.1 hrest
    obtain ⟨x, rfl, hx, hxk⟩ := hi.of_identifierOf hn
    have hu : u.kind = .assign := by
      simp only [Bool.and_eq_true, beq_iff_eq] at hk
      exact hi.reads.kind_eq_kindAfter.trans hk.2
    obtain ⟨y, rfl, -, hy, -⟩ := htoken.of_take (by simp [hu])
    rw [hx]
    refine ⟨Yields.append (derives_ofToken c (hn _ hxk)) (.terminal (hy.trans hu) (.nil c)), ?_⟩
    simpa [Identifier.ofToken] using hxk
  · obtain ⟨-, rfl, rfl, -⟩ := accepts_pure.1 h
    exact ⟨.nil c, by simp⟩

/-! ## Numbers, strings and truth values -/

theorem Rule.Accepts.derives_numberOf {kinds : KindSet} {n : NumericValue}
    (h : (numberOf kinds).Accepts s ps n t) (hk : ∀ k ∈ kinds, k ∈ [Kind.integer, .decimal]) :
    Derives c (.number n) ps ∧ n.kind.kind ∈ kinds := by
  unfold numberOf at h
  have he : .endOfInput ∉ kinds := fun hmem => by simpa using hk _ hmem
  obtain ⟨f, hf, hfn⟩ := accepts_spanned.1 h
  obtain ⟨token, htoken, rfl⟩ := accepts_bind_pure.1 hf
  obtain ⟨x, rfl, rfl, hx, -⟩ := htoken.of_expectAny he
  have hkind : (NumericKind.ofKind x.1.kind).kind = x.1.kind := by
    have hmem := hk _ hx
    simp only [List.mem_cons, List.not_mem_nil, or_false] at hmem
    obtain hmem | hmem := hmem <;> rw [hmem] <;> rfl
  rw [htoken.reads.spanFrom (by simp)] at hfn
  rw [hfn]
  refine ⟨Yields.same_iff.2 ⟨trivial, .terminal ⟨hkind.symm, rfl⟩ (.nil c), fun _ => rfl⟩, ?_⟩
  change (NumericKind.ofKind x.1.kind).kind ∈ kinds
  rwa [hkind]

theorem Rule.Accepts.derives_number {n : NumericValue} (h : number.Accepts s ps n t) :
    Derives c (.number n) ps :=
  (h.derives_numberOf fun _ hk => KindSet.mem_ofList.1 hk).1

theorem Rule.Accepts.derives_integer {n : NumericValue} (h : integer.Accepts s ps n t) :
    Derives c (.number n) ps ∧ n.kind = .integer := by
  obtain ⟨hn, hk⟩ := h.derives_numberOf (c := c) fun k hk => by
    rw [KindSet.mem_singleton.1 hk]
    decide
  refine ⟨hn, ?_⟩
  have hk := KindSet.mem_singleton.1 hk
  cases hkind : n.kind with
  | integer => rfl
  | decimal => simp [hkind, NumericKind.kind] at hk

theorem Rule.Accepts.derives_string {l : StringLiteral} (h : string.Accepts s ps l t) :
    Derives c (.string l) ps := by
  unfold string at h
  refine h.derives_spanned fun f hf span => ?_
  obtain ⟨token, htoken, rfl⟩ := accepts_bind_pure.1 hf
  obtain ⟨x, rfl, rfl, hx, -⟩ := htoken.of_expect (by decide)
  exact ⟨rfl, trivial, .terminal ⟨hx, rfl⟩ (.nil c)⟩

theorem Rule.Accepts.derives_truthValue {b : BooleanValue} (h : truthValue.Accepts s ps b t) :
    Derives c (.truthValue b) ps := by
  unfold truthValue at h
  refine h.derives_spanned fun f hf span => ?_
  obtain ⟨token, htoken, rfl⟩ := accepts_bind_pure.1 hf
  obtain ⟨x, rfl, rfl, hx, -⟩ := htoken.of_expect (by decide)
  exact ⟨rfl, trivial, .terminal ⟨hx, rfl⟩ (.nil c)⟩

/-! ## Constants -/

/-- Items in brackets. -/
theorem yields_brackets {exact : Bool} {items : List Item} {x y : Placed}
    (hx : x.1.kind = .leftBracket) (h : Yields id exact c items ps)
    (hy : y.1.kind = .rightBracket) :
    Yields id exact c (.kind .leftBracket :: (items ++ [.kind .rightBracket])) (x :: (ps ++ [y])) :=
  .terminal hx (h.append (.terminal hy (.nil c)))

/-- The elements of a list, behind its opening bracket. -/
theorem Rule.Accepts.of_elements {start : Nat} {f : Span → Constant}
    (h : (elements start).Accepts s ps f t) (span : Span) :
    (f span).span = span ∧ (f span).Admissible ∧ ∃ items, Yields id true c items ps ∧
      (f span).items = .kind .leftBracket :: (items ++ [.kind .rightBracket]) := by
  unfold elements at h
  rw [accepts_ask_bind] at h
  split at h
  · obtain ⟨bs, hbs, rfl⟩ := accepts_bind_pure.1 h
    obtain ⟨hne, hitems⟩ := yields_list (hbs.of_separated fun _ _ _ _ _ hb => hb.derives_truthValue).1
    exact ⟨rfl, hne, _, hitems, rfl⟩
  · obtain ⟨ls, hls, rfl⟩ := accepts_bind_pure.1 h
    obtain ⟨hne, hitems⟩ := yields_list (hls.of_separated fun _ _ _ _ _ hl => hl.derives_string).1
    exact ⟨rfl, hne, _, hitems, rfl⟩
  · obtain ⟨ns, hns, rfl⟩ := accepts_bind_pure.1 h
    obtain ⟨hne, hitems⟩ := yields_list (hns.of_separated fun _ _ _ _ _ hn => hn.derives_number).1
    exact ⟨rfl, hne, _, hitems, rfl⟩
  · obtain ⟨ns, hns, rfl⟩ := accepts_bind_pure.1 h
    obtain ⟨hne, hitems⟩ := yields_list (hns.of_separated fun _ _ _ _ _ hn => hn.derives_number).1
    exact ⟨rfl, hne, _, hitems, rfl⟩
  · exact absurd h not_accepts_noViable

theorem Rule.Accepts.derives_constantList {a : Constant} (h : constantList.Accepts s ps a t)
    (hk : s.kind = .leftBracket) : Derives c (.constant a) ps := by
  unfold constantList at h
  refine h.derives_spanned fun f hf span => ?_
  rw [accepts_ask_bind] at hf
  obtain ⟨token, u, qs, rs, rfl, htoken, hrest⟩ := accepts_bind.1 hf
  obtain ⟨f', v, qs', rs', rfl, hf', hrest⟩ := accepts_bind.1 hrest
  obtain ⟨close, hclose, rfl⟩ := accepts_bind_pure.1 hrest
  obtain ⟨x, rfl, -, hx, -⟩ := htoken.of_take (by simp [hk])
  obtain ⟨y, rfl, -, hy, -⟩ := hclose.of_expect (by decide)
  obtain ⟨hspan, hadm, items, hitems, heq⟩ := hf'.of_elements (c := c) span
  refine ⟨hspan, hadm, ?_⟩
  change Yields id true c (f span).items _
  rw [heq]
  exact yields_brackets (hx.trans hk) hitems hy

/-- A constant that is another phrase alone. -/
theorem Derives.alone {p q : Phrase} (h : Derives c q ps) (hadm : p.Admissible c.filters)
    (hitems : p.items = [.same q]) (hspan : p.span = q.span) : Derives c p ps := by
  obtain ⟨-, -, hq⟩ := Yields.same_iff.1 h
  refine Yields.same_iff.2 ⟨hadm, ?_, fun he => hspan.trans (hq he)⟩
  rw [hitems]
  exact h

theorem Rule.Accepts.derives_constant {a : Constant} (h : constant.Accepts s ps a t) :
    Derives c (.constant a) ps := by
  unfold constant at h
  rw [accepts_ask_bind] at h
  split at h
  · next hk =>
    refine h.derives_spanned fun f hf span => ?_
    obtain ⟨token, htoken, rfl⟩ := accepts_bind_pure.1 hf
    obtain ⟨x, rfl, -, hx, -⟩ := htoken.of_take (by simp [hk])
    exact ⟨rfl, trivial, .terminal (hx.trans hk) (.nil c)⟩
  · obtain ⟨b, hb, rfl⟩ := accepts_bind_pure.1 h
    exact hb.derives_truthValue.alone trivial rfl rfl
  · obtain ⟨l, hl, rfl⟩ := accepts_bind_pure.1 h
    exact hl.derives_string.alone trivial rfl rfl
  · next hk => exact h.derives_constantList hk
  · obtain ⟨n, hn, rfl⟩ := accepts_bind_pure.1 h
    exact hn.derives_number.alone trivial rfl rfl
  · obtain ⟨n, hn, rfl⟩ := accepts_bind_pure.1 h
    exact hn.derives_number.alone trivial rfl rfl
  · rw [accepts_ask_bind] at h
    exact absurd h not_accepts_noViable

/-! ## Arguments -/

theorem Rule.Accepts.derives_fieldArgument {a : FieldArgument}
    (h : fieldArgument.Accepts s ps a t) : Derives c (.fieldArgument a) ps := by
  unfold fieldArgument at h
  rw [accepts_ask_bind] at h
  split at h
  · obtain ⟨l, hl, rfl⟩ := accepts_bind_pure.1 h
    exact hl.derives_string.alone trivial rfl rfl
  · obtain ⟨n, hn, rfl⟩ := accepts_bind_pure.1 h
    exact hn.derives_number.alone trivial rfl rfl
  · obtain ⟨n, hn, rfl⟩ := accepts_bind_pure.1 h
    exact hn.derives_number.alone trivial rfl rfl
  · obtain ⟨q, hq, rfl⟩ := accepts_bind_pure.1 h
    exact hq.derives_qualifiedName.alone trivial rfl rfl
  · obtain ⟨q, hq, rfl⟩ := accepts_bind_pure.1 h
    exact hq.derives_qualifiedName.alone trivial rfl rfl
  · rw [accepts_ask_bind] at h
    exact absurd h not_accepts_noViable

/-- A length of time, where its number is followed by a unit. -/
theorem Rule.Accepts.derives_timeSpan {a : TimeSpan} (h : timeSpan.Accepts s ps a t)
    (hk : s.kindAfter = .dateUnit) : Derives c (.timeSpan a) ps := by
  unfold timeSpan at h
  refine h.derives_spanned fun f hf span => ?_
  obtain ⟨n, u, qs, rs, rfl, hn, hrest⟩ := accepts_bind.1 hf
  obtain ⟨token, htoken, rfl⟩ := accepts_bind_pure.1 hrest
  have hnd := hn.derives_number (c := c)
  obtain ⟨x, rfl⟩ : ∃ x, qs = [x] := by
    obtain ⟨-, hitems, -⟩ := Yields.same_iff.1 hnd
    obtain ⟨x, rfl, -⟩ := Yields.singleton_terminal_iff.1 hitems
    exact ⟨x, rfl⟩
  have hu : u.kind = .dateUnit := hn.reads.kind_eq_kindAfter.trans hk
  obtain ⟨y, rfl, rfl, hy, -⟩ := htoken.of_take (by simp [hu])
  exact ⟨rfl, trivial, Yields.append hnd (.terminal ⟨hy.trans hu, rfl⟩ (.nil c))⟩

end PipeQuery.Grammar
