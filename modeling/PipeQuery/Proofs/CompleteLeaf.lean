import PipeQuery.Proofs.Recast
import PipeQuery.Proofs.Fronts
import PipeQuery.Proofs.Readings

/-!
# Completeness of names and constants

What the grammar derives is read, as a value that is the same up to spans. This module shows it for
the leaves of the grammar. Most of them end by themselves; a reference to a field ends where no dot
follows.
-/

namespace PipeQuery.Grammar

open Rule State

variable {α β : Type} {ρ : Token → Token} {exact : Bool} {c : Context} {scope : Scope}
  {ps : List Placed} {follow : Kind → Prop}

/-- The phrase of a value derives the stretch. -/
abbrev Spells (ρ : Token → Token) (exact : Bool) (c : Context) (p : Phrase) (ps : List Placed) :
    Prop := Yields ρ exact c [.same p] ps

/-! ## Names -/

theorem erase_ofToken {i : Identifier} {token : Token} (hk : token.kind = i.kind)
    (ht : token.text = i.raw) (hq : i.quoted = i.kind.isQuotedIdentifier) (span : Span) :
    (Identifier.ofToken token span).recast .erase = i.recast .erase := by
  obtain ⟨raw, quoted, kind, span'⟩ := i
  obtain rfl : token.kind = kind := hk
  obtain rfl : token.text = raw := ht
  obtain rfl : quoted = token.kind.isQuotedIdentifier := hq
  rfl

theorem reads_identifierOf {kinds : KindSet} {i : Identifier}
    (h : Spells ρ exact c (.identifier i) ps) (hk : i.kind ∈ kinds) :
    (identifierOf kinds).Reads scope ps follow (·.recast .erase = i.recast .erase) := by
  obtain ⟨x, rfl, hx, ht, hq⟩ := Yields.of_identifier h
  unfold identifierOf
  refine Rule.Reads.spanned ?_
  refine (reads_expectAny (hx ▸ hk)).map fun token htoken span => ?_
  rw [htoken]
  exact erase_ofToken hx ht hq span

theorem reads_plainIdentifier {i : Identifier} (h : Spells ρ exact c (.identifier i) ps)
    (hi : i.IsPlain) : plainIdentifier.Reads scope ps follow (·.recast .erase = i.recast .erase) :=
  reads_identifierOf h hi.mem

theorem reads_takeIdentifier {i : Identifier} (h : Spells ρ exact c (.identifier i) ps) :
    takeIdentifier.Reads scope ps follow (·.recast .erase = i.recast .erase) := by
  obtain ⟨x, rfl, hx, ht, hq⟩ := Yields.of_identifier h
  unfold takeIdentifier
  refine Rule.Reads.spanned ?_
  refine reads_take.map fun token htoken span => ?_
  rw [htoken]
  exact erase_ofToken hx ht hq span

theorem Separated.forall_and {kind : Kind} {D : α → List Placed → Prop} {P : α → Prop}
    {as : List α} (h : Separated kind D as ps) (hP : ∀ a ∈ as, P a) :
    Separated kind (fun a ps => D a ps ∧ P a) as ps := by
  induction h with
  | one first => exact .one ⟨first, hP _ (by simp)⟩
  | more first separator _ ih =>
    exact .more ⟨first, hP _ (by simp)⟩ separator (ih fun a ha => hP a (by simp [ha]))

theorem reads_qualifiedName {q : QualifiedName} (h : Spells ρ exact c (.qualifiedName q) ps)
    (hf : ∀ k, follow k → k ≠ .dot) :
    qualifiedName.Reads scope ps follow (·.recast .erase = q.recast .erase) := by
  obtain ⟨⟨hne, hplain⟩, hitems, -⟩ := Yields.same_iff.1 h
  have hsep := Separated.forall_and ((Yields.separated_iff hne).1 hitems) hplain
  unfold qualifiedName
  refine Rule.Reads.spanned ?_
  have hparts : (separated .dot plainIdentifier).Reads scope ps follow
      (·.map (Identifier.recast .erase) = q.parts.map (Identifier.recast .erase)) :=
    reads_separated (fun i qs hi => reads_plainIdentifier hi.1 hi.2) trivial
      (fun k hk => ⟨trivial, hf k hk⟩) hsep
  refine hparts.map fun parts hparts span => ?_
  rw [QualifiedName.recast, QualifiedName.recast, hparts]

/-- A list of phrases is read phrase by phrase. -/
theorem reads_list {r : Rule α} [Lawful true r] {mid : Kind → Prop} {phrase : α → Phrase}
    {f : α → β} {as : List α} (hne : as ≠ []) (h : Yields ρ exact c (Item.list phrase as) ps)
    (hr : ∀ a ps, Spells ρ exact c (phrase a) ps → r.Reads scope ps mid (f · = f a))
    (hmid : mid .comma) (hfollow : ∀ k, follow k → mid k ∧ k ≠ .comma) :
    (separated .comma r).Reads scope ps follow (fun bs => bs.map f = as.map f) :=
  reads_separated hr hmid hfollow ((Yields.list_iff hne).1 h)

theorem reads_qualifiedNames {names : List QualifiedName} (hne : names ≠ [])
    (h : Yields ρ exact c (Item.list .qualifiedName names) ps)
    (hf : ∀ k, follow k → k ≠ .dot ∧ k ≠ .comma) :
    qualifiedNames.Reads scope ps follow
      (·.map (QualifiedName.recast .erase) = names.map (QualifiedName.recast .erase)) :=
  reads_list hne h (fun q _ hq => reads_qualifiedName hq fun _ hk => hk) (by decide) hf

/-- A new name in front of what it names, or what is named alone. -/
theorem reads_assigned? {kinds : KindSet} {name : Option Identifier} {qs : List Placed}
    (h : Yields ρ exact c (Item.assigned name) ps) (hk : ∀ i ∈ name, i.kind ∈ kinds)
    (hqs : ∀ rest, follow (frontKind rest) → frontKind (qs ++ rest) ∈ kinds →
      frontKind (qs ++ rest).tail ≠ .assign) {g : Option Identifier → Rule α} {wanted : α → Prop}
    (hg : ∀ o : Option Identifier,
      o.map (Identifier.recast .erase) = name.map (Identifier.recast .erase) →
      (g o).Reads scope qs follow wanted) :
    (assigned? kinds >>= g).Reads scope (ps ++ qs) follow wanted := by
  unfold assigned?
  cases name with
  | none =>
    obtain rfl := Yields.nil_iff.1 h
    intro s rest hs hscope hr hfront
    have hcond : (kinds.contains s.kind && s.kindAfter == .assign) = false := by
      have hr : s.stream.rest = qs ++ rest := hr
      have hne := hqs rest hfront
      rw [hs.kind_eq, hs.kindAfter_eq, hr]
      by_cases hmem : frontKind (qs ++ rest) ∈ kinds
      · simp [hne hmem]
      · rw [← KindSet.contains_iff] at hmem
        simp [hmem]
    obtain ⟨a, t, ha, hw⟩ := hg none rfl s rest hs hscope hr hfront
    refine ⟨a, t, ?_, hw⟩
    rw [← List.nil_append ([] ++ qs)]
    refine Accepts.bind (a := none) (u := s) ?_ ha
    rw [accepts_atAny?_bind, accepts_before?_bind, hcond]
    exact accepts_pure.2 ⟨hs, rfl, rfl, rfl⟩
  | some i =>
    obtain ⟨qs', rs, rfl, hi, hrest⟩ := Yields.cons_iff.1 h
    obtain ⟨x, rfl, hx, ht, hq⟩ := Yields.of_identifier hi
    obtain ⟨y, rs, rfl, hy, hnil⟩ := Yields.terminal_iff.1 hrest
    obtain rfl := Yields.nil_iff.1 hnil
    have hy : y.1.kind = .assign := hy
    have hmem : i.kind ∈ kinds := hk i rfl
    refine Rule.Reads.andThen
      (w := fun o => o.map (Identifier.recast .erase) = some (i.recast .erase)) ?_ hg
    refine .atAny? (by simp) ?_
    refine .ask true (fun s rest hs _ hr _ => ?_) ?_
    · rw [Rule.Reads.kindAfter_eq hs hr]
      simp [hy]
    have hcond : (kinds.contains (frontKind ([x] ++ [y])) && true) = true := by
      rw [Bool.and_true, KindSet.contains_iff]
      change x.1.kind ∈ kinds
      rwa [hx]
    rw [if_pos hcond]
    refine (reads_identifierOf hi hmem).andThen fun j hj => ?_
    refine reads_take.map fun _ _ => ?_
    rw [Option.map_some, hj]

/-! ## Numbers, strings and truth values -/

theorem reads_numberOf {kinds : KindSet} {n : NumericValue} (h : Spells ρ exact c (.number n) ps)
    (hk : n.kind.kind ∈ kinds) : (numberOf kinds).Reads scope ps follow
      (·.recast .erase = n.recast .erase) := by
  obtain ⟨x, rfl, hx, ht⟩ := Yields.of_number h
  unfold numberOf
  refine Rule.Reads.spanned ?_
  refine (reads_expectAny (hx ▸ hk)).map fun token htoken span => ?_
  obtain ⟨raw, kind, span'⟩ := n
  obtain rfl : x.1.text = raw := ht
  have hkind : NumericKind.ofKind x.1.kind = kind := by
    rw [hx]
    cases kind <;> rfl
  rw [htoken, hkind]
  rfl

theorem reads_number {n : NumericValue} (h : Spells ρ exact c (.number n) ps) :
    number.Reads scope ps follow (·.recast .erase = n.recast .erase) :=
  reads_numberOf h n.kind.kind_mem_numbers

theorem reads_string {l : StringLiteral} (h : Spells ρ exact c (.string l) ps) :
    string.Reads scope ps follow (·.recast .erase = l.recast .erase) := by
  obtain ⟨x, rfl, hx, ht⟩ := Yields.of_string h
  unfold string
  refine Rule.Reads.spanned ?_
  refine (reads_expect hx).map fun token htoken span => ?_
  rw [htoken, ht]
  rfl

theorem reads_truthValue {b : BooleanValue} (h : Spells ρ exact c (.truthValue b) ps) :
    truthValue.Reads scope ps follow (·.recast .erase = b.recast .erase) := by
  obtain ⟨x, rfl, hx, ht⟩ := Yields.of_truthValue h
  unfold truthValue
  refine Rule.Reads.spanned ?_
  refine (reads_expect hx).map fun token htoken span => ?_
  rw [htoken, ht]
  rfl

/-! ## Constants -/

/-- A list begins as its elements do. -/
theorem front_list {phrase : α → Phrase} {as : List α} {P : Kind → Prop} (hne : as ≠ [])
    (h : Yields ρ exact c (Item.list phrase as) ps)
    (hP : ∀ a ps, Spells ρ exact c (phrase a) ps → P (frontKind ps)) :
    ps ≠ [] ∧ P (frontKind ps) := by
  obtain ⟨a, qs, rs, ha, rfl⟩ := ((Yields.list_iff hne).1 h).exists_first
  have hqs : qs ≠ [] := ha.ne_nil_of_phrase
  refine ⟨by simp [hqs], ?_⟩
  rw [frontKind_append hqs]
  exact hP a qs ha

theorem reads_truthValues {bs : List BooleanValue} {start : Nat} (hne : bs ≠ [])
    (h : Yields ρ exact c (Item.list .truthValue bs) ps) (span' : Span) :
    (elements start).Reads scope ps (· = .rightBracket)
      fun list => ∀ span,
        (list span).recast .erase = (Constant.booleanArray bs span').recast .erase := by
  obtain ⟨hps, hk⟩ := front_list (P := (· = .boolean)) hne h fun b qs hb => by
    obtain ⟨x, rfl, hx, -⟩ := Yields.of_truthValue hb
    exact hx
  unfold elements
  refine .askKind hps ?_
  rw [hk]
  have hlist : (separated .comma truthValue).Reads scope ps (· = .rightBracket)
      (·.map (BooleanValue.recast .erase) = bs.map (BooleanValue.recast .erase)) :=
    reads_list hne h (fun b qs hb => reads_truthValue hb) trivial
      fun k hk => ⟨trivial, by rw [hk]; decide⟩
  refine hlist.map fun as has span => ?_
  rw [Constant.recast, Constant.recast, has]

theorem reads_strings {ls : List StringLiteral} {start : Nat} (hne : ls ≠ [])
    (h : Yields ρ exact c (Item.list .string ls) ps) (span' : Span) :
    (elements start).Reads scope ps (· = .rightBracket)
      fun list => ∀ span,
        (list span).recast .erase = (Constant.stringArray ls span').recast .erase := by
  obtain ⟨hps, hk⟩ := front_list (P := (· = .string)) hne h fun l qs hl => by
    obtain ⟨x, rfl, hx, -⟩ := Yields.of_string hl
    exact hx
  unfold elements
  refine .askKind hps ?_
  rw [hk]
  have hlist : (separated .comma string).Reads scope ps (· = .rightBracket)
      (·.map (StringLiteral.recast .erase) = ls.map (StringLiteral.recast .erase)) :=
    reads_list hne h (fun l qs hl => reads_string hl) trivial
      fun k hk => ⟨trivial, by rw [hk]; decide⟩
  refine hlist.map fun as has span => ?_
  rw [Constant.recast, Constant.recast, has]

theorem reads_numbers {ns : List NumericValue} {start : Nat} (hne : ns ≠ [])
    (h : Yields ρ exact c (Item.list .number ns) ps) (span' : Span) :
    (elements start).Reads scope ps (· = .rightBracket)
      fun list => ∀ span,
        (list span).recast .erase = (Constant.numericArray ns span').recast .erase := by
  obtain ⟨hps, hk⟩ := front_list (P := fun k => k = .integer ∨ k = .decimal) hne h fun n qs hn => by
    obtain ⟨x, rfl, hx, -⟩ := Yields.of_number hn
    rw [frontKind_cons, hx]
    cases n.kind with
    | integer => exact .inl rfl
    | decimal => exact .inr rfl
  have hlist : (separated .comma number).Reads scope ps (· = .rightBracket)
      (·.map (NumericValue.recast .erase) = ns.map (NumericValue.recast .erase)) :=
    reads_list hne h (fun n qs hn => reads_number hn) trivial
      fun k hk => ⟨trivial, by rw [hk]; decide⟩
  unfold elements
  refine .askKind hps ?_
  obtain hk | hk := hk
  all_goals
    rw [hk]
    refine hlist.map fun as has span => ?_
    rw [Constant.recast, Constant.recast, has]

theorem reads_constantList {a : Constant} {items : List Item}
    (h : Yields ρ exact c (.kind .leftBracket :: (items ++ [.kind .rightBracket])) ps)
    (hitems : ∀ start qs, Yields ρ exact c items qs →
      (elements start).Reads scope qs (· = .rightBracket)
        fun list => ∀ span, (list span).recast .erase = a.recast .erase) :
    constantList.Reads scope ps follow (·.recast .erase = a.recast .erase) := by
  obtain ⟨x, rs, rfl, -, hrest⟩ := Yields.terminal_iff.1 h
  obtain ⟨qs, rs, rfl, hqs, hclose⟩ := Yields.append_iff.1 hrest
  obtain ⟨y, rfl, hy⟩ := Yields.singleton_terminal_iff.1 hclose
  unfold constantList
  refine Rule.Reads.spanned (.askAny fun start => ?_)
  refine .take_bind ?_
  refine (hitems start qs hqs).bind (fun _ _ => hy) fun list hlist => ?_
  exact (reads_expect hy).map fun _ _ => hlist

theorem reads_constant {a : Constant} (h : Spells ρ exact c (.constant a) ps) :
    constant.Reads scope ps follow (·.recast .erase = a.recast .erase) := by
  have hps := h.ne_nil_of_phrase
  obtain ⟨hadm, hitems, -⟩ := Yields.same_iff.1 h
  unfold constant
  refine .askKind hps ?_
  cases a with
  | null span =>
    obtain ⟨x, rfl, hx⟩ := Yields.singleton_terminal_iff.1 hitems
    have hx : x.1.kind = .kwNull := hx
    rw [frontKind_cons, hx]
    refine Rule.Reads.spanned ?_
    exact reads_take.map fun _ _ _ => rfl
  | numeric n =>
    have hn : number.Reads scope ps follow
      (·.recast .erase = n.recast .erase) := reads_number hitems
    obtain ⟨x, rfl, hx, -⟩ := Yields.of_number hitems
    rw [frontKind_cons, hx]
    cases hk : n.kind.kind with
    | integer | decimal => exact hn.map fun m hm => by rw [Constant.recast, Constant.recast, hm]
    | _ => cases hk' : n.kind <;> simp [hk', NumericKind.kind] at hk
  | boolean b =>
    have hb : truthValue.Reads scope ps follow
      (·.recast .erase = b.recast .erase) := reads_truthValue hitems
    obtain ⟨x, rfl, hx, -⟩ := Yields.of_truthValue hitems
    rw [frontKind_cons, hx]
    exact hb.map fun d hd => by rw [Constant.recast, Constant.recast, hd]
  | string l =>
    have hl : string.Reads scope ps follow
      (·.recast .erase = l.recast .erase) := reads_string hitems
    obtain ⟨x, rfl, hx, -⟩ := Yields.of_string hitems
    rw [frontKind_cons, hx]
    exact hl.map fun d hd => by rw [Constant.recast, Constant.recast, hd]
  | numericArray ns span =>
    have hk : frontKind ps = .leftBracket := by
      obtain ⟨x, qs, rfl, hx, -⟩ := Yields.terminal_iff.1 hitems
      exact hx
    rw [hk]
    exact reads_constantList hitems fun start qs hqs => reads_numbers hadm hqs span
  | booleanArray bs span =>
    have hk : frontKind ps = .leftBracket := by
      obtain ⟨x, qs, rfl, hx, -⟩ := Yields.terminal_iff.1 hitems
      exact hx
    rw [hk]
    exact reads_constantList hitems fun start qs hqs => reads_truthValues hadm hqs span
  | stringArray ls span =>
    have hk : frontKind ps = .leftBracket := by
      obtain ⟨x, qs, rfl, hx, -⟩ := Yields.terminal_iff.1 hitems
      exact hx
    rw [hk]
    exact reads_constantList hitems fun start qs hqs => reads_strings hadm hqs span

/-! ## Arguments -/

theorem reads_fieldArgument {a : FieldArgument} (h : Spells ρ exact c (.fieldArgument a) ps)
    (hf : ∀ k, follow k → k ≠ .dot) :
    fieldArgument.Reads scope ps follow (·.recast .erase = a.recast .erase) := by
  have hps := h.ne_nil_of_phrase
  obtain ⟨-, hitems, -⟩ := Yields.same_iff.1 h
  unfold fieldArgument
  refine .askKind hps ?_
  cases a with
  | field q =>
    have hq : qualifiedName.Reads scope ps follow (·.recast .erase = q.recast .erase) :=
      reads_qualifiedName hitems hf
    have hk : frontKind ps ∈ plainNames := (Yields.begins_qualifiedName hitems).front
    obtain hk | hk : frontKind ps = .identifier ∨ frontKind ps = .quotedIdentifier := by
      simpa using KindSet.mem_ofList.1 hk
    all_goals
      rw [hk]
      exact hq.map fun d hd => by rw [FieldArgument.recast, FieldArgument.recast, hd]
  | string l =>
    have hl : string.Reads scope ps follow
      (·.recast .erase = l.recast .erase) := reads_string hitems
    obtain ⟨x, rfl, hx, -⟩ := Yields.of_string hitems
    rw [frontKind_cons, hx]
    exact hl.map fun d hd => by rw [FieldArgument.recast, FieldArgument.recast, hd]
  | numeric n =>
    have hn : number.Reads scope ps follow
      (·.recast .erase = n.recast .erase) := reads_number hitems
    obtain ⟨x, rfl, hx, -⟩ := Yields.of_number hitems
    rw [frontKind_cons, hx]
    cases hk : n.kind.kind with
    | integer | decimal =>
      exact hn.map fun m hm => by rw [FieldArgument.recast, FieldArgument.recast, hm]
    | _ => cases hk' : n.kind <;> simp [hk', NumericKind.kind] at hk

/-- A length of time is a number and a unit. -/
theorem reads_timeSpan {a : TimeSpan} (h : Spells ρ exact c (.timeSpan a) ps) :
    timeSpan.Reads scope ps follow (·.recast .erase = a.recast .erase) := by
  obtain ⟨-, hitems, -⟩ := Yields.same_iff.1 h
  obtain ⟨qs, rs, rfl, hn, hrest⟩ := Yields.cons_iff.1 hitems
  obtain ⟨y, rfl, -, ht⟩ := Yields.singleton_terminal_iff.1 hrest
  unfold timeSpan
  refine Rule.Reads.spanned ?_
  refine (reads_number hn).andThen fun n hn => ?_
  refine reads_take.map fun token htoken span => ?_
  rw [TimeSpan.recast, TimeSpan.recast, hn, htoken, ht]

end PipeQuery.Grammar
