import Mathlib.Data.List.Sort
import PipeQuery.Parsed
import PipeQuery.Proofs.SoundQuery

/-!
# Spans are exact

Every phrase of a query that was read without a diagnostic has a span that begins and ends with a
token that the grammar sees, and the tokens in it are those that the phrase is made of, in order and
each one once. The spans of the phrases inside a phrase lie in its span, one behind the other.

The derivations of `Yields` carry the spans with them, so that all of it is read off the derivation
of the query: every phrase below it derives a part of the text (`Yields.exists_part`).
-/

namespace PipeQuery

/-! ## The tokens of a span -/

/-- The tokens of a span that the grammar sees, with their positions. -/
def Span.seen (span : Span) (tokens : List Token) : List Placed :=
  ((tokens.extract span.start span.stop).zipIdx span.start).filter (·.1.isSignificant)

theorem Span.mem_seen {span : Span} {tokens : List Token} {x : Placed} :
    x ∈ span.seen tokens ↔ span.start ≤ x.2 ∧ x.2 < span.stop ∧ tokens[x.2]? = some x.1 ∧
      x.1.isSignificant = true := by
  obtain ⟨token, i⟩ := x
  rw [seen, List.mem_filter, List.mk_mem_zipIdx_iff_le_and_getElem?_sub, List.extract_eq_take_drop,
    List.getElem?_take, List.getElem?_drop]
  by_cases hi : span.start ≤ i
  · have hadd : span.start + (i - span.start) = i := by omega
    have hlt : i - span.start < span.stop - span.start ↔ i < span.stop := by omega
    by_cases hs : i < span.stop
    · simp [hi, hadd, hlt.2 hs, hs]
    · simp [hi, hs, mt hlt.1 hs]
  · simp [hi]

theorem Span.ascending_seen (span : Span) (tokens : List Token) : Ascending (span.seen tokens) :=
  (ascending_zipIdx _ _).filter _

instance : Std.Irrefl (fun x y : Placed => x.2 < y.2) := ⟨fun x => Nat.lt_irrefl x.2⟩

instance : Std.Antisymm (fun x y : Placed => x.2 < y.2) :=
  ⟨fun _ _ h h' => absurd h' (Nat.lt_asymm h)⟩

/-- Stretches with the same tokens are equal. -/
theorem Ascending.eq_of_mem_iff {ps qs : List Placed} (hp : Ascending ps) (hq : Ascending qs)
    (h : ∀ x, x ∈ ps ↔ x ∈ qs) : ps = qs :=
  List.Pairwise.eq_of_mem_iff hp hq h

namespace Ascending

variable {ps qs rs : List Placed}

theorem start_le {x : Placed} (h : Ascending ps) (hx : x ∈ ps) : (Span.around ps).start ≤ x.2 := by
  obtain ⟨y, qs, rfl⟩ := List.exists_cons_of_ne_nil (List.ne_nil_of_mem hx)
  obtain rfl | hx := List.mem_cons.1 hx
  · exact Nat.le_refl _
  · exact Nat.le_of_lt ((List.pairwise_cons.1 h).1 x hx)

theorem lt_stop {x : Placed} (h : Ascending ps) (hx : x ∈ ps) : x.2 < (Span.around ps).stop := by
  have hne := List.ne_nil_of_mem hx
  rw [Span.stop_around hne]
  rw [← List.dropLast_append_getLast hne] at h hx
  obtain hx | hx := List.mem_append.1 hx
  · have hlt := (List.pairwise_append.1 h).2.2 x hx (ps.getLast hne) (by simp)
    exact Nat.lt_succ_of_lt hlt
  · rw [List.mem_singleton.1 hx]
    exact Nat.lt_succ_self _

/-- The span of a part of a stretch lies inside the span of the stretch. -/
theorem around_part (h : Ascending ps) (hq : qs <:+: ps) (hne : qs ≠ []) :
    (Span.around ps).start ≤ (Span.around qs).start ∧
      (Span.around qs).stop ≤ (Span.around ps).stop := by
  have hhead : qs.head hne ∈ ps := hq.subset (List.head_mem hne)
  have hlast : qs.getLast hne ∈ ps := hq.subset (List.getLast_mem hne)
  rw [Span.start_around hne, Span.stop_around hne]
  exact ⟨h.start_le hhead, h.lt_stop hlast⟩

theorem of_part (h : Ascending ps) (hq : qs <:+: ps) : Ascending qs :=
  List.Pairwise.sublist hq.sublist h

end Ascending

/-- The span of a part of what the grammar sees has just the tokens of the part. -/
theorem Span.seen_around {tokens : List Token} {ps : List Placed}
    (h : ps <:+: TokenStream.significant tokens) (hne : ps ≠ []) :
    (Span.around ps).seen tokens = ps := by
  have hasc := TokenStream.ascending_significant tokens
  refine Ascending.eq_of_mem_iff (ascending_seen _ _) (hasc.of_part h) fun x => ?_
  rw [mem_seen]
  constructor
  · rintro ⟨hstart, hstop, hx, hsig⟩
    obtain ⟨pre, post, heq⟩ := h
    have hlast : (ps.getLast hne).2 < tokens.findIdx Token.isEnd := by
      have hmem : ps.getLast hne ∈ TokenStream.significant tokens := by
        rw [← heq]
        simp
      exact (TokenStream.mem_significant.1 hmem).1
    have hstop' := Span.stop_around hne
    have hmem : x ∈ pre ++ ps ++ post := by
      rw [heq]
      exact TokenStream.mem_significant.2 ⟨by omega, hx, hsig⟩
    rw [← heq] at hasc
    -- in front of the part positions are too small, behind it they are too great
    obtain hmem | hmem := List.mem_append.1 hmem
    · obtain hmem | hmem := List.mem_append.1 hmem
      · have hne' : pre ≠ [] := List.ne_nil_of_mem hmem
        have hle := hasc.left.stop_le_start hne' hne
        have hlt := hasc.left.left.lt_stop hmem
        omega
      · exact hmem
    · have hne' : post ≠ [] := List.ne_nil_of_mem hmem
      have hle := hasc.stop_le_start (by simp [hne]) hne'
      have hge := hasc.right.start_le hmem
      have hstop'' : (Span.around (pre ++ ps)).stop = (Span.around ps).stop := by
        by_cases hpre : pre = []
        · rw [hpre, List.nil_append]
        · rw [Span.around_append hpre hne]
      omega
  · intro hx
    have hmem := TokenStream.mem_significant.1 (h.subset hx)
    exact ⟨(hasc.of_part h).start_le hx, (hasc.of_part h).lt_stop hx, hmem.2⟩

/-! ## The phrases inside a phrase -/

namespace Phrase

/-- The phrases right inside a phrase, in source order. -/
def children (p : Phrase) : List Phrase := p.items.filterMap Item.phrase?

/-- The phrases inside a phrase, and the phrase itself. -/
abbrev Below : Phrase → Phrase → Prop := Relation.ReflTransGen fun p q => q ∈ p.children

theorem mem_children {p q : Phrase} : q ∈ p.children ↔ ∃ nesting, .phrase nesting q ∈ p.items := by
  rw [children, List.mem_filterMap]
  constructor
  · rintro ⟨item, hitem, hq⟩
    cases item with
    | terminal t => simp [Item.phrase?] at hq
    | phrase nesting p =>
      obtain rfl := Option.some.inj hq
      exact ⟨nesting, hitem⟩
  · rintro ⟨nesting, hq⟩
    exact ⟨_, hq, rfl⟩

/-- The span of a phrase is exact: it begins and ends with tokens that the grammar sees, its tokens
are those that the phrase is made of, and the phrases inside it have their spans in it, one behind
the other. -/
structure Exact (tokens : List Token) (p : Phrase) : Prop where
  nonempty : p.span.start < p.span.stop
  stop_le : p.span.stop ≤ tokens.length
  first : ∃ token, tokens[p.span.start]? = some token ∧ token.isSignificant = true
  last : ∃ token, tokens[p.span.stop - 1]? = some token ∧ token.isSignificant = true
  yields : ∃ c, Yields id true c [.same p] (p.span.seen tokens)
  inside : ∀ q ∈ p.children, p.span.start ≤ q.span.start ∧ q.span.stop ≤ p.span.stop
  disjoint : p.children.Pairwise fun q r => q.span.stop ≤ r.span.start

end Phrase

namespace Yields

variable {ρ : Token → Token} {c : Context} {items : List Item} {ps : List Placed} {p q : Phrase}
  {nesting : Nesting}

/-- Every phrase below an item derives a part of the stretch. -/
theorem exists_part (h : Yields ρ true c items ps) (hp : .phrase nesting p ∈ items)
    (hq : p.Below q) : ∃ d qs, qs <:+: ps ∧ Yields ρ true d [.same q] qs := by
  induction h generalizing nesting p with
  | nil => simp at hp
  | @terminal c t items x ps _ _ ih =>
    obtain ⟨d, qs, hqs, hy⟩ := ih (List.mem_of_ne_of_mem (by simp) hp) hq
    exact ⟨d, qs, hqs.trans (List.suffix_cons x ps).isInfix, hy⟩
  | @phrase c d nesting' p' items ps ps' _ admissible parts span _ ihp ih =>
    obtain hp | hp := List.mem_cons.1 hp
    · obtain ⟨-, rfl⟩ := Item.phrase.inj hp
      obtain rfl | ⟨r, hr, hq⟩ := Relation.ReflTransGen.cases_head hq
      · exact ⟨d, ps, (List.prefix_append ps ps').isInfix, same_iff.2 ⟨admissible, parts, span⟩⟩
      · obtain ⟨nesting'', hr⟩ := Phrase.mem_children.1 hr
        obtain ⟨e, qs, hqs, hy⟩ := ihp hr hq
        exact ⟨e, qs, hqs.trans (List.prefix_append ps ps').isInfix, hy⟩
    · obtain ⟨e, qs, hqs, hy⟩ := ih hp hq
      exact ⟨e, qs, hqs.trans (List.suffix_append ps ps').isInfix, hy⟩

/-- A phrase among the items has the span of a part of the stretch. -/
theorem span_part (h : Yields ρ true c items ps) (hp : p ∈ items.filterMap Item.phrase?) :
    ∃ qs, qs <:+: ps ∧ qs ≠ [] ∧ p.span = Span.around qs := by
  obtain ⟨item, hitem, hp⟩ := List.mem_filterMap.1 hp
  cases item with
  | terminal t => simp [Item.phrase?] at hp
  | phrase nesting p' =>
    obtain rfl := Option.some.inj hp
    obtain ⟨d, qs, hqs, hy⟩ := h.exists_part hitem .refl
    exact ⟨qs, hqs, hy.ne_nil_of_phrase, hy.span_eq⟩

/-- The spans of the phrases among the items come one behind the other. -/
theorem pairwise_span (h : Yields ρ true c items ps) (hasc : Ascending ps) :
    (items.filterMap Item.phrase?).Pairwise fun p q => p.span.stop ≤ q.span.start := by
  induction h with
  | nil => simp
  | @terminal c t items x ps _ _ ih =>
    exact ih (hasc.of_part (List.suffix_cons x ps).isInfix)
  | @phrase c d nesting p items ps qs _ admissible parts span rest _ ih =>
    change (p :: items.filterMap Item.phrase?).Pairwise _
    refine List.pairwise_cons.2 ⟨fun q hq => ?_, ih hasc.right⟩
    obtain ⟨rs, hrs, hne, hspan⟩ := rest.span_part hq
    have hps : ps ≠ [] := parts.ne_nil (Phrase.items_ne_nil admissible)
    have hqs : qs ≠ [] := fun hqs => hne (List.infix_nil.1 (hqs ▸ hrs))
    have hle := hasc.stop_le_start hps hqs
    have hbound := hasc.right.around_part hrs hne
    rw [span rfl, hspan]
    omega

/-- A phrase that derives a part of what the grammar sees has an exact span. -/
theorem exact_of_part {tokens : List Token} (h : Yields id true c [.same p] ps)
    (hps : ps <:+: TokenStream.significant tokens) : p.Exact tokens := by
  have hne : ps ≠ [] := h.ne_nil_of_phrase
  have hasc := (TokenStream.ascending_significant tokens).of_part hps
  have hspan : p.span = Span.around ps := h.span_eq
  have hhead := TokenStream.mem_significant.1 (hps.subset (List.head_mem hne))
  have hlast := TokenStream.mem_significant.1 (hps.subset (List.getLast_mem hne))
  have hstart := Span.start_around hne
  have hstop := Span.stop_around hne
  have hlen : tokens.findIdx Token.isEnd ≤ tokens.length := List.findIdx_le_length
  obtain ⟨-, parts, -⟩ := same_iff.1 h
  refine ⟨?_, ?_, ?_, ?_, ?_, ?_, ?_⟩
  · rw [hspan]
    exact hasc.start_lt_stop hne
  · rw [hspan, hstop]
    omega
  · rw [hspan, hstart]
    exact ⟨_, hhead.2⟩
  · rw [hspan, hstop]
    exact ⟨_, hlast.2⟩
  · refine ⟨c, ?_⟩
    rw [hspan, Span.seen_around hps hne]
    exact h
  · intro q hq
    obtain ⟨qs, hqs, hqne, hqspan⟩ := parts.span_part hq
    rw [hspan, hqspan]
    exact hasc.around_part hqs hqne
  · exact parts.pairwise_span hasc

end Yields

/-- Every phrase of a query that was read without a diagnostic has an exact span, and the span of
the query has all that the grammar sees. -/
theorem exact_of_isOk {tokens : List Token} {config : Config} (hfits : ∀ t ∈ tokens, t.Fits)
    (hok : (parse tokens config).isOk = true) :
    (parse tokens config).statement.query.span.seen tokens = TokenStream.significant tokens ∧
      ∀ p, (Phrase.query (parse tokens config).statement.query).Below p → p.Exact tokens := by
  obtain ⟨hy, -⟩ := Grammar.derives_statement config hfits (isOk_parse.1 hok)
  have hspan : (parse tokens config).statement.query.span
      = Span.around (TokenStream.significant tokens) := hy.span_eq
  refine ⟨?_, fun p hp => ?_⟩
  · rw [hspan]
    exact Span.seen_around (List.infix_refl _) hy.ne_nil_of_phrase
  · obtain ⟨d, ps, hps, hpy⟩ := hy.exists_part (List.mem_singleton.2 rfl) hp
    exact hpy.exact_of_part hps

end PipeQuery
