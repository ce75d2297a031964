import Mathlib.Data.List.Sort
import PipeQuery.Proofs.Regions

/-!
# The concrete tree of nested regions

`Covers tokens i j regions trees` says what the concrete tree should be: the trees have the tokens
from position `i` up to `j` as leaves, in order, and their nodes are the regions, each one over just
its tokens and around the nodes inside it; a token that is no token of the language has a node of its
own. Regions are given in the order in which their nodes begin, outer ones first.

Where regions are nested, `ConcreteTree.ofRegions` builds such a tree (`covers_ofRegions`). While it is
built, each open node has the trees in front of it, and the trees under the innermost one reach up to
the next token (`Stacked`). `tree_parse` says it of the tree that is built for a text.
-/

namespace PipeQuery

open ConcreteTree

/-- The trees have the tokens from `i` up to `j` as leaves, and the regions as nodes. -/
inductive Covers (tokens : List Token) : Nat → Nat → List Region → List ConcreteTree → Prop
  | nil (i : Nat) : Covers tokens i i [] []
  | leaf {i j : Nat} {token : Token} {rs : List Region} {trees : List ConcreteTree}
    (get : tokens[i]? = some token) (kind : token.kind ≠ .error)
    (rest : Covers tokens (i + 1) j rs trees) : Covers tokens i j rs (.leaf token :: trees)
  | error {i j : Nat} {token : Token} {rs : List Region} {trees : List ConcreteTree}
    (get : tokens[i]? = some token) (kind : token.kind = .error)
    (rest : Covers tokens (i + 1) j rs trees) :
    Covers tokens i j rs (.node .error [.leaf token] :: trees)
  | node {i j k : Nat} {kind : Kind} {rs rs' : List Region} {trees children : List ConcreteTree}
    (lt : i < k) (inside : Covers tokens i k rs children) (rest : Covers tokens k j rs' trees) :
    Covers tokens i j (⟨kind, ⟨i, k⟩⟩ :: (rs ++ rs')) (.node kind children :: trees)

variable {tokens : List Token} {i j k : Nat} {rs rs' : List Region}
  {trees trees' : List ConcreteTree}

namespace Covers

theorem append (h : Covers tokens i j rs trees) (h' : Covers tokens j k rs' trees') :
    Covers tokens i k (rs ++ rs') (trees ++ trees') := by
  induction h with
  | nil => exact h'
  | leaf get kind _ ih => exact .leaf get kind (ih h')
  | error get kind _ ih => exact .error get kind (ih h')
  | node lt inside _ _ ih =>
    rw [List.cons_append, List.cons_append, List.append_assoc]
    exact .node lt inside (ih h')

/-- The tree of a token. -/
theorem tokenTree {token : Token} (h : tokens[i]? = some token) :
    Covers tokens i (i + 1) [] [Builder.tokenTree token] := by
  unfold Builder.tokenTree
  split
  · next hk => exact .error h hk (.nil _)
  · next hk => exact .leaf h hk (.nil _)

theorem le (h : Covers tokens i j rs trees) : i ≤ j := by
  induction h with
  | nil => exact Nat.le_refl _
  | leaf _ _ _ ih | error _ _ _ ih => omega
  | node lt _ _ _ ih => omega

/-- The leaves of the trees are the tokens. -/
theorem leaves_append (h : Covers tokens i j rs trees) :
    tokens.drop i = trees.flatMap leaves ++ tokens.drop j := by
  induction h with
  | nil i => rfl
  | leaf get _ _ ih =>
    obtain ⟨hlt, hget⟩ := List.getElem?_eq_some_iff.1 get
    rw [List.drop_eq_getElem_cons hlt, hget, ih, List.flatMap_cons, leaves_leaf]
    rfl
  | error get _ _ ih =>
    obtain ⟨hlt, hget⟩ := List.getElem?_eq_some_iff.1 get
    rw [List.drop_eq_getElem_cons hlt, hget, ih, List.flatMap_cons, leaves_node]
    rfl
  | node _ _ _ ihi ih =>
    rw [ihi, ih, List.flatMap_cons, leaves_node, List.append_assoc]

end Covers

/-! ## Trees that are being built -/

/-- Each open node begins behind the trees in front of it, and the trees under the innermost one
reach up to a position. -/
inductive Stacked (tokens : List Token) :
    List Opening → Nat → List ConcreteTree → List Region → Prop
  | root {i : Nat} {trees : List ConcreteTree} {rs : List Region}
    (covers : Covers tokens 0 i rs trees.reverse) : Stacked tokens [] i trees rs
  | opening {o : Opening} {openings : List Opening} {start i : Nat}
    {rs rs' : List Region} {trees : List ConcreteTree}
    (outer : Stacked tokens openings start o.before rs) (lt : start < o.stop)
    (covers : Covers tokens start i rs' trees.reverse) :
    Stacked tokens (o :: openings) i trees (rs ++ ⟨o.kind, ⟨start, o.stop⟩⟩ :: rs')

namespace Stacked

variable {openings : List Opening}

/-- A further tree under the innermost open node. -/
theorem add {tree : ConcreteTree} (h : Stacked tokens openings i trees rs)
    (h' : Covers tokens i j rs' [tree]) :
    Stacked tokens openings j (tree :: trees) (rs ++ rs') := by
  cases h with
  | root covers =>
    refine .root ?_
    rw [List.reverse_cons]
    exact covers.append h'
  | opening outer lt covers =>
    rw [List.append_assoc, List.cons_append]
    refine .opening outer lt ?_
    rw [List.reverse_cons]
    exact covers.append h'

/-- Each open node is that of a region that begins in front of the next token. -/
theorem exists_region (h : Stacked tokens openings i trees rs) {o : Opening}
    (ho : o ∈ openings) : ∃ r ∈ rs, r.span.stop = o.stop ∧ r.span.start ≤ i := by
  induction h with
  | root => simp at ho
  | @opening o' openings start i rs rs' trees outer lt covers ih =>
    have hle := covers.le
    rcases List.mem_cons.1 ho with rfl | ho
    · exact ⟨⟨o.kind, ⟨start, o.stop⟩⟩, by simp, rfl, hle⟩
    · obtain ⟨r, hr, hstop, hstart⟩ := ih ho
      exact ⟨r, List.mem_append_left _ hr, hstop, by omega⟩

/-- An open node that ends here is closed. -/
theorem close {o : Opening} (h : Stacked tokens (o :: openings) i trees rs)
    (ho : o.stop = i) :
    Stacked tokens openings i (.node o.kind trees.reverse :: o.before) rs := by
  cases h with
  | @opening _ _ start _ rs rs' _ outer lt covers =>
    have hnode : Covers tokens start i (⟨o.kind, ⟨start, i⟩⟩ :: (rs' ++ []))
        [ConcreteTree.node o.kind trees.reverse] := .node (ho ▸ lt) covers (.nil i)
    rw [List.append_nil] at hnode
    rw [ho]
    exact outer.add hnode

end Stacked

/-! ## Building a tree -/

/-- The state of a tree that is built over nested regions, in front of the token at a position: some
regions have been met, and no open node ends in front of the token. -/
structure Building (tokens : List Token) (regions : List Region) (i : Nat) (b : Builder) :
    Prop where
  /-- The open nodes and the trees. -/
  stacked : ∃ met, regions = met ++ b.pending ∧ Stacked tokens b.openings i b.trees met
  /-- No region that has not been met begins in front of the token. -/
  pending : ∀ r ∈ b.pending, i ≤ r.span.start
  /-- No open node ends in front of the token. -/
  stops : ∀ o ∈ b.openings, i ≤ o.stop
  /-- Inner nodes end no later than outer ones. -/
  nested : b.openings.Pairwise fun o o' => o.stop ≤ o'.stop

/-- The regions are in the order in which they open, and nested. -/
structure Ordered (regions : List Region) : Prop where
  /-- Each region has tokens. -/
  tokens : ∀ r ∈ regions, r.HasTokens
  /-- A region begins no later than those behind it, and has them inside or ends in front of them. -/
  order : regions.Pairwise fun r r' => r.span.start ≤ r'.span.start ∧
    (r'.span.stop ≤ r.span.stop ∨ r.span.stop ≤ r'.span.start)

/-- The open nodes that end here are closed. -/
theorem Stacked.closeAt {openings : List Opening} (h : Stacked tokens openings i trees rs)
    (hstops : ∀ o ∈ openings, i ≤ o.stop)
    (hnested : openings.Pairwise fun o o' => o.stop ≤ o'.stop) :
    Stacked tokens (Builder.closeAt i openings trees).1 i (Builder.closeAt i openings trees).2 rs ∧
      (∀ o ∈ (Builder.closeAt i openings trees).1, i < o.stop) ∧
      (Builder.closeAt i openings trees).1.Pairwise fun o o' => o.stop ≤ o'.stop := by
  induction openings generalizing trees with
  | nil => exact ⟨h, by simp [Builder.closeAt], hnested⟩
  | cons o openings ih =>
    have hle := hstops o (List.mem_cons_self ..)
    rw [Builder.closeAt]
    split
    · next hstop =>
      have hclosed := h.close (Nat.le_antisymm hstop hle)
      exact ih hclosed (fun o' ho' => hstops o' (List.mem_cons_of_mem _ ho'))
        (List.pairwise_cons.1 hnested).2
    · next hstop =>
      refine ⟨h, fun o' ho' => ?_, hnested⟩
      rcases List.mem_cons.1 ho' with rfl | ho'
      · omega
      · have hle' := (List.pairwise_cons.1 hnested).1 o' ho'
        omega

/-- A region that begins at a position lies inside the open nodes. -/
theorem Ordered.stop_le {regions met pending : List Region} {openings : List Opening} {r : Region}
    (h : Ordered regions) (hmet : regions = met ++ r :: pending)
    (hs : Stacked tokens openings r.span.start trees met)
    (hstops : ∀ o ∈ openings, r.span.start < o.stop) : ∀ o ∈ openings, r.span.stop ≤ o.stop := by
  intro o ho
  obtain ⟨r', hr', hstop, -⟩ := hs.exists_region ho
  have horder := h.order
  rw [hmet] at horder
  obtain ⟨-, hinside⟩ := (List.pairwise_append.1 horder).2.2 r' hr' r (List.mem_cons_self ..)
  have hlt := hstops o ho
  rcases hinside with hinside | hfront
  · omega
  · omega

/-- The regions that begin here are opened, and none is left out. -/
theorem Building.openAt {regions : List Region} (hr : Ordered regions) {b : Builder}
    {pending met : List Region} (hmet : regions = met ++ pending)
    (hstacked : Stacked tokens b.openings i b.trees met)
    (hpending : ∀ r ∈ pending, i ≤ r.span.start) (hstops : ∀ o ∈ b.openings, i < o.stop)
    (hnested : b.openings.Pairwise fun o o' => o.stop ≤ o'.stop) :
    Building tokens regions i (Builder.openAt i pending b) ∧
      (∀ r ∈ (Builder.openAt i pending b).pending, i < r.span.start) ∧
      ∀ o ∈ (Builder.openAt i pending b).openings, i < o.stop := by
  induction pending generalizing b met with
  | nil =>
    have hbuilding : Building tokens regions i { b with pending := [] } :=
      ⟨⟨met, hmet, hstacked⟩, by simp, fun o ho => Nat.le_of_lt (hstops o ho), hnested⟩
    exact ⟨hbuilding, by simp [Builder.openAt], hstops⟩
  | cons r pending ih =>
    have hle := hpending r (List.mem_cons_self ..)
    rw [Builder.openAt, if_neg (by omega)]
    split
    · next hstart =>
      have htokens : r.HasTokens := hr.tokens r (by rw [hmet]; simp)
      have hinside := hr.stop_le hmet (hstart ▸ hstacked) (hstart ▸ hstops)
      have hlt : i < r.span.stop := hstart ▸ htokens
      have hmet' : regions = (met ++ [r]) ++ pending := by rw [hmet, List.append_assoc]; rfl
      have hregion : (⟨r.kind, ⟨i, r.span.stop⟩⟩ : Region) = r := by rw [← hstart]
      have hopened : Stacked tokens (⟨r.kind, r.span.stop, b.trees⟩ :: b.openings) i []
          (met ++ ⟨r.kind, ⟨i, r.span.stop⟩⟩ :: []) := .opening hstacked hlt (.nil i)
      rw [hregion] at hopened
      refine ih hmet' hopened (fun r' hr' => hpending r' (List.mem_cons_of_mem _ hr')) ?_ ?_
      · intro o ho
        rcases List.mem_cons.1 ho with rfl | ho
        · exact hlt
        · exact hstops o ho
      · exact List.pairwise_cons.2 ⟨hinside, hnested⟩
    · next hstart =>
      have hfront : ∀ r' ∈ r :: pending, i < r'.span.start := by
        intro r' hr'
        rcases List.mem_cons.1 hr' with rfl | hr'
        · omega
        · have horder := hr.order
          rw [hmet] at horder
          have hpair := (List.pairwise_append.1 horder).2.1
          have hle' := ((List.pairwise_cons.1 hpair).1 r' hr').1
          omega
      exact ⟨⟨⟨met, hmet, hstacked⟩, hpending, fun o ho => Nat.le_of_lt (hstops o ho), hnested⟩,
        hfront, hstops⟩

/-- Taking down a token that overlaps others leaves the tree as it is. -/
theorem checkToken_eq (token : Token) (b : Builder) :
    ∃ textEnd events, Builder.checkToken token b = { b with textEnd := textEnd, events := events } := by
  unfold Builder.checkToken
  split
  · exact ⟨token.stop, b.events, rfl⟩
  · exact ⟨b.textEnd, _, rfl⟩

theorem Building.add {regions : List Region} (hr : Ordered regions) {b : Builder} {token : Token}
    (h : Building tokens regions i b) (hget : tokens[i]? = some token) :
    Building tokens regions (i + 1) (b.add i token) := by
  obtain ⟨met, hmet, hstacked⟩ := h.stacked
  obtain ⟨hclosed, hstops, hnested⟩ := hstacked.closeAt h.stops h.nested
  let closed : Builder := { b with
    openings := (Builder.closeAt i b.openings b.trees).1
    trees := (Builder.closeAt i b.openings b.trees).2 }
  obtain ⟨hopened, hpending, hstops⟩ :=
    Building.openAt hr (b := closed) hmet hclosed h.pending hstops hnested
  obtain ⟨met', hmet', hstacked'⟩ := hopened.stacked
  have hadded := hstacked'.add (Covers.tokenTree hget)
  rw [List.append_nil] at hadded
  obtain ⟨textEnd, events, hcheck⟩ := checkToken_eq token (Builder.openAt i b.pending closed)
  change Building tokens regions (i + 1)
    { Builder.checkToken token (Builder.openAt i b.pending closed) with
      trees := Builder.tokenTree token
        :: (Builder.checkToken token (Builder.openAt i b.pending closed)).trees }
  rw [hcheck]
  exact ⟨⟨met', hmet', hadded⟩, hpending, hstops, hopened.nested⟩

/-- Adding the rest of the tokens. -/
theorem Building.addAll {regions : List Region} (hr : Ordered regions) {b : Builder}
    {rest : List Token} (h : Building tokens regions i b) (hi : i ≤ tokens.length)
    (hrest : tokens.drop i = rest) :
    Building tokens regions tokens.length (b.addAll i rest) := by
  induction rest generalizing b i with
  | nil =>
    have hle := List.drop_eq_nil_iff.1 hrest
    rwa [Nat.le_antisymm hi hle] at h
  | cons token rest ih =>
    have hget : tokens[i]? = some token := by
      rw [← Nat.add_zero i, ← List.getElem?_drop, hrest]
      rfl
    obtain ⟨hlt, -⟩ := List.getElem?_eq_some_iff.1 hget
    have hdrop : tokens.drop (i + 1) = rest := by
      rw [← List.drop_drop, hrest]
      rfl
    rw [Builder.addAll]
    exact ih (h.add hr hget) hlt hdrop

/-- Closing all the nodes. -/
theorem Stacked.closeAll {openings : List Opening} (h : Stacked tokens openings i trees rs)
    (hstops : ∀ o ∈ openings, o.stop = i) :
    Covers tokens 0 i rs (Builder.closeAll openings trees).reverse := by
  induction openings generalizing trees with
  | nil =>
    cases h with
    | root covers => exact covers
  | cons o openings ih =>
    rw [Builder.closeAll]
    exact ih (h.close (hstops o (List.mem_cons_self ..)))
      fun o' ho' => hstops o' (List.mem_cons_of_mem _ ho')

/-- The tree over nested regions has the regions as nodes and all the tokens as leaves. -/
theorem covers_ofRegions {regions : List Region} (hr : Ordered (openingOrder regions))
    (hrange : ∀ r ∈ openingOrder regions, r.span.stop ≤ tokens.length) :
    ∃ trees, (ofRegions tokens regions).1 = .node .statement trees ∧
      Covers tokens 0 tokens.length (openingOrder regions) trees := by
  have hstart : Building tokens (openingOrder regions) 0 (Builder.start regions) :=
    ⟨⟨[], rfl, .root (.nil 0)⟩, fun _ _ => Nat.zero_le _, by simp [Builder.start], .nil⟩
  have hend := hstart.addAll hr (Nat.zero_le _) rfl
  obtain ⟨met, hmet, hstacked⟩ := hend.stacked
  -- regions that begin at the end of the text would have no tokens
  have hpending : ((Builder.start regions).addAll 0 tokens).pending = [] := by
    refine List.eq_nil_iff_forall_not_mem.2 fun r hmem => ?_
    have hall : r ∈ openingOrder regions := by
      rw [hmet]
      exact List.mem_append_right _ hmem
    have htokens : r.span.start < r.span.stop := hr.tokens r hall
    have hle := hrange r hall
    have hge := hend.pending r hmem
    omega
  have hall : openingOrder regions = met := by
    rw [hmet]
    exact (congrArg (met ++ ·) hpending).trans (List.append_nil met)
  refine ⟨_, rfl, ?_⟩
  rw [hall]
  refine hstacked.closeAll fun o ho => ?_
  obtain ⟨r, hmem, hstop, -⟩ := hstacked.exists_region ho
  have hle := hrange r (hall ▸ hmem)
  have hge := hend.stops o ho
  omega

/-! ## The order of regions -/

theorem opensBefore_iff {r r' : Region} :
    opensBefore r r' = true ↔ r.span.start < r'.span.start ∨
      r.span.start = r'.span.start ∧ r'.span.stop ≤ r.span.stop := by
  simp [opensBefore]

theorem perm_openingOrder (regions : List Region) :
    (openingOrder regions).Perm (regions.filter (!·.span.isEmpty)) := List.mergeSort_perm ..

theorem pairwise_openingOrder (regions : List Region) :
    (openingOrder regions).Pairwise fun r r' => opensBefore r r' = true := by
  refine List.pairwise_mergeSort (fun r r' r'' h h' => ?_) (fun r r' => ?_) _
  · rw [opensBefore_iff] at h h' ⊢
    omega
  · rw [Bool.or_eq_true, opensBefore_iff, opensBefore_iff]
    omega

theorem hasTokens_of_mem {regions : List Region} {r : Region}
    (h : r ∈ regions.filter (!·.span.isEmpty)) : r.HasTokens := by
  have hr := (List.mem_filter.1 h).2
  simpa [Span.isEmpty, Region.HasTokens] using hr

/-- Regions that are apart are nested in the order in which they open. -/
theorem ordered_openingOrder {regions : List Region}
    (h : (regions.filter (!·.span.isEmpty)).Pairwise Region.Apart) :
    Ordered (openingOrder regions) := by
  have hperm := perm_openingOrder regions
  have hapart : (openingOrder regions).Pairwise Region.Apart :=
    (hperm.pairwise_iff fun h => h.symm).2 h
  have hopens := pairwise_openingOrder regions
  refine ⟨fun r hr => hasTokens_of_mem (hperm.mem_iff.1 hr), ?_⟩
  refine (List.pairwise_and_iff.2 ⟨hapart, hopens⟩).imp_of_mem fun {r r'} hr hr' hboth => ?_
  obtain ⟨⟨hne, hapart⟩, hopens⟩ := hboth
  have ht : r.span.start < r.span.stop := hasTokens_of_mem (hperm.mem_iff.1 hr)
  have ht' : r'.span.start < r'.span.stop := hasTokens_of_mem (hperm.mem_iff.1 hr')
  rw [opensBefore_iff] at hopens
  have hne : r.span.start ≠ r'.span.start ∨ r.span.stop ≠ r'.span.stop := by
    by_cases hstart : r.span.start = r'.span.start
    · exact .inr fun hstop => hne (Span.ext hstart hstop)
    · exact .inl hstart
  unfold Span.Inside at hapart
  omega

/-! ## The tree of a text -/

/-- The regions that have tokens, of those that are laid down where tokens are read, in the order in
which they are laid down. -/
def laidDown (tokens : List Token) (config : Config) : List Region :=
  (Grammar.statement config.maxDepth (.start config tokens)).2.regions.toList.filter
    (!·.span.isEmpty)

theorem laid_laidDown (tokens : List Token) (config : Config) :
    (∀ r ∈ laidDown tokens config, r.span.start < r.span.stop ∧ r.span.stop ≤ tokens.length) ∧
      (laidDown tokens config).Pairwise Region.Apart := by
  obtain ⟨hlaid, -⟩ := Grammar.laid_statement tokens config
  constructor
  · intro r hr
    have ht := hasTokens_of_mem hr
    obtain ⟨hne, -, hstop⟩ := hlaid.inside r (List.mem_filter.1 hr).1 ht
    have hlast := TokenStream.mem_significant.1 (List.getLast_mem hne)
    have haround := Span.stop_around hne
    obtain ⟨hlt, -⟩ := List.getElem?_eq_some_iff.1 hlast.2.1
    exact ⟨ht, by omega⟩
  · refine List.pairwise_filter.2 (hlaid.apart.imp fun h hr hr' => h ?_ ?_)
    · simpa [Span.isEmpty, Region.HasTokens] using hr
    · simpa [Span.isEmpty, Region.HasTokens] using hr'

theorem covers_parse (tokens : List Token) (config : Config) :
    ∃ regions trees, regions.Perm (laidDown tokens config) ∧
      (parse tokens config).tree = .node .statement trees ∧
      Covers tokens 0 tokens.length regions trees := by
  obtain ⟨hrange, hapart⟩ := laid_laidDown tokens config
  obtain ⟨trees, htree, hcovers⟩ := covers_ofRegions (ordered_openingOrder hapart)
    fun r hr => (hrange r ((perm_openingOrder _).mem_iff.1 hr)).2
  exact ⟨_, trees, perm_openingOrder _, htree, hcovers⟩

/-- The regions that have tokens are in range, and any two of them are apart. The concrete tree has
them as nodes, each one over just its tokens, and all the tokens as leaves. Whatever the grammar sees
is in a region, but for pipes. -/
theorem tree_parse (tokens : List Token) (config : Config) :
    (∀ r ∈ laidDown tokens config, r.span.start < r.span.stop ∧ r.span.stop ≤ tokens.length) ∧
      (laidDown tokens config).Pairwise Region.Apart ∧
      (∃ regions trees, regions.Perm (laidDown tokens config) ∧
        (parse tokens config).tree = .node .statement trees ∧
        Covers tokens 0 tokens.length regions trees) ∧
      (parse tokens config).tree.leaves = tokens ∧
      ∀ x ∈ TokenStream.significant tokens,
        (∀ r ∈ laidDown tokens config, ¬ (r.span.start ≤ x.2 ∧ x.2 < r.span.stop)) →
          x.1.kind = .pipe := by
  obtain ⟨hrange, hapart⟩ := laid_laidDown tokens config
  obtain ⟨regions, trees, hperm, htree, hcovers⟩ := covers_parse tokens config
  refine ⟨hrange, hapart, ⟨regions, trees, hperm, htree, hcovers⟩, ?_, fun x hx hout => ?_⟩
  · have hleaves := hcovers.leaves_append
    rw [List.drop_length, List.append_nil, List.drop_zero] at hleaves
    rw [htree, leaves_node, hleaves]
  · rcases (Grammar.laid_statement tokens config).2 x hx with hk | ⟨r, hr, hstart, hstop⟩
    · exact hk
    · have hmem : r ∈ laidDown tokens config := by
        refine List.mem_filter.2 ⟨hr, ?_⟩
        simp only [Span.isEmpty, Bool.not_eq_true', decide_eq_false_iff_not]
        omega
      exact absurd ⟨hstart, hstop⟩ (hout r hmem)

/-- The tokens of `ROW 1|LIMIT`, where a number is missing. -/
def rowOneLimit : List Token :=
  rowOne ++ [⟨.pipe, "|", 5, 6, 1, 5⟩, ⟨.kwLimit, "LIMIT", 6, 11, 1, 6⟩]

theorem tree_parse_rowOneLimit :
    (Token.mk .pipe "|" 5 6 1 5, 3) ∈ TokenStream.significant rowOneLimit ∧
      (∀ r ∈ laidDown rowOneLimit {}, ¬ (r.span.start ≤ 3 ∧ 3 < r.span.stop)) ∧
      (Token.mk .pipe "|" 5 6 1 5).kind = .pipe := by
  have hmem : (Token.mk .pipe "|" 5 6 1 5, 3) ∈ TokenStream.significant rowOneLimit := by decide
  have hout : ∀ r ∈ laidDown rowOneLimit {}, ¬ (r.span.start ≤ 3 ∧ 3 < r.span.stop) := by decide
  exact ⟨hmem, hout, (tree_parse rowOneLimit {}).2.2.2.2 _ hmem hout⟩

end PipeQuery
