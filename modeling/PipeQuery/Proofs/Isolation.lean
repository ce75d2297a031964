import PipeQuery.Proofs.StageRuns

/-!
# Stages do not depend on each other

What a stage is read as, and what is reported in it, depends on the tokens of the stage alone. So
where two texts differ in one stage only, all the other stages are read in the same way, though they
may stand further on (`stageReadings_isolated`).
-/

namespace PipeQuery

open Grammar

/-! ## Pieces of a text -/

namespace TokenStream

/-- What the grammar sees of a piece of a text that begins at position `n`. -/
def significantFrom (n : Nat) (tokens : List Token) : List Placed :=
  ((tokens.takeWhile (!·.isEnd)).zipIdx n).filter (·.1.isSignificant)

theorem significantFrom_cons (n : Nat) (t : Token) (tokens : List Token) :
    significantFrom n (t :: tokens) =
      if t.isEnd then []
      else (if t.isSignificant then [(t, n)] else []) ++ significantFrom (n + 1) tokens := by
  unfold significantFrom
  cases he : t.isEnd <;> cases hs : t.isSignificant <;> simp [he, hs]

theorem significantFrom_append {A : List Token} (hA : ∀ t ∈ A, t.isEnd = false) (n : Nat)
    (C : List Token) :
    significantFrom n (A ++ C) = significantFrom n A ++ significantFrom (n + A.length) C := by
  induction A generalizing n with
  | nil => rfl
  | cons t A ih =>
    have ht := hA t (List.mem_cons_self ..)
    rw [List.cons_append, significantFrom_cons, significantFrom_cons, ht,
      ih (fun t h => hA t (List.mem_cons_of_mem _ h)), List.length_cons, Nat.add_assoc,
      Nat.add_comm 1]
    simp

theorem significantFrom_append_of_end {A : List Token} (hA : ∃ t ∈ A, t.isEnd = true) (n : Nat)
    (C : List Token) : significantFrom n (A ++ C) = significantFrom n A := by
  induction A generalizing n with
  | nil => simp at hA
  | cons t A ih =>
    rw [List.cons_append, significantFrom_cons, significantFrom_cons]
    cases ht : t.isEnd with
    | true => rfl
    | false =>
      have hA : ∃ t ∈ A, t.isEnd = true := by simpa [ht] using hA
      rw [ih hA]

theorem mem_significantFrom {n : Nat} {tokens : List Token} {x : Placed}
    (hx : x ∈ significantFrom n tokens) : n ≤ x.2 ∧ x.2 < n + tokens.length := by
  induction tokens generalizing n with
  | nil => simp [significantFrom] at hx
  | cons t tokens ih =>
    rw [significantFrom_cons] at hx
    rw [List.length_cons]
    split at hx
    · simp at hx
    · rcases List.mem_append.1 hx with h | h
      · obtain rfl : x = (t, n) := by
          split at h <;> simp_all
        dsimp only
        omega
      · have := ih h
        omega

theorem countP_significantFrom {A : List Token} (hA : ∀ t ∈ A, t.isEnd = false) (n : Nat) :
    (significantFrom n A).countP Placed.isBar = A.countP (·.kind == .pipe) := by
  induction A generalizing n with
  | nil => rfl
  | cons t A ih =>
    have ht := hA t (List.mem_cons_self ..)
    have hfirst : (if t.isSignificant then [((t, n) : Placed)] else []).countP Placed.isBar
        = if t.kind == .pipe then 1 else 0 := by
      by_cases hk : t.kind = .pipe
      · simp [Token.isSignificant, Placed.isBar, Kind.isTrivia, hk]
      · split <;> simp [Placed.isBar, hk]
    rw [significantFrom_cons, ht, if_neg (by simp), List.countP_append, hfirst,
      ih fun t h => hA t (List.mem_cons_of_mem _ h), List.countP_cons, Nat.add_comm]

theorem countP_significantFrom_le (n : Nat) (A : List Token) :
    (significantFrom n A).countP Placed.isBar ≤ A.countP (·.kind == .pipe) := by
  have hend (t : Token) (ht : t ∈ A.takeWhile (!·.isEnd)) : t.isEnd = false := by
    simpa using List.mem_takeWhile_imp ht
  have hsame : significantFrom n (A.takeWhile (!·.isEnd)) = significantFrom n A := by
    rw [significantFrom, significantFrom, List.takeWhile_idem]
  rw [← hsame, countP_significantFrom hend]
  exact (List.takeWhile_sublist _).countP_le

section

variable (v : TokenView) {left right : Nat}

theorem isEnd_eq {t t' : Token} (h : v.seen t = v.seen t') : t.isEnd = t'.isEnd := by
  rw [Token.isEnd, Token.isEnd, v.kind_eq h]

/-- The same piece is seen in the same way, up to its place. -/
theorem significantFrom_same {C C' : List Token} (h : C.map v.seen = C'.map v.seen) {n n' : Nat}
    (hn : n + left = n' + right) :
    (significantFrom n C).map (fun x => (v.seen x.1, x.2 + left))
      = (significantFrom n' C').map fun x => (v.seen x.1, x.2 + right) := by
  induction C generalizing C' n n' with
  | nil =>
    obtain rfl : C' = [] := by simpa using h.symm
    rfl
  | cons t C ih =>
    obtain ⟨t', C', rfl, ht, hC⟩ := List.map_eq_cons_iff.1 h.symm
    have hsignificant : t'.isSignificant = t.isSignificant := by
      rw [Token.isSignificant, Token.isSignificant, v.kind_eq ht]
    rw [significantFrom_cons, significantFrom_cons, isEnd_eq v ht, hsignificant]
    split
    · rfl
    · have hnext : n + 1 + left = n' + 1 + right := by omega
      rw [List.map_append, List.map_append, ih hC.symm hnext]
      split
      · simp only [List.map_cons, List.map_nil, ht, hn]
      · rfl

/-- The end of the input in a piece of a text that ends in it. -/
def endOf (C : List Token) : Token := (C.find? Token.isEnd).getD (endAfter C.getLast?)

theorem seen_endOf {C C' : List Token} (h : C.map v.seen = C'.map v.seen) (hC : C ≠ []) :
    v.seen (endOf C) = v.seen (endOf C') := by
  have hfind : (C.find? Token.isEnd).map v.seen = (C'.find? Token.isEnd).map v.seen := by
    induction C generalizing C' with
    | nil => exact absurd rfl hC
    | cons t C ih =>
      obtain ⟨t', C', rfl, ht, hC'⟩ := List.map_eq_cons_iff.1 h.symm
      rw [List.find?_cons, List.find?_cons, isEnd_eq v ht]
      split
      · simp [ht]
      · by_cases hnil : C = []
        · obtain rfl : C' = [] := by simpa [hnil] using hC'
          rw [hnil]
        · exact ih hC'.symm hnil
  have hlast : C.getLast?.map v.seen = C'.getLast?.map v.seen := by
    rw [← List.getLast?_map, ← List.getLast?_map, h]
  have hlastC := List.getLast?_eq_some_getLast hC
  rw [hlastC] at hlast
  obtain ⟨last', hlastC', hseen⟩ := Option.map_eq_some_iff.1 hlast.symm
  unfold endOf
  rw [hlastC, hlastC']
  cases hf : C.find? Token.isEnd with
  | none =>
    have hf' : C'.find? Token.isEnd = none := by simpa [hf] using hfind.symm
    rw [hf']
    exact v.seen_endAfter hseen.symm
  | some t =>
    rw [hf] at hfind
    obtain ⟨t', hf', ht⟩ := Option.map_eq_some_iff.1 hfind.symm
    rw [hf']
    exact ht.symm

theorem findIdx_same {C C' : List Token} (h : C.map v.seen = C'.map v.seen) :
    C.findIdx Token.isEnd = C'.findIdx Token.isEnd := by
  induction C generalizing C' with
  | nil =>
    obtain rfl : C' = [] := by simpa using h.symm
    rfl
  | cons t C ih =>
    obtain ⟨t', C', rfl, ht, hC⟩ := List.map_eq_cons_iff.1 h.symm
    rw [List.findIdx_cons, List.findIdx_cons, isEnd_eq v ht, ih hC.symm]

end

/-- The end of the input is in a piece of the text. -/
theorem endToken_ofTokens {A C B : List Token} (hA : ∀ t ∈ A, t.isEnd = false) (hC : C ≠ [])
    (h : (∃ t ∈ C, t.isEnd = true) ∨ B = []) :
    (ofTokens (A ++ (C ++ B))).endToken = endOf C := by
  have hnone : A.find? Token.isEnd = none := List.find?_eq_none.2 fun t ht => by simp [hA t ht]
  change ((A ++ (C ++ B)).find? Token.isEnd).getD (endAfter (A ++ (C ++ B)).getLast?) = _
  rw [List.find?_append, List.find?_append, hnone, Option.none_or, endOf]
  rcases h with ⟨t, ht, hend⟩ | rfl
  · obtain ⟨e, he⟩ := Option.isSome_iff_exists.1 (List.find?_isSome.2 ⟨t, ht, hend⟩)
    rw [he]
    rfl
  · rw [List.append_nil, List.getLast?_append_of_ne_nil _ hC, List.find?_nil, Option.or_none]

theorem limit_ofTokens {A C B : List Token} (hA : ∀ t ∈ A, t.isEnd = false)
    (h : (∃ t ∈ C, t.isEnd = true) ∨ B = []) :
    (ofTokens (A ++ (C ++ B))).limit = A.length + C.findIdx Token.isEnd := by
  have hA' : A.findIdx Token.isEnd = A.length := List.findIdx_eq_length.2 hA
  change (A ++ (C ++ B)).findIdx Token.isEnd = _
  rw [List.findIdx_append, hA', if_neg (Nat.lt_irrefl _), Nat.add_comm, List.findIdx_append]
  rcases h with ⟨t, ht, hend⟩ | rfl
  · rw [if_pos (List.findIdx_lt_length.2 ⟨t, ht, hend⟩)]
  · split
    · rfl
    · have := @List.findIdx_le_length _ Token.isEnd C
      rw [List.findIdx_nil]
      omega

end TokenStream

/-! ## Texts with a piece in common -/

/-- Two texts with the piece `C` and `C'` in common, behind `A` and `A'`. -/
structure Pieces (v : TokenView) (left right : Nat) (A C A' C' : List Token) : Prop where
  /-- The input does not end in front of the piece. -/
  front : ∀ t ∈ A, t.isEnd = false
  /-- The other input does not end in front of the piece. -/
  front' : ∀ t ∈ A', t.isEnd = false
  /-- The piece is the same in both texts. -/
  same : C.map v.seen = C'.map v.seen
  /-- The piece is moved. -/
  offset : A.length + left = A'.length + right

namespace Pieces

open TokenStream

variable {v : TokenView} {left right : Nat} {A C B A' C' B' : List Token} {ps ps' : List Placed}

/-- Whether the texts end in the piece. -/
def Closed (C B B' : List Token) : Prop := (∃ t ∈ C, t.isEnd = true) ∨ B = [] ∧ B' = []

theorem exists_end (h : Pieces v left right A C A' C') (hend : ∃ t ∈ C, t.isEnd = true) :
    ∃ t ∈ C', t.isEnd = true := by
  rw [← List.findIdx_lt_length] at hend ⊢
  have hlen : C.length = C'.length := by simpa using congrArg List.length h.same
  rwa [← findIdx_same v h.same, ← hlen]

theorem getElem?_text (h : Pieces v left right A C A' C') {i i' : Nat}
    (hi : i + left = i' + right) (hlow : A.length ≤ i) (hhigh : i < A.length + C.length) :
    (A ++ (C ++ B))[i]?.map Token.text = (A' ++ (C' ++ B'))[i']?.map Token.text := by
  have hlen : C.length = C'.length := by simpa using congrArg List.length h.same
  have hoffset := h.offset
  have hindex : i' - A'.length = i - A.length := by omega
  have htexts : C.map Token.text = C'.map Token.text := by
    have htext (D : List Token) : D.map Token.text = (D.map v.seen).map Token.text := by
      rw [List.map_map]
      exact List.map_congr_left fun t _ => (v.text_seen t).symm
    rw [htext C, htext C', h.same]
  rw [List.getElem?_append_right hlow, List.getElem?_append_right (by omega : A'.length ≤ i'),
    List.getElem?_append_left (by omega), List.getElem?_append_left (by omega), hindex,
    ← List.getElem?_map, ← List.getElem?_map, htexts]

/-- What the streams have in common where the next tokens are in the piece. -/
theorem common (h : Pieces v left right A C A' C') {q q' r r' : List Placed}
    {s s' : TokenStream} (hs : (ofTokens (A ++ (C ++ B))).Reads ps s)
    (hs' : (ofTokens (A' ++ (C' ++ B'))).Reads ps' s') (hr : s.rest = q ++ r)
    (hr' : s'.rest = q' ++ r') (hq : ∀ x ∈ q, x ∈ significantFrom A.length C)
    (hsame : q.map (fun x => (v.seen x.1, x.2 + left))
      = q'.map fun x => (v.seen x.1, x.2 + right))
    (hlow : A.length ≤ s.position)
    (hends : (∃ x ∈ q, x.isBar = true) ∨ r = [] ∧ r' = [] ∧ C ≠ [] ∧ Closed C B B')
    (hprev : s.previous.map (· + left) = s'.previous.map (· + right)) :
    Common v left right q q' r r' s s' where
  valid := (valid_ofTokens _).reads hs
  valid' := (valid_ofTokens _).reads hs'
  rest := hr
  rest' := hr'
  same := hsame
  ends := by
    refine hends.imp_right fun ⟨hrnil, hrnil', hC, hclosed⟩ => ⟨hrnil, hrnil', ?_, ?_⟩
    · have hC' : C' ≠ [] := fun hnil => hC (by simpa [hnil] using h.same)
      rw [hs.endToken, hs'.endToken,
        endToken_ofTokens h.front hC (hclosed.imp_right And.left),
        endToken_ofTokens h.front' hC' (hclosed.imp h.exists_end And.right)]
      exact seen_endOf v h.same hC
    · have hoffset := h.offset
      rw [hs.limit, hs'.limit, limit_ofTokens h.front (hclosed.imp_right And.left),
        limit_ofTokens h.front' (hclosed.imp h.exists_end And.right), findIdx_same v h.same]
      omega
  previous := hprev
  texts i i' hi hpos hlimit hhigh := by
    rw [hs.tokens, hs'.tokens]
    refine h.getElem?_text hi (hlow.trans hpos) ?_
    rcases hhigh with hbars | ⟨x, hx, hix⟩
    · rcases hends with ⟨x, hx, hbar⟩ | ⟨-, -, hC, hclosed⟩
      · simp [hbars x hx] at hbar
      · rw [hs.limit, limit_ofTokens h.front (hclosed.imp_right And.left)] at hlimit
        have := @List.findIdx_le_length _ Token.isEnd C
        omega
    · have := mem_significantFrom (hq x hx)
      omega

end Pieces

/-! ## Readings of texts -/

variable {config : Config} {tokens : List Token}

/-- The first token of a text is no `EXPLAIN` if there is none in the text. -/
theorem kind_start_ne (h : ∀ t ∈ tokens, t.kind ≠ .kwExplain) :
    (State.start config tokens).kind ≠ .kwExplain := by
  have hvalid := TokenStream.valid_ofTokens tokens
  have hkind : (State.start config tokens).kind = frontKind (TokenStream.significant tokens) :=
    hvalid.kind_eq
  rw [hkind]
  cases hs : TokenStream.significant tokens with
  | nil => exact fun h => Kind.noConfusion h
  | cons x xs =>
    have hmem : x ∈ TokenStream.significant tokens := hs ▸ List.mem_cons_self ..
    obtain ⟨-, hx, -⟩ := TokenStream.mem_significant.1 hmem
    exact h x.1 (List.mem_of_getElem? hx)

theorem readings_eq (tokens : List Token) (config : Config) :
    stageReadings tokens config = (sourceReading config.maxDepth (.start config tokens)).1 ::
      pipedReadings (expressions config.maxDepth)
        (sourceReading config.maxDepth (.start config tokens)).2.stream.remaining
        (sourceReading config.maxDepth (.start config tokens)).2 := rfl

/-- There is one reading more than there are pipes. -/
theorem length_stageReadings (hr : config.recover = true)
    (hk : (State.start config tokens).kind ≠ .kwExplain) :
    (stageReadings tokens config).length
      = (TokenStream.significant tokens).countP Placed.isBar + 1 := by
  obtain ⟨-, hsettled, hrest⟩ :=
    (State.fresh_start tokens hr).settled_sourceReading config.maxDepth hk
  rw [readings_eq, List.length_cons, length_pipedReadings _ _ hsettled (Nat.le_refl _), hrest,
    countP_dropWhile_isBar]
  rfl

/-- The reading behind a pipe of a text begins right there. -/
theorem getElem?_stageReadings (hr : config.recover = true)
    (hk : (State.start config tokens).kind ≠ .kwExplain) {ps qs : List Placed} {bar : Placed}
    (h : TokenStream.significant tokens = ps ++ bar :: qs) (hbar : bar.isBar = true) :
    ∃ u zs, u.Fresh ∧ u.config = config ∧ (TokenStream.ofTokens tokens).Reads zs u.stream ∧
      u.stream.rest = qs ∧ u.stream.previous = some bar.2 ∧
      (stageReadings tokens config)[ps.countP Placed.isBar + 1]?
        = some (pipedReading (expressions config.maxDepth) u).1 := by
  obtain ⟨hsteps, hsettled, hrest⟩ :=
    (State.fresh_start tokens hr).settled_sourceReading config.maxDepth hk
  have hstart : (State.start config tokens).stream.rest = ps ++ bar :: qs := h
  rw [hstart, dropWhile_append_bar ps hbar] at hrest
  obtain ⟨u, hu, hrestu, hprev, hstepsu, hreading⟩ :=
    getElem?_pipedReadings config.maxDepth _ hsettled (Nat.le_refl _) hrest hbar
  have hall : (State.start config tokens).Steps true u := hsteps.trans hstepsu
  obtain ⟨zs, hzs⟩ := hall.reads
  refine ⟨u, zs, hu, hall.config, hzs, hrestu, hprev, ?_⟩
  rw [readings_eq, List.getElem?_cons_succ, ← countP_dropWhile_isBar]
  exact hreading

theorem exists_bar {l : List Placed} {i : Nat} (h : i < l.countP Placed.isBar) :
    ∃ ps bar qs, l = ps ++ bar :: qs ∧ bar.isBar = true ∧ ps.countP Placed.isBar = i := by
  induction l generalizing i with
  | nil => simp at h
  | cons x l ih =>
    cases hx : x.isBar with
    | false =>
      rw [List.countP_cons_of_neg (by simp [hx])] at h
      obtain ⟨ps, bar, qs, rfl, hbar, hi⟩ := ih h
      exact ⟨x :: ps, bar, qs, rfl, hbar, by rw [List.countP_cons_of_neg (by simp [hx]), hi]⟩
    | true =>
      cases i with
      | zero => exact ⟨[], x, l, rfl, hx, rfl⟩
      | succ i =>
        rw [List.countP_cons_of_pos hx] at h
        obtain ⟨ps, bar, qs, rfl, hbar, hi⟩ := ih (Nat.lt_of_succ_lt_succ h)
        exact ⟨x :: ps, bar, qs, rfl, hbar, by rw [List.countP_cons_of_pos hx, hi]⟩

namespace Pieces

open TokenStream

variable {v : TokenView} {left right : Nat} {A C B A' C' B' : List Token} {R R' : List Placed}

theorem countP_eq {q q' : List Placed} (h : q.map (fun x => (v.seen x.1, x.2 + left))
      = q'.map fun x => (v.seen x.1, x.2 + right)) :
    q.countP Placed.isBar = q'.countP Placed.isBar := by
  have hcount (l : List Placed) (n : Nat) :
      (l.map fun x => ((v.seen x.1, x.2 + n) : Placed)).countP Placed.isBar
        = l.countP Placed.isBar := by
    rw [List.countP_map]
    congr 1
    funext x
    exact Common.isBar_place v n x
  rw [← hcount q left, h, hcount]

/-- A stage that begins and ends in the piece is read in the same way in both texts. -/
theorem getElem?_eq (h : Pieces v left right A C A' C') (hr : config.recover = true)
    (hk : (State.start config (A ++ (C ++ B))).kind ≠ .kwExplain)
    (hk' : (State.start config (A' ++ (C' ++ B'))).kind ≠ .kwExplain)
    (hsig : significant (A ++ (C ++ B))
      = significantFrom 0 A ++ (significantFrom A.length C ++ R))
    (hsig' : significant (A' ++ (C' ++ B'))
      = significantFrom 0 A' ++ (significantFrom A'.length C' ++ R'))
    (hcount : (significantFrom 0 A).countP Placed.isBar
      = (significantFrom 0 A').countP Placed.isBar) {i : Nat}
    (hi : i < (significantFrom A.length C).countP Placed.isBar)
    (hends : i + 1 < (significantFrom A.length C).countP Placed.isBar ∨
      R = [] ∧ R' = [] ∧ Closed C B B') :
    (stageReadings (A ++ (C ++ B)) config)[(significantFrom 0 A).countP Placed.isBar + i + 1]?.map
        (StageReading.moved v.seen left)
      = (stageReadings (A' ++ (C' ++ B')) config)[
          (significantFrom 0 A).countP Placed.isBar + i + 1]?.map
        (StageReading.moved v.seen right) := by
  have hplaces := significantFrom_same v h.same h.offset
  obtain ⟨ps, bar, qs, hC, hbar, rfl⟩ := exists_bar hi
  rw [hC, List.map_append, List.map_cons] at hplaces
  obtain ⟨ps', xs, hC', hps, hxs⟩ := List.map_eq_append_iff.1 hplaces.symm
  obtain ⟨bar', qs', rfl, hbars, hqs⟩ := List.map_eq_cons_iff.1 hxs
  have hbar' : bar'.isBar = true := by
    rw [← Common.isBar_place v right bar', hbars, Common.isBar_place, hbar]
  have hmem (x : Placed) (hx : x ∈ qs) : x ∈ significantFrom A.length C := by
    rw [hC]
    exact List.mem_append_right _ (List.mem_cons_of_mem _ hx)
  have hlow := (mem_significantFrom (x := bar) (by simp [hC] : bar ∈ significantFrom A.length C)).1
  have hsplit : significant (A ++ (C ++ B)) = (significantFrom 0 A ++ ps) ++ bar :: (qs ++ R) := by
    rw [hsig, hC]
    simp
  have hsplit' : significant (A' ++ (C' ++ B'))
      = (significantFrom 0 A' ++ ps') ++ bar' :: (qs' ++ R') := by
    rw [hsig', hC']
    simp
  obtain ⟨u, zs, hu, hconfig, hreads, hrest, hprev, hx⟩ := getElem?_stageReadings hr hk hsplit hbar
  obtain ⟨u', zs', hu', hconfig', hreads', hrest', hprev', hx'⟩ :=
    getElem?_stageReadings hr hk' hsplit' hbar'
  rw [List.countP_append] at hx hx'
  rw [← hcount, countP_eq hps] at hx'
  have hcommon : Common v left right qs qs' R R' u.stream u'.stream := by
    refine h.common hreads hreads' hrest hrest' hmem hqs.symm ?_ ?_ ?_
    · exact hlow.trans (Nat.le_of_lt (hu.valid.previous_lt_position hprev))
    · refine hends.imp (fun hlt => ?_) fun ⟨hR, hR', hclosed⟩ => ⟨hR, hR', ?_, hclosed⟩
      · rw [hC, List.countP_append, List.countP_cons_of_pos hbar] at hlt
        have hpos : 0 < qs.countP Placed.isBar := by omega
        exact List.countP_pos_iff.1 hpos
      · rintro rfl
        simp [significantFrom] at hC
    · rw [hprev, hprev']
      exact congrArg some (congrArg Prod.snd hbars).symm
  rw [hx, hx', Option.map_some, Option.map_some,
    hcommon.pipedReading_eq config.maxDepth hu hu' (hconfig'.trans hconfig.symm)]

/-- What the grammar sees of a text, piece by piece. -/
theorem exists_behind (hA : ∀ t ∈ A, t.isEnd = false) (C B : List Token) :
    ∃ R, significant (A ++ (C ++ B)) = significantFrom 0 A ++ (significantFrom A.length C ++ R) ∧
      ((∃ t ∈ C, t.isEnd = true) ∨ B = [] → R = []) := by
  have hsig : significant (A ++ (C ++ B))
      = significantFrom 0 A ++ significantFrom (0 + A.length) (C ++ B) :=
    significantFrom_append hA 0 (C ++ B)
  rw [Nat.zero_add] at hsig
  by_cases hC : ∃ t ∈ C, t.isEnd = true
  · rw [significantFrom_append_of_end hC] at hsig
    exact ⟨[], by rw [hsig, List.append_nil], fun _ => rfl⟩
  · have hC' (t : Token) (ht : t ∈ C) : t.isEnd = false := by
      cases hend : t.isEnd with
      | false => rfl
      | true => exact absurd ⟨t, ht, hend⟩ hC
    rw [significantFrom_append hC'] at hsig
    refine ⟨_, hsig, ?_⟩
    rintro (h | rfl)
    · exact absurd h hC
    · rfl

/-- The stages in a piece at the beginning of both texts are read in the same way, if they end in
it. -/
theorem getElem?_front (h : Pieces v 0 0 [] C [] C') (hr : config.recover = true)
    (hk : (State.start config (C ++ B)).kind ≠ .kwExplain)
    (hk' : (State.start config (C' ++ B')).kind ≠ .kwExplain) {j : Nat}
    (hj : j < (significantFrom 0 C).countP Placed.isBar ∨ C ≠ [] ∧ Closed C B B') :
    (stageReadings (C ++ B) config)[j]?.map (StageReading.moved v.seen 0)
      = (stageReadings (C' ++ B') config)[j]?.map (StageReading.moved v.seen 0) := by
  obtain ⟨R, hsig, hR⟩ := exists_behind h.front C B
  obtain ⟨R', hsig', hR'⟩ := exists_behind h.front' C' B'
  have hclosed (hc : Closed C B B') : R = [] ∧ R' = [] :=
    ⟨hR (hc.imp_right And.left), hR' (hc.imp h.exists_end And.right)⟩
  have hsame := significantFrom_same v h.same (rfl : 0 + 0 = 0 + 0)
  cases j with
  | zero =>
    have hcommon : Common v 0 0 (significantFrom 0 C) (significantFrom 0 C') R R'
        (ofTokens (C ++ B)) (ofTokens (C' ++ B')) := by
      refine h.common (.refl _) (.refl _) hsig hsig' (fun _ hx => hx) hsame (Nat.zero_le _) ?_ rfl
      rcases hj with hpos | ⟨hne, hc⟩
      · exact .inl (List.countP_pos_iff.1 hpos)
      · exact .inr ⟨(hclosed hc).1, (hclosed hc).2, hne, hc⟩
    have hreading : (sourceReading config.maxDepth (.start config (C ++ B))).1.moved v.seen 0
        = (sourceReading config.maxDepth (.start config (C' ++ B'))).1.moved v.seen 0 :=
      hcommon.sourceReading_eq _ (State.fresh_start _ hr) (State.fresh_start _ hr) rfl hk
    rw [readings_eq, readings_eq, List.getElem?_cons_zero, List.getElem?_cons_zero,
      Option.map_some, Option.map_some, hreading]
  | succ i =>
    by_cases hi : i < (significantFrom 0 C).countP Placed.isBar
    · have heq := h.getElem?_eq hr hk hk' hsig hsig' rfl hi (hj.imp id fun ⟨_, hc⟩ =>
        ⟨(hclosed hc).1, (hclosed hc).2, hc⟩)
      have hzero : (significantFrom 0 ([] : List Token)).countP Placed.isBar + i + 1 = i + 1 := by
        rw [significantFrom]
        simp
      rw [hzero] at heq
      exact heq
    · have hc : Closed C B B' := by
        rcases hj with hlt | ⟨-, hc⟩
        · omega
        · exact hc
      have hsig : significant (C ++ B) = significantFrom 0 C :=
        hsig.trans (by rw [(hclosed hc).1]; exact List.append_nil _)
      have hsig' : significant (C' ++ B') = significantFrom 0 C' :=
        hsig'.trans (by rw [(hclosed hc).2]; exact List.append_nil _)
      have hcount := countP_eq hsame
      have hx : (stageReadings (C ++ B) config)[i + 1]? = none := by
        apply List.getElem?_eq_none
        rw [length_stageReadings hr hk, hsig]
        omega
      have hy : (stageReadings (C' ++ B') config)[i + 1]? = none := by
        apply List.getElem?_eq_none
        rw [length_stageReadings hr hk', hsig']
        omega
      rw [hx, hy]

/-- The stages that begin in a piece at the end of both texts are read in the same way. -/
theorem getElem?_back (h : Pieces v left right A C A' C') (hr : config.recover = true)
    (hk : (State.start config (A ++ C)).kind ≠ .kwExplain)
    (hk' : (State.start config (A' ++ C')).kind ≠ .kwExplain)
    (hcount : (significantFrom 0 A).countP Placed.isBar
      = (significantFrom 0 A').countP Placed.isBar) {j : Nat}
    (hj : (significantFrom 0 A).countP Placed.isBar < j) :
    (stageReadings (A ++ C) config)[j]?.map (StageReading.moved v.seen left)
      = (stageReadings (A' ++ C') config)[j]?.map (StageReading.moved v.seen right) := by
  obtain ⟨R, hsig, hR⟩ := exists_behind h.front C []
  obtain ⟨R', hsig', hR'⟩ := exists_behind h.front' C' []
  obtain rfl := hR (.inr rfl)
  obtain rfl := hR' (.inr rfl)
  obtain ⟨i, rfl⟩ := Nat.exists_eq_add_of_lt hj
  have hsame := countP_eq (significantFrom_same v h.same h.offset)
  rw [← List.append_nil C] at hk ⊢
  rw [← List.append_nil C'] at hk' ⊢
  by_cases hi : i < (significantFrom A.length C).countP Placed.isBar
  · exact h.getElem?_eq hr hk hk' hsig hsig' hcount hi (.inr ⟨rfl, rfl, .inr ⟨rfl, rfl⟩⟩)
  · have hx : (stageReadings (A ++ (C ++ [])) config)[
        (significantFrom 0 A).countP Placed.isBar + i + 1]? = none := by
      apply List.getElem?_eq_none
      rw [length_stageReadings hr hk, hsig, List.append_nil, List.countP_append]
      omega
    have hy : (stageReadings (A' ++ (C' ++ [])) config)[
        (significantFrom 0 A).countP Placed.isBar + i + 1]? = none := by
      apply List.getElem?_eq_none
      rw [length_stageReadings hr hk', hsig', List.append_nil, List.countP_append]
      omega
    rw [hx, hy]
    rfl

end Pieces

/-! ## Isolation -/

/-- The number of stages of a text: one more than there are pipes in it. -/
theorem length_stageReadings_eq (hr : config.recover = true)
    (hk : ∀ t ∈ tokens, t.kind ≠ .kwExplain) :
    (stageReadings tokens config).length
      = (tokens.takeWhile (!·.isEnd)).countP (·.kind == .pipe) + 1 := by
  have hend (t : Token) (ht : t ∈ tokens.takeWhile (!·.isEnd)) : t.isEnd = false := by
    simpa using List.mem_takeWhile_imp ht
  have hsame : TokenStream.significantFrom 0 (tokens.takeWhile (!·.isEnd))
      = TokenStream.significant tokens := by
    rw [TokenStream.significantFrom, List.takeWhile_idem]
    rfl
  rw [length_stageReadings hr (kind_start_ne hk), ← hsame, TokenStream.countP_significantFrom hend]

/-- The number of pipes in front of the end of the input. -/
def barCount (tokens : List Token) : Nat :=
  (tokens.takeWhile (!·.isEnd)).countP (·.kind == .pipe)

theorem barCount_cons (t : Token) (tokens : List Token) :
    barCount (t :: tokens) =
      if t.isEnd then 0 else barCount tokens + if t.kind == .pipe then 1 else 0 := by
  unfold barCount
  cases h : t.isEnd with
  | true => rw [List.takeWhile_cons_of_neg (by simp [h])]; rfl
  | false => rw [List.takeWhile_cons_of_pos (by simp [h]), List.countP_cons]; rfl

theorem barCount_append (v : TokenView) {pre pre' rest rest' : List Token}
    (hpre : pre.map v.seen = pre'.map v.seen) (hrest : barCount rest = barCount rest') :
    barCount (pre ++ rest) = barCount (pre' ++ rest') := by
  induction pre generalizing pre' with
  | nil =>
    obtain rfl : pre' = [] := by simpa using hpre.symm
    exact hrest
  | cons t pre ih =>
    obtain ⟨t', pre', rfl, ht, hpre⟩ := List.map_eq_cons_iff.1 hpre.symm
    rw [List.cons_append, List.cons_append, barCount_cons, barCount_cons, ih hpre.symm,
      TokenStream.isEnd_eq v ht, v.kind_eq ht]

theorem barCount_append_of_free {mid : List Token}
    (h : ∀ t ∈ mid, t.kind ≠ .pipe ∧ t.kind ≠ .endOfInput) (post : List Token) :
    barCount (mid ++ post) = barCount post := by
  induction mid with
  | nil => rfl
  | cons t mid ih =>
    obtain ⟨hpipe, hend⟩ := h t (List.mem_cons_self ..)
    rw [List.cons_append, barCount_cons, ih fun t ht => h t (List.mem_cons_of_mem _ ht)]
    simp [Token.isEnd, hpipe, hend]

theorem exists_end_or (tokens : List Token) :
    (∃ t ∈ tokens, t.isEnd = true) ∨ ∀ t ∈ tokens, t.isEnd = false := by
  by_cases h : ∃ t ∈ tokens, t.isEnd = true
  · exact .inl h
  · refine .inr fun t ht => ?_
    cases hend : t.isEnd with
    | false => rfl
    | true => exact absurd ⟨t, ht, hend⟩ h

section

variable {v : TokenView} {pre pre' mid mid' post post' : List Token}

/-- Where the input ends in front of the stage, all that is read is in common. -/
theorem isolated_of_end (hr : config.recover = true) (hpre : pre.map v.seen = pre'.map v.seen)
    (hend : ∃ t ∈ pre, t.isEnd = true)
    (hk : (State.start config (pre ++ (mid ++ post))).kind ≠ .kwExplain)
    (hk' : (State.start config (pre' ++ (mid' ++ post'))).kind ≠ .kwExplain) :
    (∀ j : Nat,
      (stageReadings (pre ++ (mid ++ post)) config)[j]?.map (StageReading.moved v.seen 0)
        = (stageReadings (pre' ++ (mid' ++ post')) config)[j]?.map (StageReading.moved v.seen 0)) ∧
      (stageReadings (pre ++ (mid ++ post)) config).length ≤ pre.countP (·.kind == .pipe) + 1 := by
  have hfront : Pieces v 0 0 [] pre [] pre' := ⟨by simp, by simp, hpre, rfl⟩
  have hne : pre ≠ [] := by
    rintro rfl
    simp at hend
  have hsig : TokenStream.significant (pre ++ (mid ++ post)) = TokenStream.significantFrom 0 pre :=
    TokenStream.significantFrom_append_of_end hend 0 (mid ++ post)
  refine ⟨fun (j : Nat) => hfront.getElem?_front hr hk hk' (.inr ⟨hne, .inl hend⟩), ?_⟩
  rw [length_stageReadings hr hk, hsig]
  exact Nat.succ_le_succ (TokenStream.countP_significantFrom_le 0 pre)

/-- Where the input does not end in front of the stage, the stages in front of it and those behind it
are in common. -/
theorem isolated_of_not_end (hr : config.recover = true) (hpre : pre.map v.seen = pre'.map v.seen)
    (hpost : post.map v.seen = post'.map v.seen)
    (hmid : ∀ t ∈ mid ++ mid', t.kind ≠ .pipe ∧ t.kind ≠ .endOfInput)
    (hend : ∀ t ∈ pre, t.isEnd = false)
    (hk : (State.start config (pre ++ (mid ++ post))).kind ≠ .kwExplain)
    (hk' : (State.start config (pre' ++ (mid' ++ post'))).kind ≠ .kwExplain) (j : Nat) :
    (j < pre.countP (·.kind == .pipe) →
        (stageReadings (pre ++ (mid ++ post)) config)[j]?.map (StageReading.moved v.seen 0)
          = (stageReadings (pre' ++ (mid' ++ post')) config)[j]?.map
              (StageReading.moved v.seen 0)) ∧
      (pre.countP (·.kind == .pipe) < j →
        (stageReadings (pre ++ (mid ++ post)) config)[j]?.map (StageReading.moved v.seen mid'.length)
          = (stageReadings (pre' ++ (mid' ++ post')) config)[j]?.map
              (StageReading.moved v.seen mid.length)) := by
  have hlen : pre.length = pre'.length := by simpa using congrArg List.length hpre
  have hfront : Pieces v 0 0 [] pre [] pre' := ⟨by simp, by simp, hpre, rfl⟩
  have hend' (t : Token) (ht : t ∈ pre') : t.isEnd = false := by
    obtain ⟨u, hu, hseen⟩ := List.mem_map.1 (hpre ▸ List.mem_map_of_mem ht)
    rw [← TokenStream.isEnd_eq v hseen, hend u hu]
  have hfree (D E : List Token) (hD : ∀ t ∈ D, t.isEnd = false) (hE : ∀ t ∈ E, t ∈ mid ++ mid') :
      (∀ t ∈ D ++ E, t.isEnd = false) ∧
        (TokenStream.significantFrom 0 (D ++ E)).countP Placed.isBar
          = D.countP (·.kind == .pipe) := by
    have hall (t : Token) (ht : t ∈ D ++ E) : t.isEnd = false := by
      rcases List.mem_append.1 ht with h | h
      · exact hD t h
      · simpa [Token.isEnd] using (hmid t (hE t h)).2
    have hzero : E.countP (·.kind == .pipe) = 0 :=
      List.countP_eq_zero.2 fun t ht => by simpa using (hmid t (hE t ht)).1
    refine ⟨hall, ?_⟩
    rw [TokenStream.countP_significantFrom hall, List.countP_append, hzero, Nat.add_zero]
  have hA := hfree pre mid hend fun t ht => List.mem_append_left _ ht
  have hA' := hfree pre' mid' hend' fun t ht => List.mem_append_right _ ht
  have hbars : pre.countP (·.kind == .pipe) = pre'.countP (·.kind == .pipe) := by
    rw [← TokenStream.countP_significantFrom hend 0, ← TokenStream.countP_significantFrom hend' 0]
    exact Pieces.countP_eq (TokenStream.significantFrom_same v hpre (rfl : 0 + 0 = 0 + 0))
  have hback : Pieces v mid'.length mid.length (pre ++ mid) post (pre' ++ mid') post' := by
    refine ⟨hA.1, hA'.1, hpost, ?_⟩
    rw [List.length_append, List.length_append]
    omega
  constructor
  · intro hj
    refine hfront.getElem?_front hr hk hk' (.inl ?_)
    rwa [TokenStream.countP_significantFrom hend]
  · intro hj
    rw [← List.append_assoc] at hk hk' ⊢
    rw [← List.append_assoc]
    refine hback.getElem?_back hr hk hk' ?_ ?_
    · rw [hA.2, hA'.2, hbars]
    · rwa [hA.2]

end

/-- Where two texts without `EXPLAIN` differ in one stage only, in tokens that neither begin another
stage nor end the input, there are as many stages in both, and every other stage is read as the same
command, up to its place, with the same reports. -/
theorem stageReadings_isolated (v : TokenView) (config : Config) (hr : config.recover = true)
    {pre pre' mid mid' post post' : List Token} (hpre : pre.map v.seen = pre'.map v.seen)
    (hpost : post.map v.seen = post'.map v.seen)
    (hmid : ∀ t ∈ mid ++ mid', t.kind ≠ .pipe ∧ t.kind ≠ .endOfInput)
    (hexplain : ∀ t ∈ (pre ++ mid ++ post) ++ (pre' ++ mid' ++ post'), t.kind ≠ .kwExplain) :
    (parse (pre ++ mid ++ post) config).InStages (stageReadings (pre ++ mid ++ post) config) ∧
      (parse (pre' ++ mid' ++ post') config).InStages
        (stageReadings (pre' ++ mid' ++ post') config) ∧
      (stageReadings (pre ++ mid ++ post) config).length
        = (stageReadings (pre' ++ mid' ++ post') config).length ∧
      ∀ j,
        (j < pre.countP (·.kind == .pipe) →
          (stageReadings (pre ++ mid ++ post) config)[j]?.map (StageReading.moved v.seen 0)
            = (stageReadings (pre' ++ mid' ++ post') config)[j]?.map
                (StageReading.moved v.seen 0)) ∧
        (pre.countP (·.kind == .pipe) < j →
          (stageReadings (pre ++ mid ++ post) config)[j]?.map
              (StageReading.moved v.seen mid'.length)
            = (stageReadings (pre' ++ mid' ++ post') config)[j]?.map
                (StageReading.moved v.seen mid.length)) := by
  have hk : (State.start config (pre ++ (mid ++ post))).kind ≠ .kwExplain :=
    kind_start_ne fun t ht => hexplain t (List.mem_append_left _ (by simpa using ht))
  have hk' : (State.start config (pre' ++ (mid' ++ post'))).kind ≠ .kwExplain :=
    kind_start_ne fun t ht => hexplain t (List.mem_append_right _ (by simpa using ht))
  refine ⟨inStages_parse _ _, inStages_parse _ _, ?_, ?_⟩
  · have hbars : barCount (pre ++ (mid ++ post)) = barCount (pre' ++ (mid' ++ post')) := by
      apply barCount_append v hpre
      rw [barCount_append_of_free fun t ht => hmid t (List.mem_append_left _ ht),
        barCount_append_of_free fun t ht => hmid t (List.mem_append_right _ ht),
        ← List.append_nil post, ← List.append_nil post']
      exact barCount_append v hpost rfl
    rw [length_stageReadings_eq hr fun t ht => hexplain t (List.mem_append_left _ ht),
      length_stageReadings_eq hr fun t ht => hexplain t (List.mem_append_right _ ht),
      List.append_assoc, List.append_assoc]
    exact congrArg (· + 1) hbars
  · intro j
    rw [List.append_assoc, List.append_assoc]
    rcases exists_end_or pre with hend | hend
    · obtain ⟨hsame, hlength⟩ := isolated_of_end hr hpre hend hk hk'
      refine ⟨fun _ => hsame j, fun hj => ?_⟩
      have hx : (stageReadings (pre ++ (mid ++ post)) config)[j]? = none :=
        List.getElem?_eq_none (by omega)
      have hy := hsame j
      rw [hx, Option.map_none, eq_comm, Option.map_eq_none_iff] at hy
      rw [hx, hy]
      rfl
    · exact isolated_of_not_end hr hpre hpost hmid hend hk hk' j

/-- The tokens of `ROW 1 | LIMIT | LIMIT 2`, with a stage that lacks its number. -/
def limitMissing : List Token :=
  Token.onLine 0 [(.kwRow, "ROW"), (.integer, "1"), (.pipe, "|"), (.kwLimit, "LIMIT"),
    (.pipe, "|"), (.kwLimit, "LIMIT"), (.integer, "2")]

/-- The tokens of `ROW 1 | LIMIT 2 | LIMIT 2`. Behind the number all tokens stand further on. -/
def limitGiven : List Token :=
  Token.onLine 0 [(.kwRow, "ROW"), (.integer, "1"), (.pipe, "|"), (.kwLimit, "LIMIT"),
    (.integer, "2"), (.pipe, "|"), (.kwLimit, "LIMIT"), (.integer, "2")]

/-- The last stage is read in the same way in both texts, up to its place in the source. -/
theorem stageReadings_isolated_limitMissing :
    limitMissing.drop 8 ≠ limitGiven.drop 10 ∧
      (stageReadings limitMissing {})[2]?.isSome = true ∧
      (stageReadings limitMissing {})[2]?.map (StageReading.moved TokenView.placeless.seen 4)
        = (stageReadings limitGiven {})[2]?.map
            (StageReading.moved TokenView.placeless.seen 2) := by
  have hpre : (limitMissing.take 6).map TokenView.placeless.seen
      = (limitGiven.take 6).map TokenView.placeless.seen := rfl
  have hpost : (limitMissing.drop 8).map TokenView.placeless.seen
      = (limitGiven.drop 10).map TokenView.placeless.seen := rfl
  have hmid : ∀ t ∈ (limitMissing.drop 6).take 2 ++ (limitGiven.drop 6).take 4,
      t.kind ≠ .pipe ∧ t.kind ≠ .endOfInput := by decide
  have h := stageReadings_isolated .placeless {} rfl hpre hpost hmid (by decide)
  exact ⟨by decide, by decide, (h.2.2.2 2).2 (by decide)⟩

end PipeQuery
