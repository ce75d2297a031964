import PipeQuery.Proofs.SoundCondition

/-!
# Soundness of queries

Commands and pipelines that are read without a diagnostic are derived by the grammar, up to the
whole statement: `statement_sound`. A stage whose command gives up is never among them, since the
diagnostic stays.
-/

namespace PipeQuery.Grammar

open Rule State

variable {s t : State} {ps qs : List Placed} {c : Context}

/-- The texts of all the tokens fit their kinds. -/
def State.Fits (s : State) : Prop := ∀ token ∈ s.stream.tokens, token.Fits

theorem State.Reads.fits (h : s.Reads ps t) (hs : s.Fits) : t.Fits := by
  intro token ht
  rw [h.stream.tokens] at ht
  exact hs token ht

theorem State.Leads.fits (h : s.Leads t) (hs : s.Fits) : t.Fits := by
  obtain ⟨ps, hps⟩ := h
  exact hps.fits hs

theorem State.Reads.fits_mem (h : s.Reads ps t) (hs : s.Fits) {x : Placed} (hx : x ∈ ps) :
    x.1.Fits := by
  have hmem : x ∈ s.stream.rest := by
    rw [h.rest]
    exact List.mem_append_left _ hx
  have hx := (TokenStream.mem_significant.1 (h.clear.valid.mem_significant hmem)).2.1
  exact hs x.1 (List.mem_of_getElem? hx)

theorem NullsOrder.exists_ofText? {token : Token} (h : token.Fits)
    (hk : token.kind = .nullsDirection) : ∃ o, NullsOrder.ofText? token.text = some o := by
  unfold NullsOrder.ofText?
  obtain hw | hw := h.nulls hk
  · exact ⟨.first, by rw [if_pos hw]⟩
  · by_cases hf : sameWord token.text "first"
    · exact ⟨.first, by rw [if_pos hf]⟩
    · exact ⟨.last, by rw [if_neg hf, if_pos hw]⟩

/-! ## Clauses -/

section

variable {inner : Expressions} [inner.Lawful true] {n : Nat}

theorem Rule.Accepts.derives_field (hi : inner.Sound n) {f : Field}
    (h : (field inner).Accepts s ps f t) : Derives (s.context n) (.field f) ps := by
  unfold field at h
  refine h.derives_spanned fun f hf span => ?_
  obtain ⟨name, u, qs, rs, rfl, hname, hrest⟩ := accepts_bind.1 hf
  obtain ⟨e, he, rfl⟩ := accepts_bind_pure.1 hrest
  obtain ⟨hnamey, hplain⟩ := hname.of_assigned? (c := s.context n) names_plainNames
  obtain ⟨hey, -, -⟩ := hi.boolean (by decide) he
  rw [State.context_eq hname.scope] at hey
  exact ⟨rfl, fun i hmem => KindSet.mem_ofList.1 (hplain i hmem), hnamey.append hey⟩

theorem Rule.Accepts.yields_fields (hi : inner.Sound n) {fs : List Field}
    (h : (fields inner).Accepts s ps fs t) :
    fs ≠ [] ∧ Yields id true (s.context n) (Item.list .field fs) ps := by
  refine yields_list (h.of_separated fun s' ps f t hs' hf => ?_).1
  have hfy := hf.derives_field hi
  rwa [State.context_eq hs'.scope] at hfy

theorem Rule.Accepts.derives_renameClause {a : RenameClause} (h : renameClause.Accepts s ps a t) :
    Derives c (.renameClause a) ps := by
  unfold renameClause at h
  refine h.derives_spanned fun f hf span => ?_
  obtain ⟨name, u, qs, rs, rfl, hname, hrest⟩ := accepts_bind.1 hf
  obtain ⟨token, v, qs', rs, rfl, htoken, hrest⟩ := accepts_bind.1 hrest
  obtain ⟨old, hold, rfl⟩ := accepts_bind_pure.1 hrest
  obtain ⟨hnamey, hplain⟩ := hname.derives_plainIdentifier (c := c)
  obtain ⟨x, rfl, -, hx, -⟩ := htoken.of_expect (by decide)
  have hm : (Terminal.kind .assign).Matches id x.1 := hx
  exact ⟨rfl, hplain, hnamey.append (.terminal hm hold.derives_qualifiedName)⟩

theorem Rule.Accepts.derives_commandOption {a : CommandOption}
    (h : commandOption.Accepts s ps a t) : Derives c (.commandOption a) ps := by
  unfold commandOption at h
  refine h.derives_spanned fun f hf span => ?_
  obtain ⟨name, u, qs, rs, rfl, hname, hrest⟩ := accepts_bind.1 hf
  obtain ⟨token, v, qs', rs, rfl, htoken, hrest⟩ := accepts_bind.1 hrest
  obtain ⟨value, hvalue, rfl⟩ := accepts_bind_pure.1 hrest
  obtain ⟨hnamey, hplain⟩ := hname.derives_plainIdentifier (c := c)
  obtain ⟨x, rfl, -, hx, -⟩ := htoken.of_expect (by decide)
  have hm : (Terminal.kind .assign).Matches id x.1 := hx
  exact ⟨rfl, hplain, hnamey.append (.terminal hm hvalue.derives_constant)⟩

theorem Rule.Accepts.derives_enrichClause {a : EnrichClause}
    (h : enrichClause.Accepts s ps a t) : Derives c (.enrichClause a) ps := by
  unfold enrichClause at h
  refine h.derives_spanned fun f hf span => ?_
  obtain ⟨name, u, qs, rs, rfl, hname, hrest⟩ := accepts_bind.1 hf
  obtain ⟨field, hfield, rfl⟩ := accepts_bind_pure.1 hrest
  obtain ⟨hnamey, hkinds⟩ := hname.of_assigned? (c := c) names_enrichNames
  obtain ⟨hfieldy, hk⟩ := hfield.derives_identifierOf (c := c) names_enrichNames
  exact ⟨rfl, ⟨fun i hmem => KindSet.mem_ofList.1 (hkinds i hmem), KindSet.mem_ofList.1 hk⟩,
    hnamey.append hfieldy⟩

/-- What stands for the direction of a sort key: its word, or nothing. -/
inductive ReadsOrder : Option SortOrder → List Placed → Prop
  | nothing : ReadsOrder none []
  | word {x : Placed} (kind : x.1.kind = .ordering) : ReadsOrder (some (.ofText x.1.text)) [x]

/-- What stands for the place of missing values: `NULLS` and its direction, or nothing. The
direction is a word that need not be known. -/
inductive ReadsNulls : Option NullsOrder → List Placed → Prop
  | nothing : ReadsNulls none []
  | words {x y : Placed} (nulls : x.1.kind = .kwNulls) (direction : y.1.kind = .nullsDirection) :
    ReadsNulls (NullsOrder.ofText? y.1.text) [x, y]

/-- A sort key was read from an expression and the words behind it. -/
theorem Rule.Accepts.of_sortKey (hi : inner.Sound n) {a : SortKey}
    (h : (sortKey inner).Accepts s ps a t) :
    ∃ qs os ns, ps = qs ++ (os ++ ns) ∧
      Yields id true (s.context n) [.deeper (.boolean a.expression)] qs ∧ ReadsOrder a.order os ∧
      ReadsNulls a.nulls ns ∧ a.span = Span.around ps := by
  unfold sortKey at h
  obtain ⟨f, hf, rfl⟩ := accepts_spanned.1 h
  have hspan := hf.reads.spanFrom
  obtain ⟨e, u, qs, rs, rfl, he, hrest⟩ := accepts_bind.1 hf
  obtain ⟨order, v, os, ns, rfl, horder, hrest⟩ := accepts_bind.1 hrest
  obtain ⟨nulls, hnulls, rfl⟩ := accepts_bind_pure.1 hrest
  obtain ⟨hey, -, -⟩ := hi.boolean (by decide) he
  refine ⟨qs, os, ns, rfl, hey, ?_, ?_, hspan (by simp [hey.ne_nil_of_phrase])⟩
  · obtain ⟨x, rfl, rfl, hx, -⟩ | ⟨rfl, rfl, -, -⟩ := horder.of_accept (by decide)
    · exact .word hx
    · exact .nothing
  · obtain ⟨x, qs, token, rfl, rfl, hx, htoken⟩ | ⟨rfl, rfl, -, -⟩ := hnulls.of_behind (by decide)
    · obtain ⟨y, rfl, rfl, hy, -⟩ := htoken.of_expect (by decide)
      exact .words hx hy
    · exact .nothing

theorem Rule.Accepts.derives_sortKey (hi : inner.Sound n) {a : SortKey} (hfits : s.Fits)
    (h : (sortKey inner).Accepts s ps a t) : Derives (s.context n) (.sortKey a) ps := by
  obtain ⟨qs, os, ns, rfl, hey, horder, hnulls, hspan⟩ := h.of_sortKey hi
  have hordery : Yields id true (s.context n)
      (a.order.elim [] fun order => [.terminal (.order order)]) os := by
    generalize a.order = order at horder ⊢
    cases horder with
    | nothing => exact .nil _
    | word kind => exact .terminal ⟨kind, rfl⟩ (.nil _)
  have hnullsy : Yields id true (s.context n)
      (a.nulls.elim [] fun nulls => [.kind .kwNulls, .terminal (.nulls nulls)]) ns := by
    generalize a.nulls = nulls at hnulls ⊢
    cases hnulls with
    | nothing => exact .nil _
    | @words x y hx hy =>
      have hyfits := h.reads.fits_mem hfits (x := y) (by simp)
      obtain ⟨o, ho⟩ := NullsOrder.exists_ofText? hyfits hy
      rw [ho]
      have hm : (Terminal.kind .kwNulls).Matches id x.1 := hx
      exact .terminal hm (.terminal ⟨hy, ho⟩ (.nil _))
  exact Yields.same_iff.2 ⟨trivial, hey.append (hordery.append hnullsy), fun _ => hspan⟩

/-! ## Commands -/

/-- An optional list behind its word. -/
theorem Rule.Accepts.yields_behind {α : Type} {r : Rule α} [Lawful true r] {kind : Kind}
    {a : Option α} {f : α → List Item} (h : (behind kind r).Accepts s ps a t)
    (he : kind ≠ .endOfInput) (hr : ∀ s ps b t, r.Accepts s ps b t → Yields id true c (f b) ps) :
    Yields id true c (a.elim [] fun b => .kind kind :: f b) ps := by
  obtain ⟨x, qs, b, rfl, rfl, hx, hb⟩ | ⟨rfl, rfl, -, -⟩ := h.of_behind he
  · have hm : (Terminal.kind kind).Matches id x.1 := hx
    exact .terminal hm (hr _ _ _ _ hb)
  · exact .nil c

/-- What was read behind a keyword is a clause of a command with that keyword. -/
structure IsClause (exact : Bool) (c : Context) (kind : Kind) (a : ProcessingClause)
    (ps : List Placed) : Prop where
  admissible : a.Admissible
  items : ∃ kinds items, kind ∈ kinds ∧
    (∀ keyword, a.items keyword = .terminal (.kept kinds keyword) :: items) ∧
      Yields id exact c items ps

theorem IsClause.of_items {exact : Bool} {kind : Kind} {a : ProcessingClause} {items : List Item}
    (hadm : a.Admissible) (hitems : ∀ keyword, a.items keyword = .kept kind keyword :: items)
    (hy : Yields id exact c items ps) : IsClause exact c kind a ps :=
  ⟨hadm, [kind], items, by simp, hitems, hy⟩

theorem Rule.Accepts.isClause_sort (hi : inner.Sound n) (hfits : s.Fits) {keys : List SortKey}
    (h : (separated .comma (sortKey inner)).Accepts s ps keys t) :
    IsClause true (s.context n) .kwSort (.sort keys) ps := by
  have hsep := (h.of_separated (D := fun k ps => Derives (s.context n) (.sortKey k) ps)
    fun s' ps k t hs' hk => by
      have hky := hk.derives_sortKey hi (hs'.fits hfits)
      rwa [State.context_eq hs'.scope] at hky).1
  obtain ⟨hne, hy⟩ := yields_list hsep
  exact .of_items hne (fun _ => rfl) hy

/-- The grouping of `STATS`, behind its aggregates. -/
theorem Rule.Accepts.isClause_stats {aggregates : Option (List Field)} {a : ProcessingClause}
    (hne : aggregates ≠ some []) (hy : Yields id true c (aggregates.elim [] (Item.list .field)) qs)
    (h : (do return .stats aggregates (← behind .kwBy qualifiedNames) :
      Rule ProcessingClause).Accepts s ps a t) :
    IsClause true c .kwStats a (qs ++ ps) := by
  obtain ⟨grouping, hgrouping, rfl⟩ := accepts_bind_pure.1 h
  have hgy := hgrouping.yields_behind (c := c) (f := Item.list .qualifiedName) (by decide)
    fun _ _ _ _ h => (Rule.Accepts.yields_qualifiedNames h).2
  refine .of_items ⟨hne, ?_⟩ (fun _ => rfl) (hy.append hgy)
  obtain ⟨_, _, names, -, rfl, -, hnames⟩ | ⟨-, rfl, -, -⟩ := hgrouping.of_behind (by decide)
  · simpa using (hnames.yields_qualifiedNames (c := c)).1
  · simp

omit [inner.Lawful true] in
/-- The settings of `DISSECT`, behind its fields and its pattern. -/
theorem Rule.Accepts.isClause_dissect {clause : Rule ProcessingClause}
    (hclause : processingClause? inner .kwDissect = some clause) {a : ProcessingClause}
    (h : clause.Accepts s ps a t) : IsClause true c .kwDissect a ps := by
  obtain rfl := Option.some.inj hclause
  obtain ⟨names, u, qs, rs, rfl, hnames, hrest⟩ := accepts_bind.1 h
  obtain ⟨pattern, v, qs', rs, rfl, hpattern, hrest⟩ := accepts_bind.1 hrest
  obtain ⟨hne, hy⟩ := hnames.yields_qualifiedNames (c := c)
  have hpy := hpattern.derives_string (c := c)
  rw [accepts_atAny?_bind] at hrest
  split at hrest
  · obtain ⟨options, hoptions, rfl⟩ := accepts_bind_pure.1 hrest
    obtain ⟨hone, hoy⟩ := yields_list (hoptions.of_separated fun _ _ _ _ _ ho =>
      ho.derives_commandOption (c := c)).1
    exact .of_items ⟨hne, by simpa using hone⟩ (fun _ => rfl) (hy.append (hpy.append hoy))
  · obtain ⟨-, rfl, rfl, -⟩ := accepts_pure.1 hrest
    exact .of_items ⟨hne, by simp⟩ (fun _ => rfl) (hy.append (hpy.append (.nil _)))

omit [inner.Lawful true] in
theorem Rule.Accepts.isClause_enrich {clause : Rule ProcessingClause}
    (hclause : processingClause? inner .kwEnrich = some clause) {a : ProcessingClause}
    (h : clause.Accepts s ps a t) : IsClause true c .kwEnrich a ps := by
  obtain rfl := Option.some.inj hclause
  obtain ⟨policy, u, qs, rs, rfl, hpolicy, hrest⟩ := accepts_bind.1 h
  obtain ⟨matchField, v, qs', rs, rfl, hmatch, hrest⟩ := accepts_bind.1 hrest
  obtain ⟨clauses, hclauses, rfl⟩ := accepts_bind_pure.1 hrest
  obtain ⟨hpy, hpk⟩ := hpolicy.derives_identifierOf (c := c) names_enrichNames
  have hname {s t : State} {ps : List Placed} {i : Identifier}
      (h : (identifierOf enrichNames).Accepts s ps i t) :
      Derives c (.identifier i) ps ∧ i.IsEnrich := by
    obtain ⟨hy, hk⟩ := h.derives_identifierOf (c := c) names_enrichNames
    exact ⟨hy, KindSet.mem_ofList.1 hk⟩
  have hlist {s t : State} {ps : List Placed} {cs : List EnrichClause}
      (h : (separated .comma enrichClause).Accepts s ps cs t) :
      cs ≠ [] ∧ Yields id true c (Item.list .enrichClause cs) ps :=
    yields_list (h.of_separated fun _ _ _ _ _ hc => hc.derives_enrichClause).1
  have hmy := hmatch.yields_behind (c := c) (f := fun name => [.same (.identifier name)])
    (by decide) fun _ _ _ _ h => (hname h).1
  have hcy := hclauses.yields_behind (c := c) (f := Item.list .enrichClause) (by decide)
    fun _ _ _ _ h => (hlist h).2
  refine .of_items ⟨KindSet.mem_ofList.1 hpk, ?_, ?_⟩ (fun _ => rfl)
    (Yields.append hpy (hmy.append hcy))
  · obtain ⟨_, _, name, -, rfl, -, hn⟩ | ⟨-, rfl, -, -⟩ := hmatch.of_behind (by decide)
    · simpa using (hname hn).2
    · simp
  · obtain ⟨_, _, cs, -, rfl, -, hcs⟩ | ⟨-, rfl, -, -⟩ := hclauses.of_behind (by decide)
    · simpa using (hlist hcs).1
    · simp

/-- What stands behind the keyword of a processing command. The texts matter in a sort only. -/
theorem Rule.Accepts.isClause (hi : inner.Sound n) {kind : Kind}
    {clause : Rule ProcessingClause} (hclause : processingClause? inner kind = some clause)
    (hfits : kind = .kwSort → s.Fits) {a : ProcessingClause} (h : clause.Accepts s ps a t) :
    IsClause true (s.context n) kind a ps := by
  unfold processingClause? at hclause
  split at hclause <;> cases hclause
  · obtain ⟨fs, hfs, rfl⟩ := accepts_bind_pure.1 h
    obtain ⟨hne, hy⟩ := hfs.yields_fields hi
    exact .of_items hne (fun _ => rfl) hy
  · obtain ⟨count, hcount, rfl⟩ := accepts_bind_pure.1 h
    obtain ⟨hy, hk⟩ := hcount.derives_integer (c := s.context n)
    exact .of_items hk (fun _ => rfl) hy
  · obtain ⟨names, hnames, rfl⟩ := accepts_bind_pure.1 h
    obtain ⟨hne, hy⟩ := hnames.yields_qualifiedNames (c := s.context n)
    exact ⟨hne, _, _, by simp, fun _ => rfl, hy⟩
  · obtain ⟨names, hnames, rfl⟩ := accepts_bind_pure.1 h
    obtain ⟨hne, hy⟩ := hnames.yields_qualifiedNames (c := s.context n)
    exact ⟨hne, _, _, by simp, fun _ => rfl, hy⟩
  · obtain ⟨clauses, hclauses, rfl⟩ := accepts_bind_pure.1 h
    obtain ⟨hne, hy⟩ := yields_list (hclauses.of_separated fun _ _ _ _ _ hc =>
      hc.derives_renameClause (c := s.context n)).1
    exact .of_items hne (fun _ => rfl) hy
  · obtain ⟨names, hnames, rfl⟩ := accepts_bind_pure.1 h
    obtain ⟨hne, hy⟩ := hnames.yields_qualifiedNames (c := s.context n)
    exact .of_items hne (fun _ => rfl) hy
  · exact h.isClause_dissect (show processingClause? inner .kwDissect = some _ from rfl)
  · obtain ⟨names, u, qs, rs, rfl, hnames, hrest⟩ := accepts_bind.1 h
    obtain ⟨pattern, hpattern, rfl⟩ := accepts_bind_pure.1 hrest
    obtain ⟨hne, hy⟩ := hnames.yields_qualifiedNames (c := s.context n)
    exact .of_items hne (fun _ => rfl) (hy.append hpattern.derives_string)
  · obtain ⟨keys, hkeys, rfl⟩ := accepts_bind_pure.1 h
    exact hkeys.isClause_sort hi (hfits rfl)
  · rw [accepts_atAny?_bind] at h
    split at h
    · obtain ⟨aggregates, u, qs, rs, rfl, haggregates, hrest⟩ := accepts_bind.1 h
      obtain ⟨fs, hfs, rfl⟩ := accepts_map.1 haggregates
      obtain ⟨hne, hy⟩ := hfs.yields_fields hi
      have hy : Yields id true (s.context n) ((some fs).elim [] (Item.list .field)) qs := hy
      exact hrest.isClause_stats (by simpa using hne) hy
    · rw [accepts_pure_bind] at h
      exact h.isClause_stats (by simp) (.nil (s.context n))
  · obtain ⟨condition, hcondition, rfl⟩ := accepts_bind_pure.1 h
    obtain ⟨u, hu, rfl⟩ := accepts_within.1 hcondition
    obtain ⟨hcy, -, -⟩ := hi.boolean (by decide) hu
    exact .of_items trivial (fun _ => rfl) (Yields.filter_iff.2 hcy)
  · obtain ⟨names, hnames, rfl⟩ := accepts_bind_pure.1 h
    obtain ⟨hne, hy⟩ := hnames.yields_qualifiedNames (c := s.context n)
    exact .of_items hne (fun _ => rfl) hy
  · exact h.isClause_enrich (show processingClause? inner .kwEnrich = some _ from rfl)

/-- A processing command was read from its keyword and what stands behind it. -/
theorem Rule.Accepts.of_processingCommand {a : ProcessingCommand}
    (h : (processingCommand inner).Accepts s ps a t) :
    ∃ x qs clause b u v, ps = x :: qs ∧ processingClause? inner x.1.kind = some clause ∧
      s.Leads u ∧ clause.Accepts u qs b v ∧ a = .command x.1 b (Span.around ps) := by
  unfold processingCommand at h
  obtain ⟨f, hf, hspan⟩ := accepts_spanned.1 h
  have hps := hf.reads.spanFrom
  obtain ⟨u, v, qs, rs, rfl, hnote, hrest⟩ := hf.of_bind fun noted => .bind fun kind => by
    cases hclause : processingClause? inner kind with
    | none => infer_instance
    | some clause =>
      have := lawful_processingClause inner true hclause
      infer_instance
  obtain ⟨rfl, -, hreads⟩ := hnote.of_change fun hs => hs.reads_note _
  rw [accepts_ask_bind] at hrest
  split at hrest
  · next clause hclause =>
    have := lawful_processingClause inner true hclause
    obtain ⟨token, w, qs, rs, rfl, htoken, hrest⟩ := accepts_bind.1 hrest
    obtain ⟨b, hb, rfl⟩ := accepts_bind_pure.1 hrest
    have hk : v.kind ≠ .endOfInput := fun hk => by
      simp [hk, processingClause?] at hclause
    obtain ⟨x, rfl, rfl, hx, rfl⟩ := htoken.of_take hk
    refine ⟨x, rs, clause, b, _, t, rfl, by rwa [hx], (hreads.trans htoken.reads).leads, hb, ?_⟩
    rw [hspan, hps (by simp)]
  · rw [accepts_ask_bind] at hrest
    exact absurd hrest not_accepts_noViable

theorem Rule.Accepts.derives_processingCommand (hi : inner.Sound n) (hfits : s.Fits)
    {a : ProcessingCommand} (h : (processingCommand inner).Accepts s ps a t) :
    Derives (s.context n) (.processingCommand a) ps := by
  obtain ⟨x, qs, clause, b, u, v, rfl, hclause, hu, hb, rfl⟩ := h.of_processingCommand
  obtain ⟨hadm, kinds, items, hkinds, heq, hy⟩ := hb.isClause hi hclause fun _ => hu.fits hfits
  rw [State.context_eq hu.scope] at hy
  refine Yields.same_iff.2 ⟨hadm, ?_, fun _ => rfl⟩
  change Yields id true (s.context n) (b.items x.1) _
  rw [heq x.1]
  exact .terminal ⟨hkinds, rfl⟩ hy

/-! ## Source commands -/

section

variable {query : Rule Query} [Lawful true query]

/-- Queries one level deeper are derived as such. -/
def QuerySound (query : Rule Query) (n : Nat) : Prop :=
  ∀ s ps q t, s.Fits → query.Accepts s ps q t →
    Yields id true (s.context n) [.deeper (.query q)] ps

/-- A query was read between brackets, one subquery deeper in the same text. -/
theorem Rule.Accepts.of_subquery {q : Query} (h : (subquery query).Accepts s ps q t) :
    ∃ x y qs u v, ps = x :: (qs ++ [y]) ∧ x.1.kind = .leftBracket ∧ y.1.kind = .rightBracket ∧
      u.stream.tokens = s.stream.tokens ∧ u.context n = s.context n ∧ query.Accepts u qs q v := by
  unfold subquery at h
  rw [accepts_ask_bind] at h
  obtain ⟨token, u, qs, rs, rfl, hopen, hrest⟩ := accepts_bind.1 h
  obtain ⟨q', v, qs', rs, rfl, hquery, hrest⟩ := accepts_bind.1 hrest
  obtain ⟨token', w, qs'', rs, rfl, hclose, hrest⟩ := accepts_bind.1 hrest
  obtain ⟨⟨⟩, hchange, rfl⟩ := accepts_bind_pure.1 hrest
  obtain ⟨rfl, -, -⟩ := hchange.of_change fun hs => hs.reads_record _ _
  obtain ⟨x, rfl, -, hx, -⟩ := hopen.of_expect (by decide)
  obtain ⟨y, rfl, -, hy, -⟩ := hclose.of_expect (by decide)
  obtain ⟨w', hw', rfl⟩ := accepts_within.1 hquery
  let inside : State := { u with scope := { u.scope with subqueries := u.scope.subqueries + 1 } }
  have hcontext : inside.context n = s.context n := State.context_eq (s := s) (u := u) hopen.scope n
  exact ⟨x, y, qs', inside, w', by simp, hx, hy, hopen.reads.stream.tokens, hcontext, hw'⟩

theorem Rule.Accepts.yields_subquery (hq : QuerySound query n) (hfits : s.Fits) {q : Query}
    (h : (subquery query).Accepts s ps q t) :
    Yields id true (s.context n) [.kind .leftBracket, .deeper (.query q), .kind .rightBracket] ps := by
  obtain ⟨x, y, qs, u, v, rfl, hx, hy, htokens, hcontext, hquery⟩ := h.of_subquery (n := n)
  have hqy := hq _ _ _ _ (by rwa [State.Fits, htokens]) hquery
  rw [hcontext] at hqy
  have hl : (Terminal.kind .leftBracket).Matches id x.1 := hx
  have hr : (Terminal.kind .rightBracket).Matches id y.1 := hy
  exact .terminal hl (hqy.append (.terminal hr (.nil _)))

omit [Lawful true query] in
/-- A keyword and what stands behind it are a source command. -/
theorem derives_sourceCommand {clause : SourceClause} {items : List Item} {kind : Kind} {x : Placed}
    (hx : x.1.kind = kind) (hadm : clause.Admissible)
    (hitems : clause.items x.1 = .kept kind x.1 :: items) (hy : Yields id true c items qs) :
    Derives c (.sourceCommand (.command x.1 clause (Span.around (x :: qs)))) (x :: qs) := by
  refine Yields.same_iff.2 ⟨hadm, ?_, fun _ => rfl⟩
  change Yields id true c (clause.items x.1) _
  rw [hitems]
  exact .terminal ⟨List.mem_singleton.2 hx, rfl⟩ hy

/-- The names of indices. -/
theorem Rule.Accepts.yields_sourceNames {names : List Identifier}
    (h : (separated .comma (identifierOf sourceNames)).Accepts s ps names t) :
    (names ≠ [] ∧ ∀ i ∈ names, i.IsSource) ∧ Yields id true c (Item.list .identifier names) ps := by
  have hsep := (h.of_separated (D := fun i ps => Derives c (.identifier i) ps ∧ i.IsSource)
    fun _ _ _ _ _ hi => by
      obtain ⟨hy, hk⟩ := hi.derives_identifierOf (c := c) names_sourceNames
      exact ⟨hy, KindSet.mem_ofList.1 hk⟩).1
  obtain ⟨hne, hy⟩ := yields_list (hsep.mono fun _ _ h => h.1)
  exact ⟨⟨hne, hsep.forall_mem fun _ _ h => h.2⟩, hy⟩

/-- A source command is `EXPLAIN` with a query in brackets, or it is derived by the grammar. -/
theorem Rule.Accepts.of_sourceCommand (hi : inner.Sound n) {a : SourceCommand}
    (h : (sourceCommand inner query).Accepts s ps a t) :
    (∃ x qs q u v, ps = x :: qs ∧ x.1.kind = .kwExplain ∧ s.Leads u ∧
        (subquery query).Accepts u qs q v ∧ a = .command x.1 (.explain q) (Span.around ps)) ∨
      Derives (s.context n) (.sourceCommand a) ps := by
  unfold sourceCommand at h
  obtain ⟨f, hf, hspan⟩ := accepts_spanned.1 h
  have hps := hf.reads.spanFrom
  obtain ⟨u, v, qs, rs, rfl, hnote, hrest⟩ := hf.of_bind fun noted => .bind fun start =>
    .bind fun kind => by
      split
      · infer_instance
      · infer_instance
      · infer_instance
      · refine .bind fun next => ?_
        split <;> infer_instance
      · infer_instance
  obtain ⟨rfl, -, hreads⟩ := hnote.of_change fun hs => hs.reads_note _
  rw [accepts_ask_bind, accepts_ask_bind] at hrest
  split at hrest
  · next hk =>
    obtain ⟨token, w, qs, rs, rfl, htoken, hrest⟩ := accepts_bind.1 hrest
    obtain ⟨q, hquery, rfl⟩ := accepts_bind_pure.1 hrest
    obtain ⟨x, rfl, rfl, hx, -⟩ := htoken.of_take (by simp [hk])
    rw [hspan, hps (by simp)]
    exact .inl ⟨x, rs, q, w, t, rfl, hx.trans hk, (hreads.trans htoken.reads).leads, hquery, rfl⟩
  · next hk =>
    obtain ⟨token, w, qs, rs, rfl, htoken, hrest⟩ := accepts_bind.1 hrest
    obtain ⟨names, hnames, rfl⟩ := accepts_bind_pure.1 hrest
    obtain ⟨x, rfl, rfl, hx, -⟩ := htoken.of_take (by simp [hk])
    obtain ⟨hadm, hy⟩ := hnames.yields_sourceNames (c := s.context n)
    rw [hspan, hps (by simp)]
    exact .inr (derives_sourceCommand (hx.trans hk) hadm rfl hy)
  · next hk =>
    obtain ⟨token, w, qs, rs, rfl, htoken, hrest⟩ := accepts_bind.1 hrest
    obtain ⟨fs, hfs, rfl⟩ := accepts_bind_pure.1 hrest
    obtain ⟨x, rfl, rfl, hx, -⟩ := htoken.of_take (by simp [hk])
    obtain ⟨hne, hy⟩ := hfs.yields_fields hi
    rw [State.context_eq (hreads.trans htoken.reads).leads.scope] at hy
    rw [hspan, hps (by simp)]
    exact .inr (derives_sourceCommand (hx.trans hk) hne rfl hy)
  · next hk =>
    rw [accepts_ask_bind] at hrest
    split at hrest
    · next target htarget =>
      obtain ⟨token, w, qs, rs, rfl, htoken, hrest⟩ := accepts_bind.1 hrest
      obtain ⟨token', hshown, rfl⟩ := accepts_bind_pure.1 hrest
      obtain ⟨x, rfl, rfl, hx, -⟩ := htoken.of_take (by simp [hk])
      have hkind : w.kind = target.kind :=
        htoken.reads.kind_eq_kindAfter.trans (ShowTarget.ofKind?_eq_some_iff.1 htarget)
      obtain ⟨y, rfl, -, hy, -⟩ := hshown.of_take (by rw [hkind]; cases target <;> decide)
      have hm : (Terminal.kind target.kind).Matches id y.1 := hy.trans hkind
      rw [hspan, hps (by simp)]
      exact .inr (derives_sourceCommand (hx.trans hk) trivial rfl (.terminal hm (.nil _)))
    · obtain ⟨u, w, qs, rs, rfl, -, hrest⟩ := accepts_bind.1 hrest
      exact absurd hrest not_accepts_noViable
  · exact absurd hrest not_accepts_noViable

theorem Rule.Accepts.derives_sourceCommand (hi : inner.Sound n) (hq : QuerySound query n)
    (hfits : s.Fits) {a : SourceCommand} (h : (sourceCommand inner query).Accepts s ps a t) :
    Derives (s.context n) (.sourceCommand a) ps := by
  obtain ⟨x, qs, q, u, v, rfl, hx, hu, hquery, rfl⟩ | h := h.of_sourceCommand hi
  · have hy := hquery.yields_subquery hq (hu.fits hfits)
    rw [State.context_eq hu.scope] at hy
    have hm : (Terminal.kept [.kwExplain] x.1).Matches id x.1 := ⟨by simp [hx], rfl⟩
    exact Yields.same_iff.2 ⟨trivial, .terminal hm hy, fun _ => rfl⟩
  · exact h

end

/-! ## Stages -/

theorem accepts_total {α : Type} {f : State → α × State} {a : α} :
    (total f).Accepts s ps a t ↔ f s = (a, t) ∧ s.Reads ps t := by
  constructor
  · intro h
    have hrun := h.run
    rw [run_total, Prod.mk.injEq, Option.some.injEq] at hrun
    exact ⟨Prod.ext hrun.1 hrun.2, h.reads⟩
  · rintro ⟨hf, h⟩
    exact ⟨by rw [run_total, hf], h⟩

/-- The first of two runs that report nothing, and the second one. -/
theorem State.Reads.split {u : State} (h : s.Reads ps t) (hsu : s.Steps true u)
    (hut : u.Steps true t) : ∃ qs rs, ps = qs ++ rs ∧ s.Reads qs u ∧ u.Reads rs t := by
  have hu : u.Regular := hsu.regular h.clear.toRegular
  obtain ⟨rs, hrs⟩ := hut.exists_reads hu h.clear'.diagnostics
  obtain ⟨qs, hqs⟩ := hsu.exists_reads h.clear.toRegular hrs.clear.diagnostics
  exact ⟨qs, rs, h.stream.unique (hqs.trans hrs).stream, hqs, hrs⟩

/-- A stage without a diagnostic has read its command. -/
theorem of_stage {α : Type} {r : Rule α} [hl : Lawful true r] {kind : Kind} {span : α → Span}
    {error : Span → α} {a : α} (h : (total (stage r kind span error)).Accepts s ps a t) :
    ∃ u, r.Accepts s ps a u ∧ t = u.record kind (span a) := by
  obtain ⟨hf, hreads⟩ := accepts_total.1 h
  have hblames := hl.blames s hreads.clear.toRegular
  have hsteps := hl.steps s
  obtain ⟨b, u, hrun, hstage⟩ | ⟨u, hrun, hstage⟩ := stage_cases r kind span error s
  · rw [hrun] at hsteps
    obtain ⟨rfl, rfl⟩ := Prod.mk.inj (hstage.symm.trans hf)
    obtain ⟨qs, rs, rfl, hu, hrecord⟩ := hreads.split hsteps (.single (.record rfl _ _ _))
    obtain rfl := hrecord.stream.unique (hrecord.clear.reads_record _ _).stream
    exact ⟨u, ⟨hrun, by rwa [List.append_nil]⟩, rfl⟩
  · rw [hrun] at hblames
    obtain ⟨-, rfl⟩ := Prod.mk.inj (hstage.symm.trans hf)
    have hd := (steps_resync u s.position).diagnostics hreads.clear'.diagnostics
    exact absurd hd (hblames rfl)

/-- A pipeline with one more stage, behind its pipe. -/
theorem derives_pipe {q : Query} {first qs rs : List Placed} {bar : Placed}
    {command : ProcessingCommand} (hq : Derives c (.query q) (first ++ qs)) (hfirst : first ≠ [])
    (hspan : q.sourceCommand.span = Span.around first) (hbar : bar.1.kind = .pipe)
    (hcommand : Derives c (.processingCommand command) rs)
    (hasc : Ascending (first ++ qs ++ bar :: rs)) :
    Derives c (.query (.pipe q bar.1 command)) (first ++ qs ++ bar :: rs) := by
  have hm : (Terminal.kept [.pipe] bar.1).Matches id bar.1 := ⟨by simp [hbar], rfl⟩
  refine Yields.same_iff.2 ⟨trivial, Yields.append hq (.terminal hm hcommand), fun _ => ?_⟩
  have hcspan : command.span = Span.around rs := hcommand.span_eq
  have hasc' : Ascending (first ++ (qs ++ [bar]) ++ rs) := by simpa using hasc
  change q.sourceCommand.span.cover command.span = _
  rw [hspan, hcspan, hasc'.cover_around hfirst hcommand.ne_nil_of_phrase]
  simp

omit [inner.Lawful true] in
theorem stagesUpTo_pipe {m : Nat} {stages : List (Token × ProcessingCommand)}
    (hk : s.kind = .pipe) :
    stagesUpTo inner (m + 1) stages s = stagesUpTo inner m
      ((s.current, (processingStage inner s.bump).1) :: stages) (processingStage inner s.bump).2 := by
  rw [stagesUpTo, if_pos hk]

omit [inner.Lawful true] in
theorem stagesUpTo_boundary {m : Nat} {stages : List (Token × ProcessingCommand)}
    (hk : s.kind ≠ .pipe) (hb : s.atBoundary = true) :
    stagesUpTo inner m stages s = (stages.reverse, s) := by
  cases m with
  | zero => rfl
  | succ m => rw [stagesUpTo, if_neg hk, if_pos hb]

omit [inner.Lawful true] in
theorem stagesUpTo_extraneous {m : Nat} {stages : List (Token × ProcessingCommand)}
    (hk : s.kind ≠ .pipe) (hb : s.atBoundary = false) :
    stagesUpTo inner (m + 1) stages s = stagesUpTo inner m stages s.skipExtraneous := by
  rw [stagesUpTo, if_neg hk, if_neg (by simp [hb])]

theorem steps_processingStage (inner : Expressions) [inner.Lawful true] (s : State) :
    s.Steps true (processingStage inner s).2 :=
  steps_stage (processingCommand inner) _ _ _ s

/-- Where nothing is reported, a command was read behind a pipe. -/
theorem accepts_processingStage {command : ProcessingCommand} (hk : s.kind = .pipe)
    (hst : processingStage inner s.bump = (command, t)) (h : s.Reads ps t) :
    ∃ x qs u v, ps = x :: qs ∧ s.current = x.1 ∧ x.1.kind = .pipe ∧ s.Leads u ∧
      (processingCommand inner).Accepts u qs command v := by
  have hsteps := steps_processingStage inner s.bump
  rw [hst] at hsteps
  obtain ⟨qs, rs, rfl, hbar, hcommand⟩ := h.split (.single (.bump s)) hsteps
  obtain ⟨x, rest, hr, hcur, hxk⟩ := hbar.clear.exists_rest (by simp [hk])
  have hone := hbar.clear.reads_bump
  rw [hr] at hone
  obtain rfl := hbar.stream.unique hone.stream
  obtain ⟨u, hu, -⟩ := of_stage (accepts_total.2 ⟨hst, hcommand⟩)
  exact ⟨x, rs, s.bump, u, rfl, hcur, hxk.symm.trans hk, hbar.leads, hu⟩

/-- What holds of the stages so far, and goes on to hold with each command that is read behind a pipe,
holds of all stages. They are read up to the end of the query. -/
theorem State.Reads.stages_induction
    {motive : List (Token × ProcessingCommand) → List Placed → Prop} {start : State}
    {stages l : List (Token × ProcessingCommand)} {m : Nat} {ps rs : List Placed}
    (step : ∀ {stages ps x qs command u v w}, motive stages ps → start.Reads (ps ++ x :: qs) w →
      x.1.kind = .pipe → start.Leads u → (processingCommand inner).Accepts u qs command v →
      motive (stages ++ [(x.1, command)]) (ps ++ x :: qs))
    (hstart : start.Reads ps s) (hm : motive stages.reverse ps) (hlen : s.stream.remaining ≤ m)
    (hf : stagesUpTo inner m stages s = (l, t)) (h : s.Reads rs t) :
    motive l (ps ++ rs) ∧ t.atBoundary = true ∧ t.kind ≠ .pipe := by
  have boundary {m : Nat} {stages : List (Token × ProcessingCommand)} {s : State}
      {ps rs : List Placed} (hm : motive stages.reverse ps)
      (hf : stagesUpTo inner m stages s = (l, t)) (h : s.Reads rs t) (hk : s.kind ≠ .pipe)
      (hb : s.atBoundary = true) :
      motive l (ps ++ rs) ∧ t.atBoundary = true ∧ t.kind ≠ .pipe := by
    rw [stagesUpTo_boundary hk hb, Prod.mk.injEq] at hf
    obtain ⟨rfl, rfl⟩ := hf
    obtain rfl := h.stream.unique (.refl _)
    rw [List.append_nil]
    exact ⟨hm, hb, hk⟩
  induction m generalizing stages ps rs s with
  | zero =>
    have hr : s.stream.rest = [] := List.length_eq_zero_iff.1 (Nat.le_zero.1 hlen)
    have hk : s.kind = .endOfInput := by rw [h.clear.kind_eq, hr, frontKind_nil]
    exact boundary hm hf h (by simp [hk]) (by simp [State.atBoundary, hk])
  | succ m ih =>
    by_cases hk : s.kind = .pipe
    · cases hst : processingStage inner s.bump with
      | mk command u =>
        rw [stagesUpTo_pipe hk, hst] at hf
        have hsteps := steps_processingStage inner s.bump
        have hsteps' := steps_stagesUpTo inner m ((s.current, command) :: stages) u
        rw [hst] at hsteps
        rw [hf] at hsteps'
        obtain ⟨rs, rs', rfl, hsu, hut⟩ := h.split (.head (.bump s) hsteps) hsteps'
        obtain ⟨x, rs, v, w, rfl, hcur, hx, hv, hcommand⟩ := accepts_processingStage hk hst hsu
        have hstart' := hstart.trans hsu
        have hlen' := hsu.stream.remaining
        rw [List.length_cons] at hlen'
        have hm' := step hm hstart' hx (hstart.leads.trans hv) hcommand
        rw [← hcur, ← List.reverse_cons] at hm'
        have hres := ih hstart' hm' (by omega) hf hut
        simpa using hres
    · cases hb : s.atBoundary with
      | true => exact boundary hm hf h hk hb
      | false =>
        rw [stagesUpTo_extraneous hk hb] at hf
        have hrest := steps_stagesUpTo inner m stages s.skipExtraneous
        rw [hf] at hrest
        obtain ⟨qs', rs', rfl, hextraneous, -⟩ := h.split (steps_skipExtraneous s) hrest
        have hd := (steps_resync (s.blame (.extraneous s.boundaryKinds)) s.position).diagnostics
          hextraneous.clear'.diagnostics
        exact absurd hd (hextraneous.clear.toRegular.diagnostics_report _)

theorem steps_sourceStage (inner : Expressions) [inner.Lawful true] (query : Rule Query)
    [Lawful true query] (s : State) : s.Steps true (sourceStage inner query s).2 :=
  steps_stage (sourceCommand inner query) _ _ _ s

/-- What holds of the first command of a pipeline, and goes on to hold with each command that is read
behind a pipe, holds of a pipeline that is read without a diagnostic. It ends where the query does. -/
theorem State.Reads.pipeline_induction {motive : Query → List Placed → Prop} {query : Rule Query}
    [Lawful true query]
    (first : ∀ {command ps u}, (sourceCommand inner query).Accepts s ps command u →
      motive (.source command) ps)
    (step : ∀ {q ps x qs command u v w}, motive q ps → s.Reads (ps ++ x :: qs) w →
      x.1.kind = .pipe → s.Leads u → (processingCommand inner).Accepts u qs command v →
      motive (.pipe q x.1 command) (ps ++ x :: qs))
    {q : Query} (hf : pipeline inner query s = (q, t)) (h : s.Reads ps t) :
    motive q ps ∧ t.atBoundary = true ∧ t.kind ≠ .pipe := by
  rw [pipeline] at hf
  cases hst : sourceStage inner query s with
  | mk command u =>
    rw [hst] at hf
    cases hl : stagesUpTo inner u.stream.remaining [] u with
    | mk l v =>
      simp only [hl, Prod.mk.injEq] at hf
      obtain ⟨rfl, rfl⟩ := hf
      have hsteps := steps_sourceStage inner query s
      have hsteps' := steps_stagesUpTo inner u.stream.remaining [] u
      rw [hst] at hsteps
      rw [hl] at hsteps'
      obtain ⟨ps, qs, rfl, hsu, huv⟩ := h.split hsteps hsteps'
      obtain ⟨w, hw, -⟩ := of_stage (accepts_total.2 ⟨hst, hsu⟩)
      have hm : motive (Query.ofStages command [].reverse) ps := first hw
      refine hsu.stages_induction (motive := fun stages ps => motive (.ofStages command stages) ps)
        (fun hm hreads hx hu hcommand => ?_) hm (Nat.le_refl _) hl huv
      rw [Query.ofStages_append_singleton]
      exact step hm hreads hx hu hcommand

theorem derives_pipeline {query : Rule Query} [Lawful true query] (hi : inner.Sound n)
    (hq : QuerySound query n) (hfits : s.Fits) {q : Query}
    (hf : pipeline inner query s = (q, t)) (h : s.Reads ps t) :
    Derives (s.context n) (.query q) ps ∧ t.atBoundary = true ∧ t.kind ≠ .pipe := by
  -- the span of a pipeline is taken from its first command
  obtain ⟨⟨first, qs, rfl, -, -, hy⟩, hend⟩ := h.pipeline_induction
    (motive := fun q ps => ∃ first qs, ps = first ++ qs ∧ first ≠ [] ∧
      q.sourceCommand.span = Span.around first ∧ Derives (s.context n) (.query q) ps)
    (fun {command ps u} hcommand => by
      have hy := hcommand.derives_sourceCommand hi hq hfits
      exact ⟨ps, [], by simp, hy.ne_nil_of_phrase, hy.span_eq, hy.alone trivial rfl rfl⟩)
    (fun {q ps x qs command u v w} ⟨first, qs', hps, hne, hspan, hy⟩ hreads hx hu hcommand => by
      subst hps
      have hcy := hcommand.derives_processingCommand hi (hu.fits hfits)
      rw [State.context_eq hu.scope] at hcy
      exact ⟨first, qs' ++ x :: qs, by simp, hne, hspan,
        derives_pipe hy hne hspan hx hcy hreads.ascending⟩) hf
  exact ⟨hy, hend⟩

end

/-! ## Levels -/

/-- Queries are derived by the grammar on all levels of nesting. -/
theorem derives_query {levels : Nat} (hfits : s.Fits) {q : Query}
    (hf : query levels s = (q, t)) (h : s.Reads ps t) :
    Derives (s.context levels) (.query q) ps ∧ t.atBoundary = true ∧ t.kind ≠ .pipe := by
  induction levels generalizing s t ps q with
  | zero =>
    rw [query_zero] at hf
    exact derives_pipeline (expressions_sound 0) (fun _ _ _ _ _ h => absurd h not_accepts_tooDeep)
      hfits hf h
  | succ levels ih =>
    rw [query_succ] at hf
    refine derives_pipeline (expressions_sound (levels + 1)) (fun s ps q t hfits h => ?_) hfits hf h
    obtain ⟨hf, hreads⟩ := accepts_total.1 h
    exact Yields.deeper_succ_iff.2 (ih hfits hf hreads).1

/-- A query that is read without a diagnostic up to the end of a statement has all that the grammar
sees. -/
theorem State.Reads.eq_significant {config : Config} {tokens : List Token}
    (h : (State.start config tokens).Reads ps t) (hb : t.atBoundary = true) (hk : t.kind ≠ .pipe) :
    ps = TokenStream.significant tokens := by
  have hrest : t.stream.rest = [] := h.clear'.toRegular.rest_eq_nil h.scope hb hk
  have hr := h.rest
  rw [hrest, List.append_nil] at hr
  exact hr.symm

/-- A statement that is read without a diagnostic is derived by the grammar: its query yields all
that the grammar sees, and spans are exact. -/
theorem derives_statement (config : Config) {tokens : List Token} (hfits : ∀ t ∈ tokens, t.Fits)
    (h : (statement config.maxDepth (.start config tokens)).2.diagnostics = #[]) :
    Derives ⟨false, config.maxDepth⟩
        (.query (statement config.maxDepth (.start config tokens)).1.query)
        (TokenStream.significant tokens) ∧
      (State.start config tokens).Reads (TokenStream.significant tokens)
        (statement config.maxDepth (.start config tokens)).2 := by
  have hsteps := steps_query config.maxDepth (.start config tokens)
  obtain ⟨ps, hreads⟩ := hsteps.exists_reads (State.regular_start config tokens) h
  obtain ⟨hy, hb, hk⟩ := derives_query (s := .start config tokens) hfits rfl hreads
  obtain rfl := hreads.eq_significant hb hk
  exact ⟨hy, hreads⟩

end PipeQuery.Grammar
