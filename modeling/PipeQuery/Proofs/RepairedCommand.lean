import PipeQuery.Proofs.RepairedCondition
import PipeQuery.Proofs.RuleLanguages
import PipeQuery.Proofs.SoundQuery

/-!
# Commands with repairs

Whatever the rules for commands answer, be there mistakes or not, is derived by the grammar from the
tokens that it was made of. This module shows it for all commands but `EXPLAIN`, whose query may hold
stages that were not read. A place for missing values that is itself missing is left out, together
with the word in front of it.
-/

namespace PipeQuery.Grammar

open Rule

variable {s t : State} {us vs : List Placed} {c : Context}

/-! ## Clauses -/

theorem makes_renameClause : renameClause.Makes s fun a us _ => Builds c (.renameClause a) us := by
  unfold renameClause
  refine .spanned ((makes_plainIdentifier (c := c)).bind fun name us t _ ⟨hname, hplain⟩ =>
    (makes_expect rfl).bind fun _ vs u _ hassign => ?_)
  obtain ⟨x, rfl, hx⟩ := hassign
  have hm : (Terminal.kind .assign).Matches id x.1 := hx
  exact .bind_pure ((makes_qualifiedName (c := c)).mono fun old ws v _ hold span =>
    .of_items hplain (Yields.append hname (.terminal hm hold)))

theorem makes_commandOption :
    commandOption.Makes s fun a us _ => Builds c (.commandOption a) us := by
  unfold commandOption
  refine .spanned ((makes_plainIdentifier (c := c)).bind fun name us t _ ⟨hname, hplain⟩ =>
    (makes_expect rfl).bind fun _ vs u _ hassign => ?_)
  obtain ⟨x, rfl, hx⟩ := hassign
  have hm : (Terminal.kind .assign).Matches id x.1 := hx
  exact .bind_pure ((makes_constant (c := c)).mono fun value ws v _ hvalue span =>
    .of_items hplain (Yields.append hname (.terminal hm hvalue)))

theorem makes_enrichClause : enrichClause.Makes s fun a us _ => Builds c (.enrichClause a) us := by
  unfold enrichClause
  refine .spanned ((makes_assigned? (c := c) names_enrichNames).bind
    fun name us t _ ⟨hname, hkinds⟩ => .bind_pure ((makes_enrichName (c := c)).mono
      fun field vs u _ ⟨hfield, hk⟩ span => .of_items ⟨fun i hi => ?_, hk⟩ (hname.append hfield)))
  exact KindSet.mem_ofList.1 (hkinds i hi)

/-- An optional list is made behind its word. -/
theorem makes_behind_items {α : Type} {r : Rule α} {kind : Kind} {f : α → List Item} {P : α → Prop}
    (hk : kind ≠ .endOfInput)
    (hr : ∀ u, r.Makes u fun a us _ => P a ∧ Yields id false c (f a) us) :
    (behind kind r).Makes s fun o us _ =>
      (∀ a ∈ o, P a) ∧ Yields id false c (o.elim [] fun a => .kind kind :: f a) us := by
  refine (makes_behind hk fun u _ => hr u).mono fun o us t _ ho => ?_
  cases o with
  | some a =>
    obtain ⟨-, x, vs, rfl, hx, hP, ha⟩ := ho
    have hm : (Terminal.kind kind).Matches id x.1 := hx
    exact ⟨by simpa using hP, .terminal hm ha⟩
  | none =>
    obtain rfl : us = [] := ho
    exact ⟨by simp, .nil c⟩

section

variable {inner : Expressions} {n : Nat}

theorem makes_field (hi : inner.Repairs n) (h : t.scope = s.scope) :
    (field inner).Makes t fun f us _ => Builds (s.context n) (.field f) us := by
  unfold field
  refine .spanned ((makes_assigned? (c := s.context n) names_plainNames).bind
    fun name us u hu ⟨hname, hkinds⟩ => .bind_pure ((hi.boolean_of_scope (by decide)
      (hu.scope.trans h)).mono fun e vs v _ ⟨he, _, _⟩ span => .of_items (fun i hi => ?_)
        (hname.append he)))
  exact KindSet.mem_ofList.1 (hkinds i hi)

theorem makes_fields (hi : inner.Repairs n) (h : t.scope = s.scope) :
    (fields inner).Makes t fun fs us _ =>
      fs ≠ [] ∧ Yields id false (s.context n) (Item.list .field fs) us :=
  makes_list fun _ hu => makes_field hi (hu.trans h)

/-- The text of a place for missing values that is taken for granted is none of the two words. -/
theorem ofText?_conjured {expected : KindSet} {token : Token}
    (hk : (Token.conjured expected token).kind = .nullsDirection) :
    NullsOrder.ofText? (Token.conjured expected token).text = none := by
  have htext : (Token.conjured expected token).text
      = "<missing " ++ Kind.nullsDirection.wording ++ ">" := by
    rw [← hk]
    rfl
  rw [htext]
  decide +kernel

/-- The place for missing values, behind its word. One that is missing is left out with its word. -/
theorem makes_nulls : (behind .kwNulls (expect .nullsDirection)).Makes s fun nulls us _ =>
    Yields id false c ((nulls.bind (NullsOrder.ofText? ·.text)).elim [] fun nulls =>
      [.kind .kwNulls, .terminal (.nulls nulls)]) us := by
  have hexpect (u : State) : (expect .nullsDirection).Makes u fun token us _ => ∀ o,
      NullsOrder.ofText? token.text = some o → Yields id false c [.terminal (.nulls o)] us := by
    refine (makes_expectAny_or (KindSet.mem_singleton.2 rfl) (by simp)).mono ?_
    rintro token us t - (⟨hmem, -, x, rfl, rfl⟩ | ⟨rfl, hmem, -, v, rfl⟩) o ho
    · exact .terminal ⟨KindSet.mem_singleton.1 hmem, ho⟩ (.nil c)
    · rw [ofText?_conjured (KindSet.mem_singleton.1 hmem)] at ho
      cases ho
  intro hs nulls t hrun
  obtain ⟨us, hgives, hus⟩ := makes_behind (by decide) (fun u _ => hexpect u) hs nulls t hrun
  have hnone : s.Gives [] t := .of_steps hgives.steps
  cases nulls with
  | none => exact ⟨[], hnone, .nil c⟩
  | some token =>
    obtain ⟨-, x, vs, rfl, hx, hvs⟩ := hus
    cases ho : NullsOrder.ofText? token.text with
    | none => exact ⟨[], hnone, by simp [ho]⟩
    | some o =>
      have hm : (Terminal.kind .kwNulls).Matches id x.1 := hx
      simp only [Option.bind_some, ho]
      exact ⟨_, hgives, .terminal hm (hvs o ho)⟩

theorem makes_sortKey (hi : inner.Repairs n) (h : t.scope = s.scope) :
    (sortKey inner).Makes t fun k us _ => Builds (s.context n) (.sortKey k) us := by
  unfold sortKey
  refine .spanned ((hi.boolean_of_scope (by decide) h).bind fun e us u _ ⟨he, _, _⟩ =>
    (makes_accept (by decide)).bind fun order vs v _ horder => ?_)
  have hordery : Yields id false (s.context n)
      ((order.map (SortOrder.ofText ·.text)).elim [] fun order => [.terminal (.order order)]) vs := by
    cases order with
    | some token =>
      obtain ⟨hk, -, -, x, rfl, rfl⟩ := horder
      exact .terminal ⟨hk, rfl⟩ (.nil _)
    | none =>
      obtain rfl : vs = [] := horder
      exact .nil _
  exact .bind_pure ((makes_nulls (c := s.context n)).mono fun nulls ws w _ hnulls span =>
    .of_items trivial (Yields.append he (hordery.append hnulls)))

/-! ## Processing commands -/

/-- The grouping of `STATS`, behind its aggregates. -/
theorem makes_stats (aggregates : Option (List Field)) (hne : aggregates ≠ some [])
    (hus : Yields id false c (aggregates.elim [] (Item.list .field)) us) :
    (do return .stats aggregates (← behind .kwBy qualifiedNames) : Rule ProcessingClause).Makes s
      fun a vs _ => IsClause false c .kwStats a (us ++ vs) :=
  .bind_pure ((makes_behind_items (c := c) (by decide) fun _ => makes_qualifiedNames).mono
    fun grouping vs t _ ⟨hgrouping, hvs⟩ => .of_items
      ⟨hne, fun h => hgrouping [] h rfl⟩ (fun _ => rfl) (hus.append hvs))

/-- The settings of `DISSECT`, behind its fields and its pattern. -/
theorem makes_dissect {clause : Rule ProcessingClause}
    (hclause : processingClause? inner .kwDissect = some clause) :
    clause.Makes s fun a us _ => IsClause false c .kwDissect a us := by
  obtain rfl := Option.some.inj hclause
  refine (makes_qualifiedNames (c := c)).bind fun names us t _ ⟨hne, hnames⟩ =>
    (makes_string (c := c)).bind fun pattern vs u _ hpattern => .ask_bind ?_
  split
  · exact .bind_pure ((makes_list fun _ _ => makes_commandOption (c := c)).mono
      fun options ws v _ ⟨hone, hoptions⟩ => .of_items ⟨hne, by simpa using hone⟩ (fun _ => rfl)
        (hnames.append (Yields.append hpattern hoptions)))
  · exact .pure (.of_items ⟨hne, by simp⟩ (fun _ => rfl)
      (hnames.append (Yields.append hpattern (.nil c))))

theorem makes_enrich {clause : Rule ProcessingClause}
    (hclause : processingClause? inner .kwEnrich = some clause) :
    clause.Makes s fun a us _ => IsClause false c .kwEnrich a us := by
  obtain rfl := Option.some.inj hclause
  refine (makes_enrichName (c := c)).bind fun policy us t _ ⟨hpolicy, hpk⟩ =>
    (makes_behind_items (c := c) (f := fun name => [.same (.identifier name)]) (by decide)
      fun _ => makes_enrichName.mono fun _ _ _ _ h => ⟨h.2, h.1⟩).bind
        fun matchField vs u _ ⟨hmk, hmatch⟩ => ?_
  exact .bind_pure ((makes_behind_items (c := c) (by decide) fun _ =>
    makes_list fun _ _ => makes_enrichClause).mono fun clauses ws v _ ⟨hck, hclauses⟩ =>
      .of_items ⟨hpk, hmk, fun h => hck [] h rfl⟩ (fun _ => rfl)
        (Yields.append hpolicy (hmatch.append hclauses)))

/-- What stands behind the keyword of a processing command. -/
theorem makes_clause (hi : inner.Repairs n) {kind : Kind} {clause : Rule ProcessingClause}
    (hclause : processingClause? inner kind = some clause) :
    clause.Makes s fun a us _ => IsClause false (s.context n) kind a us := by
  have hnames {f : List QualifiedName → ProcessingClause} {k : Kind}
      (h : ∀ names us, names ≠ [] →
        Yields id false (s.context n) (Item.list .qualifiedName names) us →
          IsClause false (s.context n) k (f names) us) :
      (do return f (← qualifiedNames)).Makes s fun a us _ =>
        IsClause false (s.context n) k a us :=
    .bind_pure ((makes_qualifiedNames (c := s.context n)).mono fun names us _ _ ⟨hne, hy⟩ =>
      h names us hne hy)
  unfold processingClause? at hclause
  split at hclause <;> cases hclause
  · exact .bind_pure ((makes_fields hi rfl).mono fun fs us _ _ ⟨hne, hy⟩ =>
      .of_items hne (fun _ => rfl) hy)
  · exact .bind_pure ((makes_integer (c := s.context n)).mono fun count us _ _ ⟨hy, hk⟩ =>
      .of_items hk (fun _ => rfl) hy)
  · exact hnames fun _ _ hne hy => ⟨hne, _, _, by simp, fun _ => rfl, hy⟩
  · exact hnames fun _ _ hne hy => ⟨hne, _, _, by simp, fun _ => rfl, hy⟩
  · exact .bind_pure ((makes_list fun _ _ => makes_renameClause (c := s.context n)).mono
      fun clauses us _ _ ⟨hne, hy⟩ => .of_items hne (fun _ => rfl) hy)
  · exact hnames fun _ _ hne hy => .of_items hne (fun _ => rfl) hy
  · exact makes_dissect (show processingClause? inner .kwDissect = some _ from rfl)
  · exact (makes_qualifiedNames (c := s.context n)).bind fun names us t _ ⟨hne, hy⟩ =>
      .bind_pure ((makes_string (c := s.context n)).mono fun pattern vs u _ hpattern =>
        .of_items hne (fun _ => rfl) (hy.append hpattern))
  · exact .bind_pure ((makes_list fun _ hu => makes_sortKey hi hu).mono
      fun keys us _ _ ⟨hne, hy⟩ => .of_items hne (fun _ => rfl) hy)
  · refine .ask_bind ?_
    split
    · refine Makes.bind (P := fun aggregates us _ => aggregates ≠ some [] ∧
          Yields id false (s.context n) (aggregates.elim [] (Item.list .field)) us)
        (.map ((makes_fields hi rfl).mono fun fs us _ _ ⟨hne, hy⟩ => ⟨by simpa using hne, hy⟩))
        fun aggregates us t ht ⟨hne, hy⟩ => makes_stats aggregates hne hy
    · exact makes_stats none (by simp) (.nil _)
  · exact .bind_pure (.within ((hi.boolean (by decide) _).mono fun condition us t _ ⟨hy, _, _⟩ =>
      .of_items trivial (fun _ => rfl) (Yields.filter_iff.2 hy)))
  · exact hnames fun _ _ hne hy => .of_items hne (fun _ => rfl) hy
  · exact makes_enrich (show processingClause? inner .kwEnrich = some _ from rfl)

theorem makes_processingCommand (hi : inner.Repairs n) :
    (processingCommand inner).Makes s fun a us _ =>
      s.kind ∈ processingKeywords ∧ Builds (s.context n) (.processingCommand a) us := by
  unfold processingCommand
  refine .spanned ((Makes.change (Q := fun _ us t => us = [] ∧ t.kind = s.kind ∧ t.scope = s.scope)
    (.single (.note s _)) ⟨rfl, rfl, rfl⟩).bind fun _ us t ht hnote => .ask_bind ?_)
  obtain ⟨rfl, hkind, hscope⟩ := hnote
  split
  · next clause hclause =>
    have hk : t.kind ≠ .endOfInput := fun hk => by
      simp [hk, processingClause?] at hclause
    refine (makes_take hk).bind ?_
    rintro keyword us u hu ⟨hkeyword, -, x, rfl, rfl⟩
    refine .bind_pure ((makes_clause hi hclause).mono fun a vs v _ ha span => ?_)
    refine ⟨hkind ▸ mem_processingKeywords hclause, ?_⟩
    obtain ⟨hadm, kinds, items, hkinds, heq, hy⟩ := ha
    rw [State.context_eq (hu.scope.trans hscope)] at hy
    refine .of_items hadm ?_
    change Yields id false (s.context n) (a.items x.1) _
    rw [heq x.1]
    refine .terminal ⟨?_, rfl⟩ hy
    rwa [hkeyword]
  · exact .ask_bind .giveUp

/-! ## Source commands -/

/-- Any source command but `EXPLAIN`. -/
theorem makes_sourceCommand_of_ne {query : Rule Query} (hi : inner.Repairs n)
    (hk : s.kind ≠ .kwExplain) : (sourceCommand inner query).Makes s fun a us _ =>
      s.kind ∈ sourceKeywords ∧ Builds (s.context n) (.sourceCommand a) us := by
  unfold sourceCommand
  refine .spanned ((Makes.change (Q := fun _ us t => us = [] ∧ t.kind = s.kind ∧ t.scope = s.scope)
    (.single (.note s _)) ⟨rfl, rfl, rfl⟩).bind fun _ us t ht hnote => .ask_bind (.ask_bind ?_))
  obtain ⟨rfl, hkind, hscope⟩ := hnote
  rw [← hkind] at hk ⊢
  have keyword (h : t.kind ≠ .endOfInput) : take.Makes t fun token us u =>
      u = t.bump ∧ u.scope = s.scope ∧ ∃ x : Placed, us = [x] ∧ x.1 = token ∧
        (Terminal.kept [t.kind] token).Matches id x.1 := by
    refine (makes_take h).mono ?_
    rintro token us u hu ⟨rfl, rfl, x, rfl, hx⟩
    exact ⟨rfl, hu.scope.trans hscope, x, rfl, hx, hx ▸ List.mem_singleton_self _, by rw [hx]⟩
  split
  · next h => exact absurd h hk
  · next h =>
    rw [h] at keyword ⊢
    refine (keyword (by simp)).bind ?_
    rintro token us u hu ⟨-, hw, x, rfl, rfl, hx⟩
    have hnames : (separated .comma (identifierOf sourceNames)).Makes u fun names us _ =>
        Separated .comma (fun i us => Builds (s.context n) (.identifier i) us ∧ i.IsSource) names us :=
      makes_separated (by decide) fun _ _ => (makes_identifierOf names_sourceNames
        (KindSet.mem_ofList.2 (List.mem_cons_self ..))).mono
          fun _ _ _ _ h => ⟨h.1, KindSet.mem_ofList.1 h.2.1⟩
    refine .bind_pure (hnames.mono fun names vs v _ hsep span => ⟨by decide, ?_⟩)
    exact .of_items ⟨hsep.ne_nil, hsep.forall_mem fun _ _ h => h.2⟩
      (.terminal hx ((Yields.list_iff hsep.ne_nil).2 (hsep.mono fun _ _ h => h.1)))
  · next h =>
    rw [h] at keyword ⊢
    refine (keyword (by simp)).bind ?_
    rintro token us u hu ⟨-, hw, x, rfl, rfl, hx⟩
    exact .bind_pure ((makes_fields hi hw).mono fun fs vs v _ h span =>
      ⟨by decide, .of_items h.1 (.terminal hx h.2)⟩)
  · next h =>
    rw [h] at keyword ⊢
    refine .ask_bind ?_
    split
    · next target htarget =>
      refine (keyword (by simp)).bind ?_
      rintro token us u hu ⟨rfl, hw, x, rfl, rfl, hx⟩
      have hkind : t.bump.kind = target.kind := by
        rw [← ShowTarget.ofKind?_eq_some_iff.1 htarget, State.kindAfter, TokenStream.lookahead_succ]
        rfl
      refine (makes_take (by rw [hkind]; cases target <;> decide)).bind ?_
      rintro shown vs v - ⟨rfl, -, y, rfl, hy⟩
      have hm : (Terminal.kind target.kind).Matches id y.1 := by
        change y.1.kind = target.kind
        rw [hy]
        exact hkind
      exact .pure fun span => ⟨by decide, .of_items trivial (.terminal hx (.terminal hm (.nil _)))⟩
    · exact (Makes.change (Q := fun _ _ _ => True) (.single (.skip t)) trivial).bind
        fun _ _ _ _ _ => .giveUp
  · exact .giveUp

end

end PipeQuery.Grammar
