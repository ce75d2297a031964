import PipeQuery.Proofs.Respelled
import PipeQuery.Proofs.Visits

/-!
# Visitors and tokens

A visitor of a text that was read without a diagnostic sees each name once, in the order of the text
and as it is written, and each constant of the tree once, in the order of the text (`visits_parse`).

`Bears tips ps` says that the names and constants of an outline are read off a stretch of tokens, from
left to right. What the grammar derives bears its tips (`Yields.bears`), and that is enough for
expressions and for all commands but `SORT`. A sort may be read without a diagnostic where the word
behind `NULLS` is not one that the grammar knows, so its stretch is followed by hand; no names are
lost there.
-/

namespace PipeQuery

/-! ## Stretches that show tips -/

/-- The tips are read off the stretch, from left to right: a name for each token of a name, and
constants that are made of other tokens. -/
inductive Bears : List Tip → List Placed → Prop
  | nil : Bears [] []
  | other {tips : List Tip} {x : Placed} {ps : List Placed} (token : x.1.kind.isName = false)
    (rest : Bears tips ps) : Bears tips (x :: ps)
  | name {tips : List Tip} {x : Placed} {ps : List Placed} (token : x.1.kind.isName = true)
    (rest : Bears tips ps) :
    Bears (.inl (Identifier.ofToken x.1 (Span.around [x])) :: tips) (x :: ps)
  | constant {tips : List Tip} {c : Constant} {ps qs : List Placed} (nonempty : ps ≠ [])
    (span : c.span = Span.around ps) (tokens : ∀ x ∈ ps, x.1.kind.isName = false)
    (rest : Bears tips qs) : Bears (.inr c :: tips) (ps ++ qs)

namespace Bears

variable {tips tips' : List Tip} {ps qs : List Placed}

theorem others (h : ∀ x ∈ ps, x.1.kind.isName = false) (rest : Bears tips qs) :
    Bears tips (ps ++ qs) := by
  induction ps with
  | nil => exact rest
  | cons x ps ih =>
    exact .other (h x (by simp)) (ih fun y hy => h y (by simp [hy]))

theorem append (h : Bears tips ps) (h' : Bears tips' qs) : Bears (tips ++ tips') (ps ++ qs) := by
  induction h with
  | nil => exact h'
  | other token _ ih => exact .other token ih
  | name token _ ih => exact .name token ih
  | constant nonempty span tokens _ ih =>
    rw [List.append_assoc]
    exact .constant nonempty span tokens ih

/-- The names are those of the tokens. -/
theorem identifiers (h : Bears tips ps) :
    tips.filterMap Sum.getLeft?
      = (ps.filter (·.1.kind.isName)).map fun x => Identifier.ofToken x.1 (Span.around [x]) := by
  induction h with
  | nil => rfl
  | other token _ ih => simpa [token] using ih
  | name token _ ih => simpa [token] using ih
  | constant _ _ tokens _ ih =>
    have hnone := List.filter_eq_nil_iff.2 fun x hx => by simpa using tokens x hx
    rw [List.filter_append, hnone]
    exact ih

/-- Where there are no tips, there are no names. -/
theorem nameless (h : Bears [] ps) : ∀ x ∈ ps, x.1.kind.isName = false := by
  have hnames := h.identifiers
  simpa using hnames.symm

/-- A constant has the span of a part of the stretch. -/
theorem exists_part {c : Constant} (h : Bears tips ps) (hc : c ∈ tips.filterMap Sum.getRight?) :
    ∃ qs, qs <:+: ps ∧ qs ≠ [] ∧ c.span = Span.around qs := by
  induction h with
  | nil => cases hc
  | @other _ x ps _ _ ih | @name _ x ps _ _ ih =>
    obtain ⟨qs, hqs, hne, hspan⟩ := ih (by simpa using hc)
    exact ⟨qs, hqs.trans (List.suffix_cons x ps).isInfix, hne, hspan⟩
  | @constant tips d ps ps' nonempty span _ _ ih =>
    obtain rfl | hc := List.mem_cons.1 (show c ∈ d :: tips.filterMap Sum.getRight? from hc)
    · exact ⟨ps, (List.prefix_append ps ps').isInfix, nonempty, span⟩
    · obtain ⟨qs, hqs, hne, hspan⟩ := ih hc
      exact ⟨qs, hqs.trans (List.suffix_append ps ps').isInfix, hne, hspan⟩

/-- Constants come one behind the other. -/
theorem pairwise_span (h : Bears tips ps) (hasc : Ascending ps) :
    (tips.filterMap Sum.getRight?).Pairwise fun c d => c.span.stop ≤ d.span.start := by
  induction h with
  | nil => exact .nil
  | @other _ x ps _ _ ih | @name _ x ps _ _ ih =>
    exact ih (hasc.of_part (List.suffix_cons x ps).isInfix)
  | @constant tips c ps qs nonempty span _ rest ih =>
    refine List.pairwise_cons.2 ⟨fun d hd => ?_, ih hasc.right⟩
    obtain ⟨rs, hrs, hne, hdspan⟩ := rest.exists_part hd
    have hqs : qs ≠ [] := fun hqs => hne (List.infix_nil.1 (hqs ▸ hrs))
    have hle := hasc.stop_le_start nonempty hqs
    have hbound := hasc.right.around_part hrs hne
    rw [span, hdspan]
    omega

theorem separated {α : Type} {kind : Kind} {phrase : α → Phrase} {as : List α}
    (h : Separated kind (fun a ps => Bears (phrase a).tips ps) as ps) (hk : kind.isName = false) :
    Bears ((as.map phrase).flatMap Phrase.tips) ps := by
  induction h with
  | one first => simpa using first
  | more first separator _ ih =>
    rw [List.map_cons, List.flatMap_cons]
    exact first.append (.other (separator ▸ hk) ih)

end Bears

/-! ## Derivations -/

/-- What the grammar derives bears its tips. -/
theorem Yields.bears {c : Context} {items : List Item} {ps : List Placed}
    (h : Yields id true c items ps) (hi : Item.Each Terminal.Nameless items) :
    Bears ((Item.phrases items).flatMap Phrase.tips) ps := by
  induction h with
  | nil => exact .nil
  | terminal token _ ih =>
    obtain ⟨ht, hi⟩ := Item.each_terminal.1 hi
    exact .other (ht _ token.kind_mem) (ih hi)
  | @phrase c d nesting p items ps qs _ admissible parts span _ ihp ih =>
    rw [Item.phrases_phrase, List.flatMap_cons]
    refine Bears.append ?_ (ih (Item.each_phrase.1 hi))
    cases p with
    | identifier i =>
      obtain ⟨x, rfl, hk, htext⟩ := Yields.singleton_terminal_iff.1 parts
      have hname : x.1.kind.isName = true := hk ▸ admissible.1
      have hi : i = Identifier.ofToken x.1 (Span.around [x]) := by
        have hspan : i.span = Span.around [x] := span rfl
        obtain ⟨raw, quoted, kind, ispan⟩ := i
        obtain ⟨-, hquoted⟩ := admissible
        simp_all [Identifier.ofToken]
      rw [hi]
      exact .name hname .nil
    | constant a =>
      have hparts := ihp (Phrase.nameless_items (by simp))
      rw [← Phrase.children_eq, Phrase.tips_constant_children] at hparts
      have hne := parts.ne_nil (Phrase.items_ne_nil admissible)
      have hshown : Bears [.inr a] (ps ++ []) := .constant hne (span rfl) hparts.nameless .nil
      rwa [List.append_nil] at hshown
    | _ =>
      rw [Phrase.tips_eq_children rfl]
      exact ihp (Phrase.nameless_items (by simp))

theorem Yields.bears_phrase {c : Context} {nesting : Nesting} {p : Phrase} {ps : List Placed}
    (h : Yields id true c [.phrase nesting p] ps) : Bears p.tips ps := by
  simpa using h.bears (by simp)

/-! ## Runs without diagnostics -/

namespace Grammar

open Rule State

section

variable {s t : State} {ps : List Placed} {inner : Expressions} [inner.Lawful true] {n : Nat}

/-- A sort key has the tips of its expression. What stands behind it are words, known or not. -/
theorem Rule.Accepts.bears_sortKey (hi : inner.Sound n) {k : SortKey}
    (h : (sortKey inner).Accepts s ps k t) : Bears (Phrase.sortKey k).tips ps := by
  obtain ⟨qs, os, ns, rfl, hexpression, horder, hnulls, -⟩ := h.of_sortKey hi
  have horder : ∀ x ∈ os, x.1.kind.isName = false := by
    generalize k.order = order at horder
    cases horder with
    | nothing => simp
    | word hx => simp [hx, Kind.isName, Kind.isQuotedIdentifier]
  have hnulls : ∀ x ∈ ns, x.1.kind.isName = false := by
    generalize k.nulls = nulls at hnulls
    cases hnulls with
    | nothing => simp
    | words hx hy => simp [hx, hy, Kind.isName, Kind.isQuotedIdentifier]
  have hwords : Bears [] (os ++ (ns ++ [])) := .others horder (.others hnulls .nil)
  have hkey := hexpression.bears_phrase.append hwords
  rwa [List.append_nil, List.append_nil] at hkey

theorem Rule.Accepts.bears_clause (hi : inner.Sound n) {kind : Kind} {clause : Rule ProcessingClause}
    (hclause : processingClause? inner kind = some clause) {a : ProcessingClause}
    (h : clause.Accepts s ps a t) (keyword : Token) :
    Bears ((Item.phrases (a.items keyword)).flatMap Phrase.tips) ps := by
  by_cases hk : kind = .kwSort
  · subst hk
    obtain rfl := Option.some.inj hclause
    obtain ⟨keys, hkeys, rfl⟩ := accepts_bind_pure.1 h
    have hsep := (hkeys.of_separated fun _ _ _ _ _ hk => hk.bears_sortKey hi).1
    have hbears : Bears ((keys.map Phrase.sortKey).flatMap Phrase.tips) ps :=
      Bears.separated hsep (by decide)
    simpa [ProcessingClause.items] using hbears
  · obtain ⟨-, kinds, items, -, heq, hy⟩ := h.isClause hi hclause fun h => absurd h hk
    have hall := Phrase.nameless_items (p := .processingCommand (.command keyword a default)) (by simp)
    change Item.Each _ (a.items keyword) at hall
    rw [heq] at hall ⊢
    exact hy.bears (Item.each_terminal.1 hall).2

theorem Rule.Accepts.bears_processingCommand (hi : inner.Sound n) {a : ProcessingCommand}
    (h : (processingCommand inner).Accepts s ps a t) :
    Bears (Phrase.processingCommand a).tips ps := by
  obtain ⟨x, qs, clause, b, u, v, rfl, hclause, -, hb, rfl⟩ := h.of_processingCommand
  have hx : x.1.kind.isName = false := by
    unfold processingClause? at hclause
    split at hclause <;> simp_all [Kind.isName, Kind.isQuotedIdentifier]
  rw [Phrase.tips_eq_children rfl]
  exact .other hx (hb.bears_clause hi hclause x.1)

/-- Queries one level deeper bear their tips. -/
def QueryBears (query : Rule Query) : Prop :=
  ∀ s ps q t, query.Accepts s ps q t → Bears (Phrase.query q).tips ps

theorem Rule.Accepts.bears_sourceCommand {query : Rule Query} [Lawful true query]
    (hi : inner.Sound n) (hq : QueryBears query) {a : SourceCommand}
    (h : (sourceCommand inner query).Accepts s ps a t) : Bears (Phrase.sourceCommand a).tips ps := by
  obtain ⟨x, qs, q, u, v, rfl, hx, -, hsub, rfl⟩ | h := h.of_sourceCommand hi
  · obtain ⟨y, z, rs, u, v, rfl, hy, hz, -, -, hquery⟩ := hsub.of_subquery (n := n)
    have hopen : y.1.kind.isName = false := by rw [hy]; rfl
    have hclose : z.1.kind.isName = false := by rw [hz]; rfl
    have hinside := (hq _ _ _ _ hquery).append (.other hclose .nil)
    rw [Phrase.tips_eq_children rfl]
    refine .other (by rw [hx]; rfl) (.other hopen ?_)
    simpa [Phrase.children_eq, Phrase.items, SourceClause.items] using hinside
  · exact Yields.bears_phrase h

theorem bears_pipeline {query : Rule Query} [Lawful true query] (hi : inner.Sound n)
    (hq : QueryBears query) {q : Query} (hf : pipeline inner query s = (q, t)) (h : s.Reads ps t) :
    Bears (Phrase.query q).tips ps ∧ t.atBoundary = true ∧ t.kind ≠ .pipe := by
  refine h.pipeline_induction (motive := fun q ps => Bears (Phrase.query q).tips ps)
    (fun hcommand => hcommand.bears_sourceCommand hi hq)
    (fun {q ps x qs command u v w} hm _ hx _ hcommand => ?_) hf
  have hbar : x.1.kind.isName = false := by rw [hx]; rfl
  have hpipe := hm.append (.other hbar (hcommand.bears_processingCommand hi))
  rw [Phrase.tips_eq_children rfl]
  simpa [Phrase.children_eq, Phrase.items] using hpipe

end

theorem bears_query {levels : Nat} {s t : State} {ps : List Placed} {q : Query}
    (hf : query levels s = (q, t)) (h : s.Reads ps t) :
    Bears (Phrase.query q).tips ps ∧ t.atBoundary = true ∧ t.kind ≠ .pipe := by
  induction levels generalizing s t ps q with
  | zero =>
    rw [query_zero] at hf
    exact bears_pipeline (expressions_sound 0) (fun _ _ _ _ h => absurd h not_accepts_tooDeep) hf h
  | succ levels ih =>
    rw [query_succ] at hf
    refine bears_pipeline (expressions_sound (levels + 1)) (fun s ps q t h => ?_) hf h
    obtain ⟨hf, hreads⟩ := accepts_total.1 h
    exact (ih hf hreads).1

/-- A statement that is read without a diagnostic bears its tips. -/
theorem bears_statement (config : Config) {tokens : List Token}
    (h : (statement config.maxDepth (.start config tokens)).2.diagnostics = #[]) :
    Bears (Phrase.query (statement config.maxDepth (.start config tokens)).1.query).tips
      (TokenStream.significant tokens) := by
  have hsteps := steps_query config.maxDepth (.start config tokens)
  obtain ⟨ps, hreads⟩ := hsteps.exists_reads (State.regular_start config tokens) h
  obtain ⟨hbears, hb, hk⟩ := bears_query (s := .start config tokens) rfl hreads
  obtain rfl := hreads.eq_significant hb hk
  exact hbears

end Grammar

/-! ## Statements -/

/-- In a text that is read without a diagnostic, a visitor of names sees one for each token of a name
in front of the end of the input, in their order, and each is that token as written. A visitor of
constants sees those of the tree, each of them once, one behind the other in the text. -/
theorem visits_parse (tokens : List Token) (config : Config)
    (hok : (parse tokens config).isOk = true) :
    (parse tokens config).statement.outline.identifiers
        = ((tokens.takeWhile (!·.isEnd)).zipIdx.filter (·.1.kind.isName)).map
            (fun x => Identifier.ofToken x.1 ⟨x.2, x.2 + 1⟩) ∧
      (parse tokens config).statement.outline.constants
        = (Phrase.query (parse tokens config).statement.query).preorder.filterMap
            Phrase.constant? ∧
      (parse tokens config).statement.outline.constants.Pairwise
        (fun c d => c.span.stop ≤ d.span.start) ∧
      ∀ c ∈ (parse tokens config).statement.outline.constants, c.span.start < c.span.stop := by
  have hbears := Grammar.bears_statement config (isOk_parse.1 hok)
  change Bears (Phrase.query (parse tokens config).statement.query).tips _ at hbears
  have hasc := TokenStream.ascending_significant tokens
  rw [Outline.identifiers, Outline.constants, Statement.tips_outline]
  refine ⟨?_, Phrase.constants_tips _, hbears.pairwise_span hasc, fun c hc => ?_⟩
  · have hname (k : Kind) : k.isName = true → k.isTrivia = false := by cases k <;> decide
    rw [hbears.identifiers, TokenStream.filter_significant tokens hname]
    rfl
  · obtain ⟨qs, hqs, hne, hspan⟩ := hbears.exists_part hc
    rw [hspan]
    exact (hasc.of_part hqs).start_lt_stop hne

/-- A setting and a number are the constants of this text, in that order. -/
theorem visits_parse_dissectSort :
    (parse (tokenize "FROM t | DISSECT a.b \"%\" c=\"-\" | SORT d + 2") {}).isOk = true ∧
      (parse (tokenize "FROM t | DISSECT a.b \"%\" c=\"-\" | SORT d + 2")
        {}).statement.outline.identifiers.map Identifier.raw = ["t", "a", "b", "c", "d"] ∧
      ((Phrase.query (parse (tokenize "FROM t | DISSECT a.b \"%\" c=\"-\" | SORT d + 2")
        {}).statement.query).preorder.filterMap Phrase.constant?).map Constant.span
          = [⟨16, 17⟩, ⟨26, 27⟩] := by
  have hok : (parse (tokenize "FROM t | DISSECT a.b \"%\" c=\"-\" | SORT d + 2") {}).isOk = true := by
    decide +kernel
  obtain ⟨hidentifiers, hconstants, -, -⟩ := visits_parse _ {} hok
  refine ⟨hok, ?_, ?_⟩
  · rw [hidentifiers]
    decide +kernel
  · rw [← hconstants]
    decide +kernel

end PipeQuery
