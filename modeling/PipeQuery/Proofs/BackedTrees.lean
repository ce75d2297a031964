import PipeQuery.Proofs.Embedded
import PipeQuery.Proofs.RepairedQuery
import PipeQuery.Proofs.Visits

/-!
# Trees that are backed by tokens

A phrase is backed by a text when it was read, and for each token that it is made of there is one in
the text (`Phrase.Backed`): the tokens that it keeps, the texts of its leaves, and its words and
signs. Where nothing is reported, all the phrases of a tree are backed (`Phrase.WhollyBacked`), so
none of its tokens was taken for granted.

It does not matter whether the texts of tokens fit their kinds. A sort may be read without a
diagnostic where the word behind `NULLS` is not one that the grammar knows; that word then leaves
nothing behind in the tree.
-/

namespace PipeQuery

/-! ## Backed phrases -/

/-- A token as the terminal asks for is one of the text. -/
def Terminal.Backed (tokens : List Token) (t : Terminal) : Prop := ∃ x ∈ tokens, t.Matches id x

namespace Phrase

variable {tokens : List Token} {p : Phrase}

/-- The phrase was read, and the tokens that it is made of are tokens of the text. -/
structure Backed (tokens : List Token) (p : Phrase) : Prop where
  /-- It is not a command that could not be read. -/
  read : p.isError = false
  /-- Its tokens are there. -/
  items : Item.Each (Terminal.Backed tokens) p.items

/-- All phrases inside a phrase are backed, and so is the phrase itself. -/
def WhollyBacked (tokens : List Token) (p : Phrase) : Prop := ∀ q, p.Below q → q.Backed tokens

theorem WhollyBacked.of_children (h : p.Backed tokens)
    (hchildren : ∀ q ∈ p.children, q.WhollyBacked tokens) : p.WhollyBacked tokens := by
  intro q hq
  obtain rfl | ⟨r, hr, hq⟩ := Relation.ReflTransGen.cases_head hq
  · exact h
  · exact hchildren r hr q hq

/-- The text of a leaf is that of a token. -/
theorem Backed.exists_leaf (h : p.Backed tokens) {leaf : Kind × String} (hleaf : leaf ∈ p.leaf?) :
    ∃ x ∈ tokens, x.kind = leaf.1 ∧ x.text = leaf.2 := by
  have hitems := h.items
  cases p with
  | identifier | number | string =>
    obtain rfl := Option.some.inj hleaf
    exact hitems _ (List.mem_singleton_self _)
  | _ => cases hleaf

/-- If no token has the text of one that was taken for granted, nothing is missing in the tree. -/
theorem WhollyBacked.intact (h : p.WhollyBacked tokens)
    (htokens : ∀ x ∈ tokens, ¬ IsPlaceholder x.text) : p.Intact := by
  refine fun q hq => ⟨(h q hq).read, fun leaf hleaf => ?_⟩
  obtain ⟨x, hx, -, htext⟩ := (h q hq).exists_leaf hleaf
  exact htext ▸ htokens x hx

theorem Admissible.isError_eq_false {filters : Bool} (h : p.Admissible filters) :
    p.isError = false := by
  unfold isError
  split
  · exact h.elim
  · exact h.elim
  · rfl

end Phrase

/-! ## Derivations -/

section

variable {tokens : List Token} {c : Context} {items : List Item} {ps : List Placed} {p : Phrase}
  {nesting : Nesting}

/-- What the grammar derives is backed by the tokens that it derives it from. -/
theorem Yields.each_backed (h : Yields id true c items ps) (hps : ∀ x ∈ ps, x.1 ∈ tokens) :
    Item.Each (Terminal.Backed tokens) items := by
  induction h with
  | nil => exact Item.each_nil
  | @terminal c t items x ps token _ ih =>
    obtain ⟨hx, hps⟩ := List.forall_mem_cons.1 hps
    exact Item.each_terminal.2 ⟨⟨x.1, hx, token⟩, ih hps⟩
  | phrase _ _ _ _ _ _ ih =>
    exact Item.each_phrase.2 (ih (List.forall_mem_append.1 hps).2)

theorem Yields.whollyBacked (h : Yields id true c items ps) (hps : ∀ x ∈ ps, x.1 ∈ tokens)
    (hp : .phrase nesting p ∈ items) : p.WhollyBacked tokens := by
  intro q hq
  obtain ⟨d, qs, hqs, hy⟩ := h.exists_part hp hq
  obtain ⟨hadmissible, hitems, -⟩ := Yields.same_iff.1 hy
  exact ⟨hadmissible.isError_eq_false, hitems.each_backed fun x hx => hps x (hqs.subset hx)⟩

/-- A phrase that was read is backed by what its items derive. -/
theorem Yields.whollyBacked_items (h : Yields id true c p.items ps)
    (hps : ∀ x ∈ ps, x.1 ∈ tokens) (hread : p.isError = false) : p.WhollyBacked tokens := by
  refine .of_children ⟨hread, h.each_backed hps⟩ fun q hq => ?_
  obtain ⟨nesting, hq⟩ := Phrase.mem_children.1 hq
  exact h.whollyBacked hps hq

/-- Phrases with separators between them are backed by their stretch, and so are the separators. -/
theorem Separated.whollyBacked {α : Type} {kind : Kind} {phrase : α → Phrase} {as : List α}
    (h : Separated kind
      (fun a ps => (∀ x ∈ ps, x.1 ∈ tokens) → (phrase a).WhollyBacked tokens) as ps)
    (hps : ∀ x ∈ ps, x.1 ∈ tokens) :
    Item.Each (Terminal.Backed tokens)
        (Item.separated kind (as.map fun a => .same (phrase a))) ∧
      ∀ a ∈ as, (phrase a).WhollyBacked tokens := by
  induction h with
  | one first =>
    exact ⟨Item.each_phrase.2 Item.each_nil, List.forall_mem_singleton.2 (first hps)⟩
  | @more a as ps qs x first separator rest ih =>
    obtain ⟨hps, hqs⟩ := List.forall_mem_append.1 hps
    obtain ⟨hx, hqs⟩ := List.forall_mem_cons.1 hqs
    obtain ⟨hitems, hall⟩ := ih hqs
    obtain ⟨b, bs, rfl⟩ := List.exists_cons_of_ne_nil rest.ne_nil
    exact ⟨Item.each_phrase.2 (Item.each_terminal.2 ⟨⟨x.1, hx, separator⟩, hitems⟩),
      List.forall_mem_cons.2 ⟨first hps, hall⟩⟩

theorem Phrase.WhollyBacked.source {command : SourceCommand}
    (h : (sourceCommand command).WhollyBacked tokens) :
    (query (.source command)).WhollyBacked tokens := by
  refine .of_children ⟨rfl, Item.each_phrase.2 Item.each_nil⟩ fun q hq => ?_
  obtain rfl : q = .sourceCommand command := by simpa [children_eq, items] using hq
  exact h

theorem Phrase.WhollyBacked.pipe {q : Query} {bar : Token} {command : ProcessingCommand}
    (hq : (query q).WhollyBacked tokens) (hbar : bar ∈ tokens) (hk : bar.kind = .pipe)
    (hcommand : (processingCommand command).WhollyBacked tokens) :
    (query (.pipe q bar command)).WhollyBacked tokens := by
  have hm : (Terminal.kept [.pipe] bar).Matches id bar := ⟨by simp [hk], rfl⟩
  refine .of_children ⟨rfl, ?_⟩ fun p hp => ?_
  · exact Item.each_phrase.2 (Item.each_terminal.2
      ⟨⟨bar, hbar, hm⟩, Item.each_phrase.2 Item.each_nil⟩)
  · obtain rfl | rfl : p = .query q ∨ p = .processingCommand command := by
      simpa [children_eq, items] using hp
    · exact hq
    · exact hcommand

end

/-! ## Runs without diagnostics -/

theorem TokenStream.forall_mem_significant (tokens : List Token) :
    ∀ x ∈ significant tokens, x.1 ∈ tokens :=
  fun _ hx => List.mem_of_getElem? (mem_significant.1 hx).2.1

namespace Grammar

open Rule State

variable {tokens : List Token}

section

variable {s t : State} {ps : List Placed} {inner : Expressions} [inner.Lawful true] {n : Nat}

/-- A sort key is backed, even if the word behind `NULLS` is not known. -/
theorem Rule.Accepts.whollyBacked_sortKey (hi : inner.Sound n) {k : SortKey}
    (h : (sortKey inner).Accepts s ps k t) (hps : ∀ x ∈ ps, x.1 ∈ tokens) :
    (Phrase.sortKey k).WhollyBacked tokens := by
  obtain ⟨qs, os, ns, rfl, hexpression, horder, hnulls, -⟩ := h.of_sortKey hi
  obtain ⟨hqs, hps⟩ := List.forall_mem_append.1 hps
  obtain ⟨hos, hns⟩ := List.forall_mem_append.1 hps
  have horders : ∀ o ∈ k.order, (Terminal.order o).Backed tokens := by
    generalize k.order = order at horder
    cases horder with
    | nothing => nofun
    | @word x hx =>
      rintro o ⟨⟩
      exact ⟨x.1, hos x (by simp), hx, rfl⟩
  have hdirections : ∀ o ∈ k.nulls,
      (Terminal.kind .kwNulls).Backed tokens ∧ (Terminal.nulls o).Backed tokens := by
    generalize k.nulls = nulls at hnulls
    cases hnulls with
    | nothing => nofun
    | @words x y hx hy =>
      intro o ho
      exact ⟨⟨x.1, hns x (by simp), hx⟩, ⟨y.1, hns y (by simp), hy, ho⟩⟩
  refine .of_children ⟨rfl, ?_⟩ fun q hq => ?_
  · refine Item.each_phrase.2 (Item.each_append.2
      ⟨Item.each_option.2 fun o ho => ?_, Item.each_option.2 fun o ho => ?_⟩)
    · exact Item.each_terminal.2 ⟨horders o ho, Item.each_nil⟩
    · obtain ⟨hword, hdirection⟩ := hdirections o ho
      exact Item.each_terminal.2 ⟨hword, Item.each_terminal.2 ⟨hdirection, Item.each_nil⟩⟩
  · obtain rfl : q = .boolean k.expression := by simpa [Phrase.children_eq, Phrase.items] using hq
    exact hexpression.whollyBacked hqs (List.mem_singleton_self _)

theorem Rule.Accepts.whollyBacked_processingCommand (hi : inner.Sound n) {a : ProcessingCommand}
    (h : (processingCommand inner).Accepts s ps a t) (hps : ∀ x ∈ ps, x.1 ∈ tokens) :
    (Phrase.processingCommand a).WhollyBacked tokens := by
  obtain ⟨x, qs, clause, b, u, v, rfl, hclause, -, hb, rfl⟩ := h.of_processingCommand
  by_cases hk : x.1.kind = .kwSort
  · obtain ⟨hx, hqs⟩ := List.forall_mem_cons.1 hps
    rw [hk] at hclause
    obtain rfl := Option.some.inj hclause
    obtain ⟨keys, hkeys, rfl⟩ := accepts_bind_pure.1 hb
    obtain ⟨hsep, -⟩ := hkeys.of_separated fun _ _ _ _ _ hkey => hkey.whollyBacked_sortKey hi
    obtain ⟨hitems, hall⟩ := hsep.whollyBacked hqs
    refine .of_children ⟨rfl, ?_⟩ fun q hq => ?_
    · exact Item.each_terminal.2 ⟨⟨x.1, hx, by simp [hk], rfl⟩, hitems⟩
    · obtain ⟨k, hk, rfl⟩ : ∃ k ∈ keys, .sortKey k = q := by
        simpa [Phrase.children_eq, Phrase.items, ProcessingClause.items] using hq
      exact hall k hk
  · obtain ⟨-, kinds, items, hkinds, heq, hy⟩ := hb.isClause hi hclause fun h => absurd h hk
    have hitems : Yields id true (u.context n) (b.items x.1) (x :: qs) := by
      rw [heq]
      exact .terminal ⟨hkinds, rfl⟩ hy
    exact Yields.whollyBacked_items (p := .processingCommand (.command x.1 b _)) hitems hps rfl

/-- Queries one level deeper are backed by the tokens that they are read from. -/
def QueryBacked (tokens : List Token) (query : Rule Query) : Prop :=
  ∀ s ps q t, query.Accepts s ps q t → (∀ x ∈ ps, x.1 ∈ tokens) →
    (Phrase.query q).WhollyBacked tokens

theorem Rule.Accepts.whollyBacked_sourceCommand {query : Rule Query} [Lawful true query]
    (hi : inner.Sound n) (hq : QueryBacked tokens query) {a : SourceCommand}
    (h : (sourceCommand inner query).Accepts s ps a t) (hps : ∀ x ∈ ps, x.1 ∈ tokens) :
    (Phrase.sourceCommand a).WhollyBacked tokens := by
  obtain ⟨x, qs, q, u, v, rfl, hx, -, hsub, rfl⟩ | h := h.of_sourceCommand hi
  · obtain ⟨y, z, rs, u, v, rfl, hy, hz, -, -, hquery⟩ := hsub.of_subquery (n := n)
    have hinside := hq _ _ _ _ hquery fun y hy => hps y (by simp [hy])
    refine .of_children ⟨rfl, ?_⟩ fun p hp => ?_
    · have hkeyword : (Terminal.kept [.kwExplain] x.1).Backed tokens :=
        ⟨x.1, hps x (by simp), by simp [hx], rfl⟩
      have hopen : (Terminal.kind .leftBracket).Backed tokens := ⟨y.1, hps y (by simp), hy⟩
      have hclose : (Terminal.kind .rightBracket).Backed tokens := ⟨z.1, hps z (by simp), hz⟩
      simpa [Phrase.items, SourceClause.items] using ⟨hkeyword, hopen, hclose⟩
    · obtain rfl : p = .query q := by
        simpa [Phrase.children_eq, Phrase.items, SourceClause.items] using hp
      exact hinside
  · exact Yields.whollyBacked h hps (List.mem_singleton_self _)

theorem whollyBacked_pipeline {query : Rule Query} [Lawful true query] (hi : inner.Sound n)
    (hq : QueryBacked tokens query) {q : Query} (hf : pipeline inner query s = (q, t))
    (h : s.Reads ps t) (hps : ∀ x ∈ ps, x.1 ∈ tokens) :
    (Phrase.query q).WhollyBacked tokens ∧ t.atBoundary = true ∧ t.kind ≠ .pipe := by
  obtain ⟨hbacked, hend⟩ := h.pipeline_induction
    (motive := fun q ps => (∀ x ∈ ps, x.1 ∈ tokens) → (Phrase.query q).WhollyBacked tokens)
    (fun hcommand hps => (hcommand.whollyBacked_sourceCommand hi hq hps).source)
    (fun {q ps x qs command u v w} hm _ hx _ hcommand hps => by
      obtain ⟨hps, hqs⟩ := List.forall_mem_append.1 hps
      obtain ⟨hbar, hqs⟩ := List.forall_mem_cons.1 hqs
      exact (hm hps).pipe hbar hx (hcommand.whollyBacked_processingCommand hi hqs)) hf
  exact ⟨hbacked hps, hend⟩

end

theorem whollyBacked_query {levels : Nat} {s t : State} {ps : List Placed} {q : Query}
    (hf : query levels s = (q, t)) (h : s.Reads ps t) (hps : ∀ x ∈ ps, x.1 ∈ tokens) :
    (Phrase.query q).WhollyBacked tokens ∧ t.atBoundary = true ∧ t.kind ≠ .pipe := by
  induction levels generalizing s t ps q with
  | zero =>
    rw [query_zero] at hf
    exact whollyBacked_pipeline (expressions_sound 0)
      (fun _ _ _ _ h => absurd h not_accepts_tooDeep) hf h hps
  | succ levels ih =>
    rw [query_succ] at hf
    refine whollyBacked_pipeline (expressions_sound (levels + 1)) (fun s ps q t h hps => ?_)
      hf h hps
    obtain ⟨hf, hreads⟩ := accepts_total.1 h
    exact (ih hf hreads hps).1

/-- A statement that is read without a diagnostic is backed by its text. -/
theorem whollyBacked_statement (config : Config)
    (h : (statement config.maxDepth (.start config tokens)).2.diagnostics = #[]) :
    (Phrase.query (statement config.maxDepth (.start config tokens)).1.query).WhollyBacked
      tokens := by
  have hsteps := steps_query config.maxDepth (.start config tokens)
  obtain ⟨ps, hreads⟩ := hsteps.exists_reads (State.regular_start config tokens) h
  have hps : ps ⊆ (State.start config tokens).stream.rest :=
    hreads.rest ▸ List.subset_append_left ps _
  exact (whollyBacked_query (s := .start config tokens) rfl hreads fun x hx =>
    TokenStream.forall_mem_significant tokens x (hps hx)).1

end Grammar

/-- An expression that is read by itself is backed by its text. -/
theorem whollyBacked_parseExpression {text : String} {e : BooleanExpr}
    (h : (parseExpression text).result = .ok e) :
    (Phrase.boolean e).WhollyBacked (tokenizeFrom .expression text) :=
  (Grammar.derives_parseExpression h).whollyBacked (TokenStream.forall_mem_significant _)
    (List.mem_singleton_self _)

end PipeQuery
