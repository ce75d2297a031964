import PipeQuery.Parsed
import PipeQuery.Proofs.CompleteQuery

/-!
# The parser accepts its grammar

`Query.IsOf` says that a query is well formed and that its tokens are those of a text. A text is
read without a diagnostic just when there is such a query, nested no deeper than the limit, and then
it is the query that was read, up to spans (`acceptance_parse`). So the grammar is unambiguous.

No query nests deeper than twice the number of its tokens (`Yields.exists_levels_le`): a phrase one
level deeper has fewer tokens, but for an arithmetic expression that is a whole condition. From that
limit on, limits make no difference.
-/

namespace PipeQuery

variable {ρ : Token → Token} {exact : Bool} {c : Context} {items : List Item} {ps : List Placed}

/-! ## Levels of nesting -/

/-- The number of levels that a phrase takes where it stands. -/
def Nesting.cost : Nesting → Nat
  | .same => 0
  | .deeper | .filter => 1

/-- How many levels fewer a phrase takes than twice the number of its tokens. -/
def Phrase.slack : Phrase → Nat
  | .query _ | .sourceCommand _ | .processingCommand _ | .field _ | .sortKey _ => 0
  | .boolean _ | .value _ | .scalarArgument _ => 1
  | _ => 2

theorem Phrase.slack_le_two (p : Phrase) : p.slack ≤ 2 := by
  cases p <;> simp [slack]

namespace Item

variable {separator : Kind} {nesting : Nesting} {q : Phrase}

/-- The phrases among items with separators are those among the items. -/
theorem phrase_mem_separated (items : List Item) :
    .phrase nesting q ∈ separated separator items ↔ .phrase nesting q ∈ items := by
  cases items with
  | nil => rfl
  | cons item items => simp [separated]

/-- A phrase behind a token. -/
theorem two_le_length {t : Terminal} {items : List Item}
    (h : .phrase nesting q ∈ Item.terminal t :: items) : 2 ≤ (Item.terminal t :: items).length := by
  have hmem : Item.phrase nesting q ∈ items := by simpa using h
  have hpos := List.length_pos_of_mem hmem
  rw [List.length_cons]
  omega

end Item

theorem Nesting.cost_le_one (nesting : Nesting) : nesting.cost ≤ 1 := by
  cases nesting <;> simp [cost]

/-- What a phrase takes is made up for by the tokens around the phrases inside it. -/
theorem Phrase.slack_items {p q : Phrase} {nesting : Nesting} (h : .phrase nesting q ∈ p.items) :
    nesting.cost + p.slack + 2 ≤ 2 * p.items.length + q.slack := by
  have hcost := nesting.cost_le_one
  have hslack := p.slack_le_two
  have hpos := List.length_pos_of_mem h
  by_cases hlen : 3 ≤ p.items.length
  · omega
  -- what is left are phrases of at most two items
  cases p with
  | sourceCommand a =>
    cases a with
    | command keyword clause span =>
      have hlen : 2 ≤ (clause.items keyword).length := by
        cases clause <;> exact Item.two_le_length h
      change nesting.cost + 0 + 2 ≤ 2 * (clause.items keyword).length + q.slack
      omega
    | error span => simp [items] at h
  | processingCommand a =>
    cases a with
    | command keyword clause span =>
      have hlen : 2 ≤ (clause.items keyword).length := by
        cases clause <;> exact Item.two_le_length h
      change nesting.cost + 0 + 2 ≤ 2 * (clause.items keyword).length + q.slack
      omega
    | error span => simp [items] at h
  | qualifiedName a =>
    obtain ⟨part, -, hq⟩ : ∃ part ∈ a.parts, .same (.identifier part) = Item.phrase nesting q := by
      simpa [items, Item.phrase_mem_separated] using h
    cases hq
    change 0 + 2 + 2 ≤ 2 * (items (.qualifiedName a)).length + 2
    omega
  | sortKey a =>
    obtain ⟨rfl, rfl⟩ : nesting = .deeper ∧ q = .boolean a.expression := by
      cases ho : a.order <;> cases hn : a.nulls <;> simp_all [items]
    change 1 + 0 + 2 ≤ 2 * (items (.sortKey a)).length + 1
    omega
  | query a => cases a <;> simp_all [items, slack, Nesting.cost]
  | field a => cases ha : a.name <;> simp_all [items, slack, Nesting.cost, Item.assigned]
  | enrichClause a => cases ha : a.newName <;> simp_all [items, slack, Nesting.cost, Item.assigned]
  | boolean a =>
    cases a <;> simp_all [items, BooleanExpr.items, slack, Nesting.cost]
    omega
  | value a => cases a <;> simp_all [items, ValueExpr.items, slack, Nesting.cost]
  | operator a =>
    cases a <;> simp_all [items, OperatorExpr.items, slack, Nesting.cost, Item.call]
  | primary a =>
    cases a <;> simp_all [items, PrimaryExpr.items, slack, Nesting.cost, Item.call]
  | scalarArgument a => cases a <;> simp_all [items, slack, Nesting.cost]
  | fieldArgument a => cases a <;> simp_all [items, slack, Nesting.cost]
  | constant a => cases a <;> simp_all [items, Constant.items, slack, Nesting.cost]
  | predicateCall a =>
    simp only [items, Item.call, List.length_cons, List.length_append] at hlen
    omega
  | renameClause | commandOption | timeSpan | number | string | truthValue | identifier =>
    simp_all [items, slack, Nesting.cost]

theorem Context.levels_of_inside {d : Context} {nesting : Nesting} (h : c.inside nesting = some d) :
    c.levels = d.levels + nesting.cost := by
  obtain ⟨filters, n⟩ := c
  cases nesting with
  | same =>
    obtain rfl : Context.mk filters n = d := by simpa using h
    rfl
  | deeper | filter =>
    cases n with
    | zero => simp [Context.inside] at h
    | succ n =>
      obtain rfl : Context.mk _ n = d := by simpa using h
      rfl

/-- The context inside a phrase on another level. -/
theorem Context.inside_levels {d : Context} {nesting : Nesting} {m : Nat}
    (h : c.inside nesting = some d) (hm : nesting.cost ≤ m) :
    (Context.mk c.filters m).inside nesting = some ⟨d.filters, m - nesting.cost⟩ := by
  obtain ⟨filters, n⟩ := c
  cases nesting with
  | same =>
    obtain rfl : Context.mk filters n = d := by simpa using h
    rfl
  | deeper | filter =>
    obtain ⟨m, rfl⟩ : ∃ k, m = k + 1 := Nat.exists_eq_succ_of_ne_zero (Nat.ne_of_gt hm)
    cases n with
    | zero => simp [Context.inside] at h
    | succ n =>
      obtain rfl : Context.mk _ n = d := by simpa using h
      rfl

/-- A level more does no harm. -/
theorem Yields.mono_levels (h : Yields ρ exact c items ps) {m : Nat} (hm : c.levels ≤ m) :
    Yields ρ exact ⟨c.filters, m⟩ items ps := by
  induction h generalizing m with
  | nil => exact .nil _
  | terminal token _ ih => exact .terminal token (ih hm)
  | @phrase c d nesting p items ps qs inside admissible _ span _ ihp ih =>
    have hlevels := Context.levels_of_inside inside
    have hparts : Yields ρ exact ⟨d.filters, m - nesting.cost⟩ p.items ps := by
      apply ihp
      omega
    exact .phrase (Context.inside_levels inside (by omega)) admissible hparts span (ih hm)

/-- Each item has a token at least. -/
theorem Yields.length_le (h : Yields ρ exact c items ps) : items.length ≤ ps.length := by
  induction h with
  | nil => exact Nat.le_refl _
  | terminal _ _ ih => simpa using ih
  | phrase _ admissible parts _ _ ihp ih =>
    have hpos := List.length_pos_iff.2 (Phrase.items_ne_nil admissible)
    rw [List.length_cons, List.length_append]
    omega

/-- As many levels as its tokens pay for are enough for each phrase. -/
theorem Yields.at_levels (h : Yields ρ exact c items ps) {m : Nat}
    (hm : ∀ nesting q, .phrase nesting q ∈ items →
      2 * (ps.length + 1 - items.length) + nesting.cost ≤ m + q.slack) :
    Yields ρ exact ⟨c.filters, m⟩ items ps := by
  induction h generalizing m with
  | nil => exact .nil _
  | @terminal c t items x ps token rest ih =>
    refine .terminal token (ih fun nesting q hq => ?_)
    have hle := hm nesting q (List.mem_cons_of_mem _ hq)
    rw [List.length_cons, List.length_cons] at hle
    omega
  | @phrase c d nesting p items ps qs inside admissible parts span rest ihp ih =>
    have hps := parts.length_le
    have hqs := rest.length_le
    have hpos := List.length_pos_iff.2 (Phrase.items_ne_nil admissible)
    have hle := hm nesting p (List.mem_cons_self ..)
    have hslack := p.slack_le_two
    rw [List.length_append, List.length_cons] at hle
    have hparts : Yields ρ exact ⟨d.filters, m - nesting.cost⟩ p.items ps := by
      refine ihp fun nesting' q hq => ?_
      have hq := Phrase.slack_items hq
      omega
    have hrest : Yields ρ exact ⟨c.filters, m⟩ items qs := by
      refine ih fun nesting' q hq => ?_
      have hle := hm nesting' q (List.mem_cons_of_mem _ hq)
      rw [List.length_append, List.length_cons] at hle
      omega
    exact .phrase (Context.inside_levels inside (by omega)) admissible hparts span hrest

/-! ## Readings of a text -/

/-- The query is well formed and nests at most `levels` deep, and its tokens are those of the text
that the grammar sees. -/
def Query.IsOf (q : Query) (levels : Nat) (tokens : List Token) : Prop :=
  Yields id false ⟨false, levels⟩ [.same (.query q)] (TokenStream.significant tokens)

/-- A statement without its spans. -/
def Statement.erase (ρ : Token → Token) (s : Statement) : Statement :=
  ⟨s.query.erase ρ, ρ s.endToken, default⟩

variable {tokens : List Token} {config : Config} {q q' : Query} {n n' : Nat}

namespace Query.IsOf

theorem mono (h : q.IsOf n tokens) (hn : n ≤ n') : q.IsOf n' tokens := Yields.mono_levels h hn

/-- No query nests deeper than twice the number of its tokens. -/
theorem at_length (h : q.IsOf n tokens) :
    q.IsOf (2 * (TokenStream.significant tokens).length) tokens := by
  refine Yields.at_levels h fun nesting p hp => ?_
  obtain ⟨rfl, rfl⟩ : nesting = .same ∧ p = .query q := by simpa using hp
  simp [Nesting.cost]

/-- What is a query of the text on its level is read as that query. -/
theorem isOk (h : q.IsOf config.maxDepth tokens) :
    (parse tokens config).isOk = true ∧
      (parse tokens config).statement.query.erase id = q.erase id := by
  obtain ⟨hd, he⟩ := Grammar.reads_statement config h
  exact ⟨isOk_parse.2 hd, he⟩

/-- A text is the text of one query only, up to spans. -/
theorem unique (h : q.IsOf n tokens) (k : q'.IsOf n' tokens) : q.erase id = q'.erase id := by
  have h' : q.IsOf (max n n') tokens := h.mono (Nat.le_max_left ..)
  have k' : q'.IsOf (max n n') tokens := k.mono (Nat.le_max_right ..)
  let config : Config := ⟨max n n', true⟩
  have hread : (parse tokens config).statement.query.erase id = q.erase id := (isOk h').2
  have kread : (parse tokens config).statement.query.erase id = q'.erase id := (isOk k').2
  exact hread.symm.trans kread

end Query.IsOf

/-- The query that was read is a query of the text. -/
theorem isOf_parse (hfits : ∀ t ∈ tokens, t.Fits) (hok : (parse tokens config).isOk = true) :
    (parse tokens config).statement.query.IsOf config.maxDepth tokens :=
  (Grammar.derives_statement config hfits (isOk_parse.1 hok)).1.toInexact

/-- Where nothing is reported, the statement ends with the token that ends the input. -/
theorem endToken_parse (hfits : ∀ t ∈ tokens, t.Fits) (hok : (parse tokens config).isOk = true) :
    (parse tokens config).statement.endToken = (TokenStream.ofTokens tokens).endToken := by
  obtain ⟨-, hreads⟩ := Grammar.derives_statement config hfits (isOk_parse.1 hok)
  have hrest : (Grammar.statement config.maxDepth (.start config tokens)).2.stream.rest = [] :=
    List.append_cancel_left (hreads.rest.symm.trans (List.append_nil _).symm)
  have hcurrent : (Grammar.statement config.maxDepth (.start config tokens)).2.stream.current
      = (Grammar.statement config.maxDepth (.start config tokens)).2.stream.endToken := by
    rw [TokenStream.current, hrest]
  exact hcurrent.trans hreads.stream.endToken

/-- The parser accepts just its grammar: a text is read without a diagnostic when it is the text of
a query that nests no deeper than the limit, and the limit makes no difference once it is twice the
number of tokens. There is one such query, up to spans, and it is the one that is read. -/
theorem acceptance_parse (tokens : List Token) (config : Config) (hfits : ∀ t ∈ tokens, t.Fits) :
    ((parse tokens config).isOk = true ↔ ∃ q : Query, q.IsOf config.maxDepth tokens) ∧
      (2 * (TokenStream.significant tokens).length ≤ config.maxDepth →
        ((parse tokens config).isOk = true ↔ ∃ (q : Query) (n : Nat), q.IsOf n tokens)) ∧
      (∀ (q q' : Query) (n n' : Nat), q.IsOf n tokens → q'.IsOf n' tokens →
        q.erase id = q'.erase id) ∧
      ∀ (q : Query) (n : Nat), (parse tokens config).isOk = true → q.IsOf n tokens →
        (parse tokens config).statement.erase id
          = Statement.erase id ⟨q, (TokenStream.ofTokens tokens).endToken, default⟩ := by
  have hlimit : (parse tokens config).isOk = true ↔ ∃ q : Query, q.IsOf config.maxDepth tokens :=
    ⟨fun hok => ⟨_, isOf_parse hfits hok⟩, fun ⟨_, h⟩ => h.isOk.1⟩
  refine ⟨hlimit, fun hle => ?_, fun _ _ _ _ h k => h.unique k, fun q n hok h => ?_⟩
  · constructor
    · intro hok
      exact ⟨_, _, isOf_parse hfits hok⟩
    · rintro ⟨q, n, h⟩
      exact hlimit.2 ⟨q, h.at_length.mono hle⟩
  · have hquery := (isOf_parse hfits hok).unique h
    rw [Statement.erase, Statement.erase, hquery, endToken_parse hfits hok]

theorem acceptance_parse_sortedRow :
    (∀ t ∈ sortedRow, t.Fits) ∧
      2 * (TokenStream.significant sortedRow).length ≤ ({} : Config).maxDepth ∧
      ((parse sortedRow {}).isOk = true ↔ ∃ (q : Query) (n : Nat), q.IsOf n sortedRow) ∧
      (parse sortedRow {}).isOk = true :=
  ⟨fits_sortedRow, by decide, (acceptance_parse sortedRow {} fits_sortedRow).2.1 (by decide),
    by decide⟩

end PipeQuery
