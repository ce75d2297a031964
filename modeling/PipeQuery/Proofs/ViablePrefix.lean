import PipeQuery.Proofs.QueryLanguage
import PipeQuery.Proofs.Respelled
import PipeQuery.Proofs.SameKinds

/-!
# Viable prefixes

What is read in front of the first blamed token is the beginning of a query, and each of the kinds
that are reported as expected goes on with it: some text begins with the tokens that were read and a
token of that kind, and is read without a diagnostic (`viablePrefix_parse`).

That text is found among the words of the language of queries. A text whose kinds are such a word is
a query, whatever its tokens are but for comparisons (`isOk_of_kinds`).
-/

open scoped Computability

namespace PipeQuery

open Grammar Words

/-- If the token is a comparison, it is one of the six. -/
def Token.IsKnown (t : Token) : Prop :=
  t.kind = .comparison → (ComparisonOp.ofText? t.text).isSome = true

namespace Token

variable {t : Token} {k : Kind}

theorem isKnown_ofKind (k : Kind) : (ofKind k).IsKnown := by
  have h : (ComparisonOp.ofText? "==").isSome = true := by decide
  exact fun _ => h

theorem Askable.isKnown (h : t.Askable) : t.IsKnown := by
  intro hk
  obtain hplain | ⟨-, hknown⟩ := h
  · simp [hk] at hplain
  · exact hknown

theorem Askable.isEnd (h : t.Askable) : t.isEnd = false := by
  rw [Token.isEnd, decide_eq_false_iff_not]
  intro hk
  simp [Askable, hk] at h

/-- For a kind that the grammar may ask for any token will do, if it is a known one. -/
theorem Askable.of_kind {u : Token} (h : t.Askable) (hk : u.kind = t.kind) (hu : u.IsKnown) :
    u.Askable := by
  obtain hplain | ⟨hcomparison, -⟩ := h
  · exact .inl (hk ▸ hplain)
  · exact .inr ⟨hk.trans hcomparison, hu (hk.trans hcomparison)⟩

/-- Known tokens of one kind have one shape. -/
theorem IsKnown.shape (h : t.IsKnown) : t.shape = (ofKind t.kind).shape := by
  by_cases hk : t.kind = .comparison
  · have hknown := isKnown_ofKind .comparison rfl
    have hkind : (ofKind .comparison).kind = .comparison := rfl
    simp only [Token.shape, hk, h hk, hknown, hkind, and_self, if_true]
  · simp [Token.shape, ofKind, hk]

end Token

theorem map_shape {ts : List Token} (h : ∀ t ∈ ts, t.IsKnown) :
    ts.map Token.shape = (ts.map Token.kind).map fun k => (Token.ofKind k).shape := by
  rw [List.map_map]
  exact List.map_congr_left fun t ht => (h t ht).shape

/-- A derivation does not look at the positions of tokens. -/
theorem Yields.replaced {ρ : Token → Token} {c : Context} {items : List Item} {ps qs : List Placed}
    (h : Yields ρ false c items ps) (hq : qs.map Prod.fst = ps.map Prod.fst) :
    Yields ρ false c items qs := by
  induction h generalizing qs with
  | nil =>
    obtain rfl := List.map_eq_nil_iff.1 hq
    exact .nil _
  | terminal token rest ih =>
    obtain ⟨y, qs, rfl, hy, hqs⟩ := List.map_eq_cons_iff.1 hq
    exact .terminal (hy ▸ token) (ih hqs)
  | phrase inside admissible parts span rest ihp ih =>
    rw [List.map_append] at hq
    obtain ⟨us, vs, rfl, hus, hvs⟩ := List.map_eq_append_iff.1 hq
    exact .phrase inside admissible (ihp hus) (by simp) (ih hvs)

/-! ## Texts of the kinds of a query -/

variable {tokens : List Token} {config : Config}

/-- What a text is made of whose kinds are a word of queries. -/
theorem askable_of_kinds {ts : List Token} (h : ts.map Token.kind ∈ phrases false .query)
    (hknown : ∀ t ∈ ts, t.IsKnown) : ∀ t ∈ ts, t.Askable := by
  obtain ⟨q, n, qs, hqs, hy⟩ := h
  intro t ht
  obtain ⟨x, hx, hk⟩ : ∃ x ∈ qs, x.1.kind = t.kind := by
    have hmem : t.kind ∈ kindsOf qs := hqs ▸ List.mem_map_of_mem ht
    exact List.mem_map.1 hmem
  exact (hy.askable (by simp) x hx).of_kind hk.symm (hknown t ht)

/-- The grammar sees all the tokens of such a text. -/
theorem map_fst_significant_of_askable {ts : List Token} (us : List Token) {e : Token}
    (h : ∀ t ∈ ts, t.Askable) (he : e.isEnd = true) :
    (TokenStream.significant (ts ++ e :: us)).map Prod.fst = ts := by
  rw [TokenStream.map_fst_significant (fun t ht => (h t ht).isEnd) he]
  exact List.filter_eq_self.2 fun t ht => (h t ht).isSignificant

/-- A text whose kinds are a word of queries is read without a diagnostic, if all its comparisons are
known and the limit of nesting is far enough. -/
theorem isOk_of_kinds {ts : List Token} (us : List Token) {e : Token}
    (h : ts.map Token.kind ∈ phrases false .query) (hknown : ∀ t ∈ ts, t.IsKnown)
    (he : e.isEnd = true) (hlevels : 2 * ts.length ≤ config.maxDepth) :
    (parse (ts ++ e :: us) config).isOk = true := by
  have hseen := map_fst_significant_of_askable us (askable_of_kinds h hknown) he
  obtain ⟨q, n, qs, hqs, hy⟩ := h
  -- the word is that of a query, and the tokens of the query are a text of their own
  have hask := hy.askable (by simp)
  have hask' : ∀ t ∈ qs.map Prod.fst, t.Askable := List.forall_mem_map.2 hask
  have hseen' := map_fst_significant_of_askable us hask' he
  have hof : q.IsOf n (qs.map Prod.fst ++ e :: us) := hy.replaced hseen'
  have hlength : (TokenStream.significant (qs.map Prod.fst ++ e :: us)).length = ts.length := by
    have hlen := congrArg List.length hqs
    rw [kindsOf, List.length_map, List.length_map] at hlen
    have hlen' := congrArg List.length hseen'
    rw [List.length_map, List.length_map] at hlen'
    exact hlen'.trans hlen
  -- the two texts are alike
  have hshapes : shapesOf (TokenStream.significant (ts ++ e :: us))
      = shapesOf (TokenStream.significant (qs.map Prod.fst ++ e :: us)) := by
    have hshapesOf (ps : List Placed) : shapesOf ps = (ps.map Prod.fst).map Token.shape := by
      rw [shapesOf, List.map_map]
      rfl
    rw [hshapesOf, hshapesOf, hseen, hseen', map_shape hknown,
      map_shape fun t ht => (hask' t ht).isKnown, ← hqs, kindsOf]
    simp only [List.map_map, Function.comp_def]
  rw [isOk_congr hshapes config]
  exact (hof.at_length.mono (by omega)).isOk.1

/-! ## The first diagnostic -/

/-- What is first reported is warranted by the language of queries. -/
theorem warrants_parse (hknown : ∀ t ∈ tokens, t.IsKnown) {e : Diagnostic}
    (he : (parse tokens config).diagnostics[0]? = some e) (hlimit : ¬ e.IsLimit) :
    (State.start config tokens).Warrants (phrases false .query * letter .endOfInput) e := by
  have hready : (State.start config tokens).Ready false := by
    refine ⟨rfl, fun x hx hk => ?_⟩
    obtain ⟨-, hx, -⟩ := TokenStream.mem_significant.1 hx
    exact hknown x.1 (List.mem_of_getElem? hx) hk
  have hfirst : (query config.maxDepth (.start config tokens)).2.diagnostics[0]? = some e := by
    rw [← Array.getElem?_toList]
    exact he
  exact (warranted_query config.maxDepth (State.clear_start config tokens) hready e hfirst).resolve_left
    hlimit

/-- A word of queries with the end of the input behind it. -/
theorem exists_word {k : Kind} {ks w : List Kind}
    (h : ks ++ k :: w ∈ phrases false .query * letter .endOfInput) :
    (k = .endOfInput ∧ w = [] ∧ ks ∈ phrases false .query) ∨
      ∃ w', w = w' ++ [.endOfInput] ∧ ks ++ k :: w' ∈ phrases false .query := by
  obtain ⟨word, hword, _, hend, heq⟩ := h
  obtain rfl := eq_of_mem_letter hend
  obtain rfl | ⟨w', l, rfl⟩ := List.eq_nil_or_concat' w
  · obtain ⟨rfl, hk⟩ := List.append_inj' heq rfl
    exact .inl ⟨(List.cons.inj hk).1.symm, rfl, hword⟩
  · have heq : word ++ [.endOfInput] = (ks ++ k :: w') ++ [l] :=
      heq.trans (List.append_assoc ks (k :: w') [l]).symm
    obtain ⟨rfl, hl⟩ := List.append_inj' heq rfl
    exact .inr ⟨w', by rw [(List.cons.inj hl).1], hword⟩

/-- The first diagnostic blames a token on a viable prefix, unless it is about the limit of nesting.
The blamed token stands behind some of the tokens that the grammar reads, the reported kinds are
some and not its own, and each of them goes on there: with any token of the kind and some more
tokens there is a text that is read without a diagnostic, in either mode, where the limit is far
enough. -/
theorem viablePrefix_parse (tokens : List Token) (config : Config)
    (hknown : ∀ t ∈ tokens, t.IsKnown) (e : Diagnostic)
    (he : (parse tokens config).diagnostics[0]? = some e) (hlimit : ¬ e.IsLimit) :
    ∃ i, (TokenStream.seen tokens)[i]? = some e.token ∧ (∃ k, k ∈ e.expected) ∧
      e.token.kind ∉ e.expected ∧ ∀ k ∈ e.expected, ∃ w : List Token,
        (k = .endOfInput → w = []) ∧ (∀ t ∈ w, t.isEnd = false) ∧
          ∀ (token eof : Token) (config' : Config), token.kind = k → token.IsKnown →
            eof.kind = .endOfInput → 2 * (i + 1 + w.length) ≤ config'.maxDepth →
              (parse ((TokenStream.seen tokens).take i ++ token :: w ++ [eof]) config').isOk
                = true := by
  obtain ⟨ps, t, hreads, htoken, hk, hne, hexpected⟩ := warrants_parse hknown he hlimit
  obtain ⟨hget, htake⟩ := seen_getElem? hreads
  refine ⟨ps.length, hget.trans (congrArg some htoken.symm), hne, htoken ▸ hk, fun k hk => ?_⟩
  have hps : ∀ t ∈ ps.map Prod.fst, t.IsKnown := by
    refine List.forall_mem_map.2 fun x hx => ?_
    have hrest : TokenStream.significant tokens = ps ++ t.rest := hreads.rest
    have hmem : x ∈ TokenStream.significant tokens := hrest ▸ List.mem_append_left _ hx
    exact hknown _ (List.mem_of_getElem? (TokenStream.mem_significant.1 hmem).2.1)
  have hkinds : kindsOf ps = (ps.map Prod.fst).map Token.kind := by
    rw [kindsOf, List.map_map]
    rfl
  have hlength : (ps.map Prod.fst).length = ps.length := List.length_map _
  rw [htake]
  generalize ps.map Prod.fst = us at hps hkinds hlength
  obtain ⟨w, hw⟩ := hexpected k hk
  rw [hkinds] at hw
  obtain ⟨rfl, rfl, hword⟩ | ⟨w, rfl, hword⟩ := exists_word hw
  · -- the tokens that were read are a query, and the next token ends it
    refine ⟨[], fun _ => rfl, by simp, fun token eof config' htoken _ _ hlevels => ?_⟩
    have hend : token.isEnd = true := by simp [Token.isEnd, htoken]
    have hlevels : 2 * us.length ≤ config'.maxDepth := by
      simp only [List.length_nil] at hlevels
      omega
    rw [List.append_assoc]
    exact isOk_of_kinds [eof] hword hps hend hlevels
  · have hofKind (ks : List Kind) : (ks.map Token.ofKind).map Token.kind = ks := by
      rw [List.map_map]
      exact List.map_id ks
    have hask : ∀ t ∈ (us.map Token.kind ++ k :: w).map Token.ofKind, t.Askable :=
      askable_of_kinds (by rwa [hofKind]) (List.forall_mem_map.2 fun k _ => Token.isKnown_ofKind k)
    have hne : k ≠ .endOfInput := by
      have hend := (hask (.ofKind k) (by simp)).isEnd
      exact of_decide_eq_false hend
    have hw : ∀ t ∈ w.map Token.ofKind, t.Askable := fun t ht => hask t (by
      rw [List.map_append, List.map_cons]
      exact List.mem_append_right _ (List.mem_cons_of_mem _ ht))
    refine ⟨w.map Token.ofKind, fun hk => absurd hk hne, fun t ht => (hw t ht).isEnd,
      fun token eof config' htoken hknown heof hlevels => ?_⟩
    have hkinds : (us ++ token :: w.map Token.ofKind).map Token.kind ∈ phrases false .query := by
      rwa [List.map_append, List.map_cons, hofKind, htoken]
    have hall : ∀ t ∈ us ++ token :: w.map Token.ofKind, t.IsKnown := by
      simp only [List.mem_append, List.mem_cons]
      rintro t (ht | rfl | ht)
      · exact hps t ht
      · exact hknown
      · exact (hw t ht).isKnown
    have hend : eof.isEnd = true := by simp [Token.isEnd, heof]
    refine isOk_of_kinds [] hkinds hall hend ?_
    simp only [List.length_append, List.length_cons]
    omega

/-- Behind `ROW` alone an expression is missing, and a text goes on with `NULL` there. -/
theorem viablePrefix_parse_row :
    (∀ t ∈ rowOne.take 1, t.IsKnown) ∧
      (parse (rowOne.take 1) {}).diagnostics[0]?
        = some ⟨.noViableAlternative "<EOF>" booleanStart, .endOfInput 3 1 3⟩ ∧
      ∃ i, (TokenStream.seen (rowOne.take 1))[i]? = some (.endOfInput 3 1 3) ∧
        ∃ (w : List Token) (config' : Config),
          (parse ((TokenStream.seen (rowOne.take 1)).take i ++ .ofKind .kwNull :: w
            ++ [.endOfInput 3 1 3]) config').isOk = true := by
  have hknown : ∀ t ∈ rowOne.take 1, t.IsKnown := by
    intro t ht hk
    obtain rfl := List.mem_singleton.1 ht
    simp at hk
  have hfirst : (parse (rowOne.take 1) {}).diagnostics[0]?
      = some ⟨.noViableAlternative "<EOF>" booleanStart, .endOfInput 3 1 3⟩ := by decide
  have hlimit : ¬ Diagnostic.IsLimit
      ⟨.noViableAlternative "<EOF>" booleanStart, .endOfInput 3 1 3⟩ := by
    rintro ⟨n, hn⟩
    cases hn
  obtain ⟨i, hi, -, -, hexpected⟩ := viablePrefix_parse (rowOne.take 1) {} hknown _ hfirst hlimit
  have hnull : Kind.kwNull ∈ (⟨.noViableAlternative "<EOF>" booleanStart, .endOfInput 3 1 3⟩ :
      Diagnostic).expected := by decide
  obtain ⟨w, -, -, hok⟩ := hexpected .kwNull hnull
  exact ⟨hknown, hfirst, i, hi, w, ⟨2 * (i + 1 + w.length), true⟩,
    hok (.ofKind .kwNull) (.endOfInput 3 1 3) _ rfl (Token.isKnown_ofKind _) rfl (Nat.le_refl _)⟩

end PipeQuery
