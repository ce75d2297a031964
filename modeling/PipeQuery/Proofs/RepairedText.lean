import PipeQuery.Proofs.Recuts

/-!
# Repaired queries are valid

Whatever a text is, its statement is a query of the language if nothing is missing in it, that is, if
no command of it could not be read and none of its leaves was taken for granted: its printed text is
read without a diagnostic, as a statement of the same structure (`repaired_parseText`). So what was
deleted, inserted and passed over to repair the text leaves a tree that the grammar can build, out of
tokens that are read in print as what they stand for, and within the depth limit.
-/

namespace PipeQuery

open Lexer

/-! ## Tokens in print -/

theorem Token.reprinted_inPrint (t : Token) : t.Reprinted t.inPrint := ⟨rfl, rfl⟩

theorem Token.written_inPrint (t : Token) : t.inPrint.written = t.written :=
  written_eq_of_reprinted t.reprinted_inPrint

theorem Token.Reprinted.of_inPrint {t u : Token} (h : t.inPrint.Reprinted u) : t.Reprinted u :=
  ⟨h.kind, h.text.trans t.written_inPrint⟩

/-- Printing tokens that are in print already changes nothing. -/
theorem Printed.inPrint {ts : List Token} {text : String} (h : Printed ts text) :
    Printed (ts.map Token.inPrint) text := by
  induction h with
  | one t => exact .single t.written_inPrint
  | blank _ ih => exact .word (Token.written_inPrint _) ih
  | @touch t u ts text touches _ ih =>
    rw [← t.written_inPrint]
    exact .touch touches ih

theorem Lexer.Frames.Admits.not_isPlaceholder {Q : Frames → Prop} {fs : Frames} {xs : List Placed}
    (h : fs.Admits Q xs) : ∀ x ∈ xs, x.1.kind.isLeaf = true → ¬ IsPlaceholder x.1.text := by
  induction xs generalizing fs with
  | nil => simp
  | cons x xs ih => exact List.forall_mem_cons.2 ⟨h.2.1, ih h.2.2⟩

/-! ## Texts -/

/-- A query in which nothing is missing, made of tokens that stem from a text, is read from its
printed text. -/
theorem Query.reads_text {q : Query} {text : String} {us : List Placed} {config : Config}
    (hy : Grammar.Builds ⟨false, config.maxDepth⟩ (.query q) us) (hq : (Phrase.query q).Intact)
    (hstems : ∀ x ∈ us, Grammar.Stems (TokenStream.significant (tokenize text)) x) :
    (parse (tokenize q.text) config).isOk = true ∧
      (parse (tokenize q.text) config).statement.sexpr = q.sexpr := by
  have hadmits := Yields.admits_query hy hq
  have hasked := Yields.askable hy (by simp)
  have hspelled : ∀ x ∈ us, x.1.Spelled :=
    fun x hx => (hstems x hx).spelled (hadmits.not_isPlaceholder x hx)
  have hsolid : ∀ x ∈ us, x.1.isSignificant = true ∧ x.1.kind ≠ .error :=
    fun x hx => ⟨(hasked x hx).isSignificant, (hasked x hx).ne_error⟩
  -- in print the tokens are those of the printed text
  have hchain := hadmits.chain fun x hx => ⟨hstems x hx, hsolid x hx⟩
  have hprinted : Printed (us.map (·.1.inPrint)) q.text := by
    have hprinted := (Yields.printed hy hspelled).inPrint
    rwa [List.map_map] at hprinted
  obtain ⟨vs, -, -, hcuts, hseen, -⟩ := exists_cuts_tokenize q.text
  have hre := hprinted.reprinted hchain (List.forall_mem_map.2 hsolid) hcuts
  rw [← hseen, List.forall₂_map_left_iff, List.forall₂_map_right_iff] at hre
  -- so the grammar derives them as the same query
  obtain ⟨hok, -, hsexpr⟩ := Query.parse_reprinted hy (hre.imp fun _ _ h => h.of_inPrint)
  exact ⟨hok, hsexpr⟩

/-- Whatever was reported of a text: if no command of its statement is missing, at any level, and no
name, number or string of it was taken for granted, the printed statement is read without a
diagnostic, as a statement with the same structure. -/
theorem repaired_parseText (text : String)
    (h : (Phrase.query (parseText text).statement.query).Intact) :
    (parseText (parseText text).statement.text).isOk = true ∧
      (parseText (parseText text).statement.text).statement.sexpr
        = (parseText text).statement.sexpr := by
  unfold parseText at h ⊢
  obtain ⟨us, hy, hstems⟩ := Grammar.exists_builds_parse rfl (tokenize text) h
  exact Query.reads_text hy h hstems

theorem repaired_parseText_paren :
    (parseText "row a = (1 + 2 | limit 3 4").isOk = false ∧
      (parseText "row a = (1 + 2 | limit 3 4").statement.text = "ROW a = (1 + 2) | LIMIT 3" ∧
      (Phrase.query (parseText "row a = (1 + 2 | limit 3 4").statement.query).Intact ∧
      (parseText (parseText "row a = (1 + 2 | limit 3 4").statement.text).isOk = true := by
  have hintact : (Phrase.query (parseText "row a = (1 + 2 | limit 3 4").statement.query).Intact :=
    Phrase.intact_of_isIntact (n := 16) (by decide +kernel)
  exact ⟨by decide +kernel, by decide +kernel, hintact, (repaired_parseText _ hintact).1⟩

end PipeQuery
