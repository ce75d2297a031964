import PipeQuery.Proofs.Ahead

/-!
# Queries in the brackets of `EXPLAIN`

A query that is read without a diagnostic is read without one in the brackets of an `EXPLAIN` too,
if one more level of nesting is allowed, and it is the same query there (`explain_parse`).

The grammar takes such a query as it is. What is to be shown is that its text is cut into the same
tokens. A query begins and ends in the same frame, whatever is around it
(`Yields.through_query`): so it does not close the bracket in front of it, and the bracket behind it
does. A line feed in front of that bracket ends a comment, if the query ends with one.
-/

namespace PipeQuery

open Lexer

variable {ρ : Token → Token} {exact : Bool} {c : Context} {items : List Item} {ps : List Placed}
  {fs : Frames} {Q : Frames → Prop} {text : String} {config : Config}

/-! ## The frames behind a query -/

/-- What the grammar derives leads from the frames in front of it to the frames behind it. -/
theorem Yields.through (h : Yields ρ exact c items ps) (hw : Item.Wp Q items fs) :
    Q (fs.through (ps.map (·.1.kind))) := by
  induction h generalizing Q fs with
  | nil => exact hw
  | terminal token rest ih =>
    obtain ⟨-, -, hw⟩ := hw _ token.kind_mem
    exact ih hw
  | @phrase c d nesting p items ps qs inside admissible parts span rest ihp ih =>
    obtain ⟨hstarts, hw⟩ := hw
    rw [List.map_append, Frames.through_append]
    refine ih (hw _ ?_)
    cases hleaf : p.leaf? with
    | none => exact ihp (Phrase.wp_items admissible hleaf hstarts)
    | some leaf =>
      obtain ⟨hitems, hk, -, hleads⟩ := Phrase.of_leaf hleaf admissible hstarts
      rw [hitems] at parts
      obtain ⟨x, rfl, hx, -⟩ := Yields.singleton_terminal_iff.1 parts
      rw [List.map_singleton, Frames.through_cons, Frames.through_nil, hx,
        Frames.behind_of_isLeaf hk]
      exact hleads

/-- A query ends in the frame in which it began, in one of the modes. -/
theorem Yields.through_query {q : Query} (h : Yields ρ exact c [.same (.query q)] ps)
    (outer : List Frame) :
    ∃ m, (Frames.mk ⟨.command, 0⟩ outer).through (ps.map (·.1.kind)) = ⟨⟨m, 0⟩, outer⟩ :=
  h.through (Q := fun fs => ∃ m, fs = ⟨⟨m, 0⟩, outer⟩) ⟨rfl, fun _ hfs => hfs⟩

/-! ## The tokens of an `EXPLAIN` -/

/-- A query in the brackets of an `EXPLAIN`, each bracket on a line of its own. -/
def explained (text : String) : String := "EXPLAIN [\n" ++ text ++ "\n]"

/-- The tokens in front of the query. -/
theorem pieces_explain : pieces .command "EXPLAIN [" =
    [⟨.kwExplain, "EXPLAIN", 0, 7, 1, 0⟩, ⟨.leftBracket, "[", 8, 9, 1, 8⟩] := by
  decide +kernel

/-- They open a query, wherever they stand. -/
theorem cutsAhead_explain : CutsAhead (.start .command) "EXPLAIN [\n".toList
    (pieces .command "EXPLAIN [") ⟨⟨.command, 0⟩, [⟨.expression, 0⟩]⟩ := by
  have hahead := cutsAhead_pieces (b := '\n') .command "EXPLAIN [" rfl (by decide +kernel)
  rw [pieces_explain] at hahead ⊢
  exact hahead

/-- The token behind the query. -/
def closing : Token := ⟨.rightBracket, "]", 0, 1, 1, 0⟩

theorem cuts_closing (fs : Frames) : Cuts fs [']'] [closing] := by
  have hlexeme : fs.current.mode.lexeme [']'] = ⟨.rightBracket, 1⟩ := by
    cases fs.current.mode <;> decide
  have hcut : Cut fs .rightBracket [']'] [] closing fs.closeBracket :=
    ⟨hlexeme, by simp, rfl, rfl⟩
  exact .cons hcut (.nil _)

/-- A query in brackets has the tokens of the query in brackets. -/
theorem inPrint_explained (hok : (parse (tokenize text) config).isOk = true) :
    (pieces .command (explained text)).map Token.inPrint
      = (pieces .command "EXPLAIN [" ++ pieces .command text ++ [closing]).map Token.inPrint := by
  have hq := isOf_parse (fits_tokenize text) hok
  have hseen := map_fst_significant_tokenizeFrom .command text
  obtain ⟨ts, e, htokens, he, hcuts⟩ := exists_cuts_tokenizeFrom .command text
  have hpieces := pieces_eq htokens he hcuts
  have hthrough (outer : List Frame) : ∃ m,
      (Frames.mk ⟨.command, 0⟩ outer).through (ts.map Token.kind) = ⟨⟨m, 0⟩, outer⟩ := by
    rw [← Frames.through_filter, ← hpieces, ← hseen, List.map_map]
    exact hq.through_query outer
  have herror : ∀ t ∈ ts, t.kind ≠ .error := by
    intro t ht hk
    have hmem : t ∈ pieces .command text := by
      rw [hpieces]
      exact List.mem_filter.2 ⟨ht, by rw [Token.isSignificant, hk]; rfl⟩
    rw [← hseen, List.mem_map] at hmem
    obtain ⟨x, hx, rfl⟩ := hmem
    exact hq.ne_error (by simp) x hx hk
  -- with another frame around it, the query would end in other frames if it closed its bracket
  have hinside : Cuts ⟨⟨.command, 0⟩, [⟨.expression, 0⟩]⟩ text.toList ts := by
    refine hcuts.inside (fun frame heq => ?_) ⟨.expression, 0⟩
    obtain ⟨m, hm⟩ := hthrough []
    obtain ⟨m', hm'⟩ := hthrough [frame]
    have hsame := hm'.symm.trans (heq.trans hm)
    simp at hsame
  obtain ⟨m, hm⟩ := hthrough [⟨.expression, 0⟩]
  have hahead := hinside.ahead (b := '\n') rfl fun t ht => ⟨herror t ht, fun _ => rfl⟩
  rw [hm, ← hpieces] at hahead
  obtain ⟨us, hus, husig⟩ := hahead (cuts_closing _)
  obtain ⟨vs, hvs, hvsig⟩ := cutsAhead_explain hus
  have hout : (explained text).toList
      = "EXPLAIN [\n".toList ++ (text.toList ++ ['\n'] ++ [']']) := by
    simp [explained, String.toList_append]
  rw [Cuts.inPrint_pieces (hout ▸ hvs), hvsig, husig, List.append_assoc]
  rfl

/-! ## Queries in brackets -/

/-- The same configuration with more levels of nesting. -/
def Config.deeper (config : Config) (n : Nat) : Config :=
  { config with maxDepth := config.maxDepth + n }

/-- A query in brackets is derived from the tokens of the query in brackets. -/
theorem Query.IsOf.explained {q : Query} {n : Nat} {tokens : List Token} (hq : q.IsOf n tokens)
    (span : Span) (keyword left right : Placed) (hkeyword : keyword.1.kind = .kwExplain)
    (hleft : left.1.kind = .leftBracket) (hright : right.1.kind = .rightBracket) :
    Yields id false ⟨false, n + 1⟩
      [.same (.query (.source (.command keyword.1 (.explain q) span)))]
      (keyword :: left :: (TokenStream.significant tokens ++ [right])) := by
  have hinner : Yields id false ⟨false, n + 1⟩ [.deeper (.query q)]
      (TokenStream.significant tokens) := Yields.deeper_succ_iff.2 hq
  have hclause : Yields id false ⟨false, n + 1⟩ ((SourceClause.explain q).items keyword.1)
      (keyword :: left :: (TokenStream.significant tokens ++ [right])) :=
    .terminal ⟨by simp [hkeyword], rfl⟩
      (.terminal hleft (hinner.append (.terminal hright (.nil _))))
  have hcommand : Yields id false ⟨false, n + 1⟩
      [.same (.sourceCommand (.command keyword.1 (.explain q) span))]
      (keyword :: left :: (TokenStream.significant tokens ++ [right])) :=
    .same trivial hclause
  exact .same trivial hcommand

theorem form_explain (sexpr : String) : form "explain" [sexpr] = "(explain " ++ sexpr ++ ")" := by
  change "(" ++ ("explain" ++ " " ++ sexpr) ++ ")" = _
  rw [← String.append_assoc, ← String.append_assoc]
  rfl

/-- What is shown of a query that is the same, up to spans and the case of its keywords, as another
one in brackets. -/
theorem Query.shown_explained {q q' : Query} {keyword : Token} {span : Span}
    (h : q'.erase Token.inPrint
      = (Query.source (.command keyword (.explain q) span)).erase Token.inPrint) :
    q'.sexpr = "(explain " ++ q.sexpr ++ ")" ∧ q'.text = "EXPLAIN [ " ++ q.text ++ " ]" ∧
      q'.indexPattern = q.indexPattern := by
  obtain ⟨htext, hsexpr⟩ := Query.shown_erase Token.toUpper_inPrint q'
  have hshown := Query.shown_erase Token.toUpper_inPrint
    (.source (.command keyword (.explain q) span))
  have hpattern := Query.indexPattern_erase Token.inPrint
  rw [h] at htext hsexpr
  refine ⟨?_, htext.symm.trans hshown.1, ?_⟩
  · rw [← hsexpr, hshown.2, ← form_explain]
    rfl
  · rw [← hpattern q', h, hpattern]
    rfl

/-- A query in brackets is read as the query in brackets, one level of nesting deeper. -/
theorem explained_parse (hok : (parse (tokenize text) config).isOk = true) :
    (parse (tokenize (explained text)) (config.deeper 1)).isOk = true ∧
      (parse (tokenize (explained text)) (config.deeper 1)).statement.sexpr
        = "(explain " ++ (parse (tokenize text) config).statement.sexpr ++ ")" ∧
      (parse (tokenize (explained text)) (config.deeper 1)).statement.text
        = "EXPLAIN [ " ++ (parse (tokenize text) config).statement.text ++ " ]" ∧
      (parse (tokenize (explained text)) (config.deeper 1)).statement.indexPattern
        = (parse (tokenize text) config).statement.indexPattern := by
  have hq := isOf_parse (fits_tokenize text) hok
  have hpieces := inPrint_explained hok
  generalize (parse (tokenize text) config).statement = s at hq ⊢
  let keyword : Token := ⟨.kwExplain, "EXPLAIN", 0, 7, 1, 0⟩
  let left : Token := ⟨.leftBracket, "[", 8, 9, 1, 8⟩
  let inner : List Placed := TokenStream.significant (tokenize text)
  have hyields : Yields id false ⟨false, (config.deeper 1).maxDepth⟩
      [.same (.query (.source (.command keyword (.explain s.query) default)))]
      ((keyword, 0) :: (left, 0) :: (inner ++ [(closing, 0)])) :=
    hq.explained default (keyword, 0) (left, 0) (closing, 0) rfl rfl rfl
  have hlook : (TokenStream.significant (tokenize (explained text))).map (·.1.inPrint)
      = ((keyword, 0) :: (left, 0) :: (inner ++ [(closing, 0)])).map (·.1.inPrint) := by
    have hinner : inner.map (·.1.inPrint) = (pieces .command text).map Token.inPrint :=
      map_inPrint_significant_tokenizeFrom .command text
    rw [tokenize, map_inPrint_significant_tokenizeFrom, hpieces, pieces_explain]
    simp [keyword, left, hinner]
  obtain ⟨hok', herase⟩ := Query.parse_respelled hyields (forall₂_inPrint_iff.2 hlook)
  exact ⟨hok', Query.shown_explained herase⟩

/-- `EXPLAIN` is compositional. If a text is read without a diagnostic, so is the text in any number
of brackets, each behind an `EXPLAIN` of its own, where one more level of nesting is allowed for
each of them. The statement is that of the text in as many brackets, and its index pattern is the
same. -/
theorem explain_parse (text : String) (config : Config)
    (hok : (parse (tokenize text) config).isOk = true) (n : Nat) :
    (parse (tokenize (explained^[n] text)) (config.deeper n)).isOk = true ∧
      (parse (tokenize (explained^[n] text)) (config.deeper n)).statement.sexpr
        = (fun sexpr => "(explain " ++ sexpr ++ ")")^[n]
            (parse (tokenize text) config).statement.sexpr ∧
      (parse (tokenize (explained^[n] text)) (config.deeper n)).statement.text
        = (fun text => "EXPLAIN [ " ++ text ++ " ]")^[n]
            (parse (tokenize text) config).statement.text ∧
      (parse (tokenize (explained^[n] text)) (config.deeper n)).statement.indexPattern
        = (parse (tokenize text) config).statement.indexPattern := by
  induction n with
  | zero => exact ⟨hok, rfl, rfl, rfl⟩
  | succ n ih =>
    obtain ⟨hok, hsexpr, htext, hpattern⟩ := ih
    have hdeeper : config.deeper (n + 1) = (config.deeper n).deeper 1 := rfl
    simp only [Function.iterate_succ_apply', hdeeper]
    rw [← hsexpr, ← htext, ← hpattern]
    exact explained_parse hok

/-- Two brackets around a query that has brackets of its own and ends with a comment. -/
theorem explain_parse_twice :
    (parse (tokenize "EXPLAIN [FROM a, b] // ]") {}).isOk = true ∧
      (parse (tokenize (explained^[2] "EXPLAIN [FROM a, b] // ]")) ⟨130, true⟩).isOk = true ∧
      (parse (tokenize (explained^[2] "EXPLAIN [FROM a, b] // ]")) ⟨130, true⟩).statement.text
        = "EXPLAIN [ EXPLAIN [ EXPLAIN [ FROM a, b ] ] ]" ∧
      (parse (tokenize (explained^[2] "EXPLAIN [FROM a, b] // ]"))
        ⟨130, true⟩).statement.indexPattern = some "a,b" := by
  have hok : (parse (tokenize "EXPLAIN [FROM a, b] // ]") {}).isOk = true := by decide +kernel
  obtain ⟨hok', -, htext, hpattern⟩ := explain_parse _ {} hok 2
  exact ⟨hok, hok', htext.trans (by decide +kernel), hpattern.trans (by decide +kernel)⟩

end PipeQuery
