import PipeQuery.Proofs.Acceptance
import PipeQuery.Proofs.Cuts
import PipeQuery.Proofs.PrintedQuery
import PipeQuery.Proofs.Respelled

/-!
# What is printed is read again

The text of a statement is cut into the tokens of the statement in print, with single blanks between
some of them (`Printed.exists_cuts`): where printing leaves no blank, the two tokens do not run
together in the mode in which they are read (`Printed.parts`). The tokens in print are derived by the
same query, up to the case of its keywords, so that they are read as a statement with the same
structure and the same text (`print_parseText`).
-/

namespace PipeQuery

open Lexer

variable {fs : Frames} {ts us : List Token} {t u : Token} {text out : String}

/-! ## Texts in print are cut into the tokens in print -/

/-- The blank between two tokens. -/
def Token.blank : Token := ⟨.whitespace, " ", 0, 1, 1, 0⟩

namespace Printed

/-- What is printed begins with the first token. -/
theorem front (h : Printed (t :: ts) out) : ∃ rest, out.toList = t.written.toList ++ rest := by
  cases h with
  | one => exact ⟨[], (List.append_nil _).symm⟩
  | blank rest => exact ⟨_, String.toList_append⟩
  | touch touches rest => exact ⟨_, String.toList_append⟩

/-- Tokens that touch each other in print do not run together. -/
theorem parts {shape shape' : Shape} {w w' tail tail' : List Char} {fs' fs'' : Frames}
    (h : t.kind.Touches u.kind) (ht : Cut fs shape w tail t fs') (hu : Cut fs' shape' w' tail' u fs'')
    (after : List Char) : Parts fs.current.mode t.kind (u.written.toList ++ after) := by
  rcases h with hopen | hclose | ⟨hname, hdot⟩ | ⟨hdot, hname⟩
  · refine .inr (.inl ?_)
    simp only [List.mem_cons, List.not_mem_nil, or_false] at hopen ⊢
    tauto
  · obtain ⟨c, hc, htext, hbreak, hpattern⟩ : ∃ c, u.kind.isCased = false ∧
        u.kind.fixedText? = some (String.ofList [c]) ∧ c ∈ expressionBreaks ∧
          (u.kind ∉ [Kind.leftParen, .rightParen] → c ∈ patternBreaks) := by
      simp only [List.mem_cons, List.not_mem_nil, or_false] at hclose
      rcases hclose with hk | hk | hk | hk <;> rw [hk]
      · exact ⟨',', rfl, rfl, by decide, by decide⟩
      · exact ⟨'(', rfl, rfl, by decide, by decide⟩
      · exact ⟨')', rfl, rfl, by decide, by decide⟩
      · exact ⟨']', rfl, rfl, by decide, by decide⟩
    have hhead (hmem : c ∈ fs.current.mode.breaks) :
        ∀ d ∈ (u.written.toList ++ after).head?, d ∈ fs.current.mode.breaks := by
      rw [hu.written_eq hc, hu.eq_singleton hc htext]
      intro d hd
      obtain rfl := Option.some.inj hd
      exact hmem
    rcases fs.current.mode.cases_lexeme with ⟨-, -, hbreaks⟩ | hm
    · exact .inl (hhead (hbreaks ▸ hbreak))
    · rcases (ht.of_pattern hm).2 with hk | rfl
      · refine .inr (.inl ?_)
        simp only [List.mem_cons, List.not_mem_nil, or_false] at hk ⊢
        tauto
      · refine .inl (hhead ?_)
        have hnot : u.kind ∉ [Kind.leftParen, .rightParen] := by
          have hnot := (hu.of_pattern hm).1
          simp only [List.mem_cons, List.not_mem_nil, or_false] at hnot ⊢
          tauto
        rcases hm with hm | hm <;> rw [hm] <;> exact hpattern hnot
  · refine .inr (.inr (.inl ⟨hname, ?_⟩))
    have hc : u.kind.isCased = false := by rw [hdot]; rfl
    rw [hu.written_eq hc, hu.eq_singleton hc (by rw [hdot]; rfl)]
    rfl
  · refine .inr (.inr (.inr ⟨hdot, ?_⟩))
    rw [List.head?_append_of_ne_nil _ hu.written_ne_nil]
    exact hu.not_isDigit hname

/-- No text in print begins with a blank. -/
theorem not_isBlank (h : Printed ts out) (hchain : Chain fs ts)
    (hs : ∀ x ∈ ts, x.isSignificant = true ∧ x.kind ≠ .error) :
    ∀ c ∈ out.toList.head?, isBlank c = false := by
  cases hchain with
  | nil => cases h
  | @cons _ _ _ _ _ t ts cut _ =>
    obtain ⟨hsig, herr⟩ := hs t (List.mem_cons_self ..)
    obtain ⟨after, hafter⟩ := h.front
    rw [hafter, List.head?_append_of_ne_nil _ cut.written_ne_nil]
    exact cut.not_isBlank_written hsig herr

/-- A text in print is cut into the tokens in print, with blanks between them. -/
theorem exists_cuts (h : Printed ts out) (hchain : Chain fs ts)
    (hs : ∀ x ∈ ts, x.isSignificant = true ∧ x.kind ≠ .error) :
    ∃ us, Cuts fs out.toList us ∧
      List.Forall₂ Token.Reprinted ts (us.filter Token.isSignificant) := by
  induction h generalizing fs with
  | one t =>
    obtain ⟨hsig, herr⟩ := hs t (List.mem_cons_self ..)
    cases hchain with
    | cons cut _ =>
      let u : Token := { t with text := t.written }
      have hcut : Cut fs _ _ [] u _ := cut.again hsig herr (.inl (by simp)) rfl rfl
      have hu : u.isSignificant = true := hsig
      refine ⟨[u], ?_, ?_⟩
      · simpa using Cuts.cons hcut (.nil _)
      · rw [List.filter_cons_of_pos hu]
        exact .cons ⟨rfl, rfl⟩ .nil
  | @blank t ts text rest ih =>
    obtain ⟨hsig, herr⟩ := hs t (List.mem_cons_self ..)
    cases hchain with
    | cons cut hchain =>
      obtain ⟨us, hcuts, hus⟩ := ih hchain fun x hx => hs x (List.mem_cons_of_mem _ hx)
      let u : Token := { t with text := t.written }
      have hparts : Parts fs.current.mode t.kind (' ' :: text.toList) := by
        refine .inl fun c hc => ?_
        obtain rfl := Option.some.inj hc
        cases fs.current.mode <;> decide
      have hcut : Cut fs _ _ _ u _ := cut.again hsig herr hparts rfl rfl
      have hu : u.isSignificant = true := hsig
      have hnot := rest.not_isBlank hchain fun x hx => hs x (List.mem_cons_of_mem _ hx)
      have hblank {fs : Frames} : Cut fs (.fixed .whitespace) [' '] _ .blank fs :=
        cut_blanks (by simp) (by simp [isBlank]) hnot rfl rfl
      refine ⟨u :: .blank :: us, ?_, ?_⟩
      · have hall := Cuts.cons hcut (Cuts.cons hblank hcuts)
        simpa using hall
      · rw [List.filter_cons_of_pos hu, List.filter_cons_of_neg (by decide)]
        exact .cons ⟨rfl, rfl⟩ hus
  | @touch t v ts text touches rest ih =>
    obtain ⟨hsig, herr⟩ := hs t (List.mem_cons_self ..)
    cases hchain with
    | cons cut hchain =>
      obtain ⟨us, hcuts, hus⟩ := ih hchain fun x hx => hs x (List.mem_cons_of_mem _ hx)
      cases hchain with
      | cons cut' _ =>
        obtain ⟨after, hafter⟩ := rest.front
        let u : Token := { t with text := t.written }
        have hcut : Cut fs _ _ _ u _ := cut.again hsig herr (parts touches cut cut' after) rfl rfl
        have hu : u.isSignificant = true := hsig
        refine ⟨u :: us, ?_, ?_⟩
        · have hall := Cuts.cons hcut (hafter ▸ hcuts)
          simpa [hafter] using hall
        · rw [List.filter_cons_of_pos hu]
          exact .cons ⟨rfl, rfl⟩ hus

end Printed

/-! ## Printed queries are read again -/

/-- The tokens of a text: what it is cut into, and what of it the grammar sees. -/
theorem exists_cuts_tokenize (text : String) :
    ∃ ts e, tokenize text = ts ++ [e] ∧ Cuts (.start .command) text.toList ts ∧
      (TokenStream.significant (tokenize text)).map Prod.fst = ts.filter Token.isSignificant ∧
      significantTokens text = ts.filter Token.isSignificant ++ [e] ∧ e.kind = .endOfInput := by
  obtain ⟨ts, e, htokens, he, hcuts⟩ := exists_cuts_tokenizeFrom .command text
  have htokens : tokenize text = ts ++ [e] := htokens
  have hend : e.isEnd = true := by simp [Token.isEnd, he]
  refine ⟨ts, e, htokens, hcuts, ?_, ?_, he⟩
  · rw [htokens, TokenStream.map_fst_significant (fun t ht => (hcuts.spelled t ht).2) hend]
  · rw [significantTokens, htokens, List.filter_append]
    simp [Token.isSignificant, he, Kind.isTrivia]

/-- The tokens of a text are spelled as the grammar expects. -/
theorem spelled_significant (text : String) :
    ∀ x ∈ TokenStream.significant (tokenize text), x.1.Spelled := by
  obtain ⟨ts, -, -, hcuts, hseen, -⟩ := exists_cuts_tokenize text
  intro x hx
  have hmem : x.1 ∈ ts.filter Token.isSignificant := by
    rw [← hseen]
    exact List.mem_map_of_mem hx
  exact (hcuts.spelled _ (List.mem_filter.1 hmem).1).1

theorem fits_tokenize (text : String) : ∀ t ∈ tokenize text, t.Fits := by
  obtain ⟨ts, e, htokens, hcuts, -, -, he⟩ := exists_cuts_tokenize text
  intro t ht
  rw [htokens, List.mem_append, List.mem_singleton] at ht
  rcases ht with ht | rfl
  · exact (hcuts.spelled t ht).1.fits
  · constructor <;>
      · intro hk
        rw [he] at hk
        cases hk

/-- What is as good as a reprinted token is reprinted. -/
theorem forall₂_reprinted_trans (h : List.Forall₂ Token.Reprinted ts us) {vs : List Token}
    (h' : List.Forall₂ (fun t t' => t.kind = t'.kind ∧ t.text = t'.text) us vs) :
    List.Forall₂ Token.Reprinted ts vs := by
  induction h generalizing vs with
  | nil =>
    cases h'
    exact .nil
  | cons htu _ ih =>
    cases h' with
    | cons huv h' => exact .cons ⟨huv.1 ▸ htu.kind, huv.2 ▸ htu.text⟩ (ih h')

/-- The tokens of a text in print are the tokens in print. -/
theorem Printed.reprinted (hp : Printed ts out) (hchain : Chain fs ts)
    (hs : ∀ t ∈ ts, t.isSignificant = true ∧ t.kind ≠ .error) {vs : List Token}
    (hvs : Cuts fs out.toList vs) : List.Forall₂ Token.Reprinted ts (vs.filter Token.isSignificant) := by
  obtain ⟨us, hus, hre⟩ := hp.exists_cuts hchain hs
  have hsame : List.Forall₂ (fun t t' => t.kind = t'.kind ∧ t.text = t'.text)
      (us.filter Token.isSignificant) (vs.filter Token.isSignificant) := by
    refine List.rel_filter (fun t t' htt' => ?_) (hus.unique hvs)
    simp only [Token.isSignificant, htt'.1]
  exact forall₂_reprinted_trans hre hsame

/-- The tokens of a text that was cut are those of the text in print. -/
theorem reprinted_significant (hp : Printed (ts.filter Token.isSignificant) out)
    (hcuts : Cuts (.start .command) text.toList ts)
    (he : ∀ t ∈ ts.filter Token.isSignificant, t.kind ≠ .error) {vs : List Token}
    (hvs : Cuts (.start .command) out.toList vs) :
    List.Forall₂ Token.Reprinted (ts.filter Token.isSignificant)
      (vs.filter Token.isSignificant) :=
  hp.reprinted hcuts.chain (fun t ht => ⟨(List.mem_filter.1 ht).2, he t ht⟩) hvs

/-- Tokens that look in print like those of a query are read as that query, up to spans and the case
of its keywords. -/
theorem Query.parse_respelled {q : Query} {ps : List Placed} {tokens : List Token} {config : Config}
    (hq : Yields id false ⟨false, config.maxDepth⟩ [.same (.query q)] ps)
    (hre : List.Forall₂ (fun x y => y.1.inPrint = x.1.inPrint) ps
      (TokenStream.significant tokens)) :
    (parse tokens config).isOk = true ∧
      (parse tokens config).statement.query.erase Token.inPrint = q.erase Token.inPrint := by
  obtain ⟨hdiagnostics, herase⟩ := Grammar.reads_statement config (hq.respelled (by simp) hre)
  exact ⟨isOk_parse.2 hdiagnostics, herase⟩

/-- Reprinted tokens of a query are read as a statement that looks the same. -/
theorem Query.parse_reprinted {q : Query} {ps : List Placed} {tokens : List Token} {config : Config}
    (hq : Yields id false ⟨false, config.maxDepth⟩ [.same (.query q)] ps)
    (hre : List.Forall₂ (fun x y => x.1.Reprinted y.1) ps (TokenStream.significant tokens)) :
    (parse tokens config).isOk = true ∧ (parse tokens config).statement.text = q.text ∧
      (parse tokens config).statement.sexpr = q.sexpr := by
  obtain ⟨hok, herase⟩ := Query.parse_respelled hq (hre.imp fun _ _ h => h.inPrint)
  have hshown := Query.shown_erase Token.toUpper_inPrint
  refine ⟨hok, ?_, ?_⟩
  · rw [Statement.text, ← (hshown _).1, herase, (hshown _).1]
  · rw [Statement.sexpr, ← (hshown _).2, herase, (hshown _).2]

/-- Reprinted tokens are read as a statement that looks the same. -/
theorem reprinted_parse {tokens tokens' : List Token} {config : Config}
    (hfits : ∀ t ∈ tokens, t.Fits) (hok : (parse tokens config).isOk = true)
    (hre : List.Forall₂ (fun x y => x.1.Reprinted y.1) (TokenStream.significant tokens)
      (TokenStream.significant tokens')) :
    (parse tokens' config).isOk = true ∧
      (parse tokens' config).statement.text = (parse tokens config).statement.text ∧
      (parse tokens' config).statement.sexpr = (parse tokens config).statement.sexpr :=
  Query.parse_reprinted (isOf_parse hfits hok) hre

/-- The text of a statement that was read without a diagnostic is its tokens in print. -/
theorem printed_parse {tokens : List Token} {config : Config}
    (hs : ∀ x ∈ TokenStream.significant tokens, x.1.Spelled) (hfits : ∀ t ∈ tokens, t.Fits)
    (hok : (parse tokens config).isOk = true) :
    Printed ((TokenStream.significant tokens).map Prod.fst) (parse tokens config).statement.text ∧
      ∀ t ∈ (TokenStream.significant tokens).map Prod.fst, t.kind ≠ .error := by
  have hq := isOf_parse hfits hok
  refine ⟨hq.printed hs, ?_⟩
  rw [List.forall_mem_map]
  exact hq.ne_error (by simp)

/-- What is printed is read again: the printed text of a statement that was read without a
diagnostic is read without one too, as a statement with the same structure and the same text, and
its tokens are of the same kinds in the same order. -/
theorem print_parseText (text : String) (hok : (parseText text).isOk = true) :
    (parseText (parseText text).statement.text).isOk = true ∧
      (parseText (parseText text).statement.text).statement.sexpr
        = (parseText text).statement.sexpr ∧
      (parseText (parseText text).statement.text).statement.text
        = (parseText text).statement.text ∧
      (significantTokens (parseText text).statement.text).map Token.kind
        = (significantTokens text).map Token.kind := by
  obtain ⟨ts, e, -, hcuts, hseen, hsig, he⟩ := exists_cuts_tokenize text
  obtain ⟨hprinted, herror⟩ := printed_parse (spelled_significant text) (fits_tokenize text) hok
  rw [hseen] at hprinted herror
  rw [← parseText] at hprinted
  generalize hout : (parseText text).statement.text = out at hprinted ⊢
  obtain ⟨us, e', -, hcuts', hseen', hsig', he'⟩ := exists_cuts_tokenize out
  have hre := reprinted_significant hprinted hcuts herror hcuts'
  have hstretch : List.Forall₂ (fun x y => x.1.Reprinted y.1)
      (TokenStream.significant (tokenize text)) (TokenStream.significant (tokenize out)) := by
    rw [← hseen, ← hseen'] at hre
    exact List.forall₂_map_right_iff.1 (List.forall₂_map_left_iff.1 hre)
  obtain ⟨hok', htext, hsexpr⟩ := reprinted_parse (fits_tokenize text) hok hstretch
  have hkinds : (us.filter Token.isSignificant).map Token.kind
      = (ts.filter Token.isSignificant).map Token.kind := by
    rw [← List.forall₂_eq_eq_eq, List.forall₂_map_left_iff, List.forall₂_map_right_iff]
    exact (hre.imp fun _ _ h => h.kind).flip
  refine ⟨hok', hsexpr, htext.trans hout, ?_⟩
  rw [hsig, hsig', List.map_append, List.map_append, hkinds, List.map_singleton,
    List.map_singleton, he, he']

theorem print_parseText_limitTwo :
    (parseText "row a=-1|limit 2").isOk = true ∧
      (parseText "row a=-1|limit 2").statement.text = "ROW a = -1 | LIMIT 2" ∧
      (parseText (parseText "row a=-1|limit 2").statement.text).statement.sexpr
        = (parseText "row a=-1|limit 2").statement.sexpr :=
  ⟨by decide +kernel, by decide +kernel, (print_parseText _ (by decide +kernel)).2.1⟩

end PipeQuery
