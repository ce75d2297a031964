import PipeQuery.Proofs.Cuts

/-!
# Layout

The tokens of a text do not depend on the blanks between them. A text without an error token is a
chain of tokens, each of which is cut off again in front of a blank, and the modes between them do
not see the blanks and comments that are lost or put in. So the tokens of the text, written down
with any blanks between them, are its tokens again (`layout_tokenizeFrom`).
-/

namespace PipeQuery

open Lexer

variable {fs : Frames} {ts : List Token} {t : Token} {out : List Char}

/-- Pieces of text written one after the other with blanks between them, and perhaps behind them. -/
inductive Spaced : List String → List Char → Prop
  | nil : Spaced [] []
  | last (piece : String) : Spaced [piece] piece.toList
  | next (piece : String) {pieces : List String} {blanks out : List Char} (hne : blanks ≠ [])
    (hblanks : ∀ c ∈ blanks, isBlank c = true) (rest : Spaced pieces out) :
    Spaced (piece :: pieces) (piece.toList ++ (blanks ++ out))

/-- A blank breaks off the tokens of every mode. -/
theorem Lexer.Mode.mem_breaks_of_isBlank (m : Mode) {c : Char} (h : isBlank c = true) :
    c ∈ m.breaks := by
  simp only [isBlank, Bool.or_eq_true, beq_iff_eq] at h
  obtain ((rfl | rfl) | rfl) | rfl := h <;> cases m <;> decide

namespace Spaced

/-- Pieces with blanks between them begin as the first of them does. -/
theorem not_isBlank (h : Spaced (ts.map Token.text) out) (hchain : Chain fs ts)
    (hs : ∀ x ∈ ts, x.isSignificant = true) : ∀ c ∈ out.head?, isBlank c = false := by
  cases hchain with
  | nil =>
    cases h
    simp
  | @cons _ _ _ w _ t ts cut _ =>
    have hw : t.text.toList = w := by rw [cut.text, String.toList_ofList]
    have hfront : ∃ rest, out = w ++ rest := by
      generalize hpieces : (t :: ts).map Token.text = pieces at h
      cases h with
      | nil => simp at hpieces
      | last piece => exact ⟨[], by simp_all⟩
      | next piece => exact ⟨_, by simp_all; rfl⟩
    obtain ⟨rest, rfl⟩ := hfront
    rw [List.head?_append_of_ne_nil _ cut.ne_nil]
    exact cut.not_isBlank (hs t (List.mem_cons_self ..))

/-- The tokens of a chain are cut off again when they are written down with blanks between them. -/
theorem exists_cuts (h : Spaced (ts.map Token.text) out) (hchain : Chain fs ts)
    (hs : ∀ x ∈ ts, x.isSignificant = true ∧ x.kind ≠ .error) :
    ∃ us, Cuts fs out us ∧ us.filter Token.isSignificant = ts := by
  induction hchain generalizing out with
  | nil fs =>
    cases h
    exact ⟨[], .nil fs, rfl⟩
  | @cons fs fs' shape w tail t ts cut hchain ih =>
    obtain ⟨hsig, herr⟩ := hs t (List.mem_cons_self ..)
    have hrest := fun x hx => hs x (List.mem_cons_of_mem t hx)
    have hw : t.text.toList = w := by rw [cut.text, String.toList_ofList]
    generalize hpieces : (t :: ts).map Token.text = pieces at h
    cases h with
    | nil => cases hpieces
    | last piece =>
      obtain ⟨rfl, hnil⟩ := List.cons.inj hpieces
      obtain rfl := List.map_eq_nil_iff.1 hnil
      refine ⟨[t], ?_, by simp [hsig]⟩
      have hcut : Cut fs shape w [] t fs' := cut.again_of_breaks hsig herr (by simp)
      simpa [hw] using Cuts.cons hcut (.nil fs')
    | @next piece pieces blanks out hne hblanks rest =>
      obtain ⟨rfl, rfl⟩ := List.cons.inj hpieces
      obtain ⟨us, hcuts, hus⟩ := ih rest hrest
      let u : Token := { t with kind := .whitespace, text := String.ofList blanks }
      have hcut : Cut fs shape w (blanks ++ out) t fs' := by
        refine cut.again_of_breaks hsig herr fun c hc => fs.current.mode.mem_breaks_of_isBlank ?_
        rw [List.head?_append_of_ne_nil _ hne] at hc
        exact hblanks c (List.mem_of_mem_head? hc)
      have hblank : Cut fs' (.fixed .whitespace) blanks out u fs' :=
        cut_blanks hne hblanks (rest.not_isBlank hchain fun x hx => (hrest x hx).1) rfl rfl
      refine ⟨t :: u :: us, ?_, ?_⟩
      · rw [hw]
        exact .cons hcut (.cons hblank hcuts)
      · have hu : u.isSignificant = false := rfl
        rw [List.filter_cons_of_pos hsig, List.filter_cons_of_neg (by simp [hu]), hus]

end Spaced

/-- The tokens that a text is made of, without blanks and comments. -/
def pieces (mode : Mode) (text : String) : List Token :=
  (tokenizeFrom mode text).filter fun t => t.isSignificant && !t.isEnd

/-- What a text is cut into makes up its tokens. -/
theorem pieces_eq {m : Mode} {text : String} {e : Token} (htokens : tokenizeFrom m text = ts ++ [e])
    (he : e.kind = .endOfInput) (hcuts : Cuts (.start m) text.toList ts) :
    pieces m text = ts.filter Token.isSignificant := by
  have hend : ∀ t ∈ ts, t.isEnd = false := fun t ht => (hcuts.spelled t ht).2
  rw [pieces, htokens, List.filter_append, List.filter_congr (q := Token.isSignificant)]
  · simp [Token.isEnd, he]
  · intro t ht
    simp [hend t ht]

/-- Layout does not change the tokens. -/
theorem layout_tokenizeFrom (m : Mode) (text out : String)
    (herror : ∀ t ∈ tokenizeFrom m text, t.kind ≠ .error)
    (hout : Spaced ((pieces m text).map Token.text) out.toList) :
    (pieces m out).map (fun t => (t.kind, t.text))
      = (pieces m text).map fun t => (t.kind, t.text) := by
  obtain ⟨ts, e, htokens, he, hcuts⟩ := exists_cuts_tokenizeFrom m text
  obtain ⟨us, e', htokens', he', hcuts'⟩ := exists_cuts_tokenizeFrom m out
  rw [pieces_eq htokens he hcuts] at hout
  rw [pieces_eq htokens he hcuts, pieces_eq htokens' he' hcuts']
  have hsolid : ∀ t ∈ ts.filter Token.isSignificant, t.isSignificant = true ∧ t.kind ≠ .error := by
    intro t ht
    obtain ⟨hmem, hsig⟩ := List.mem_filter.1 ht
    exact ⟨hsig, herror t (by simp [htokens, hmem])⟩
  obtain ⟨vs, hvs, hsame⟩ := hout.exists_cuts hcuts.chain hsolid
  have hrel := List.rel_filter (p := Token.isSignificant) (q := Token.isSignificant)
    (fun t t' htt' => by simp only [Token.isSignificant, htt'.1]) (hcuts'.unique hvs)
  rw [hsame] at hrel
  rw [← List.forall₂_eq_eq_eq, List.forall₂_map_left_iff, List.forall₂_map_right_iff]
  exact hrel.imp fun _ _ h => Prod.ext h.1 h.2

theorem layout_tokenizeFrom_limitTwo :
    (∀ t ∈ tokenizeFrom .command "limit/* all */2", t.kind ≠ .error) ∧
      Spaced ((pieces .command "limit/* all */2").map Token.text) "limit\t\n2".toList ∧
      (pieces .command "limit\t\n2").map (fun t => (t.kind, t.text))
        = [(.kwLimit, "limit"), (.integer, "2")] := by
  have herror : ∀ t ∈ tokenizeFrom .command "limit/* all */2", t.kind ≠ .error := by
    decide +kernel
  have hpieces : (pieces .command "limit/* all */2").map Token.text = ["limit", "2"] := by
    decide +kernel
  have hout : Spaced ["limit", "2"] ("limit".toList ++ (['\t', '\n'] ++ "2".toList)) :=
    .next "limit" (by simp) (by simp [isBlank]) (.last "2")
  refine ⟨herror, hpieces ▸ hout, ?_⟩
  rw [layout_tokenizeFrom .command _ _ herror (hpieces ▸ hout)]
  decide +kernel

end PipeQuery
