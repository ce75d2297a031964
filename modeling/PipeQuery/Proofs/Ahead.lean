import PipeQuery.Proofs.Blanks
import PipeQuery.Proofs.Layout
import PipeQuery.Proofs.Recuts

/-!
# Texts one behind the other

A text with a blank behind it is cut into its tokens whatever comes next, and what comes next is cut
from the modes behind these tokens on (`Cuts.ahead`). Only errors and line comments may go on behind
a blank, and a line feed ends the comments too.

The modes behind some tokens depend on their kinds alone (`Frames.through`). So a text is cut in the
same way inside the brackets of another one, as long as it does not close these brackets itself
(`Cuts.inside`).
-/

namespace PipeQuery.Lexer

variable {fs fs' fs'' gs : Frames} {shape : Shape} {w tail text text' blanks : List Char} {b : Char}
  {t : Token} {ts ts' : List Token} {k : Kind} {frame : Frame}

/-! ## Frames behind tokens -/

/-- The frames behind tokens of some kinds. -/
def Frames.through (fs : Frames) (ks : List Kind) : Frames := ks.foldl Frames.behind fs

namespace Frames

@[simp] theorem through_nil : fs.through [] = fs := rfl

@[simp] theorem through_cons {ks : List Kind} :
    fs.through (k :: ks) = (fs.behind k).through ks := rfl

@[simp] theorem through_append {ks ks' : List Kind} :
    fs.through (ks ++ ks') = (fs.through ks).through ks' := List.foldl_append

/-- Blanks and comments leave the frames alone. -/
theorem behind_of_isTrivia (h : k.isTrivia = true) : fs.behind k = fs := by
  have hk : k ≠ .leftBracket ∧ .command ∉ k.modes := by
    revert h
    cases k <;> decide
  exact behind_eq hk.1 hk.2

theorem through_filter (ts : List Token) :
    fs.through ((ts.filter Token.isSignificant).map Token.kind)
      = fs.through (ts.map Token.kind) := by
  induction ts generalizing fs with
  | nil => rfl
  | cons t ts ih =>
    rw [List.filter_cons, List.map_cons, through_cons]
    split
    · exact ih
    · next ht => rw [behind_of_isTrivia (by simpa [Token.isSignificant] using ht), ih]

end Frames

namespace Cut

/-- Bars and brackets have shapes of their own. -/
theorem shape_ne_fixed (h : Cut fs shape w tail t fs')
    (hk : t.kind ∈ [Kind.pipe, .leftBracket, .rightBracket]) : shape ≠ .fixed t.kind := by
  obtain ⟨entry, hentry, hclosing, hc, htext, hne⟩ : ∃ entry ∈ openings,
      (fs.current.mode.IsPattern → entry ∈ closings) ∧ t.kind.isCased = false ∧
        t.kind.fixedText? = some (String.ofList [entry.1]) ∧ entry.2 ≠ .fixed t.kind := by
    simp only [List.mem_cons, List.not_mem_nil, or_false] at hk
    rcases hk with hk | hk | hk
    · rw [hk]
      exact ⟨('|', .pipe), by simp [openings, closings], fun _ => by simp [closings], rfl, rfl,
        by simp⟩
    · have hpattern (hm : fs.current.mode.IsPattern) : ('[', .leftBracket) ∈ closings :=
        absurd (by simp [hk]) (h.of_pattern hm).1
      rw [hk]
      exact ⟨('[', .leftBracket), by simp [openings], hpattern, rfl, rfl, by simp⟩
    · rw [hk]
      exact ⟨(']', .rightBracket), by simp [openings, closings], fun _ => by simp [closings], rfl,
        rfl, by simp⟩
  have hlex := h.lexeme
  rw [h.eq_singleton hc htext, List.singleton_append] at hlex
  have hentry : fs.current.mode.lexeme (entry.1 :: tail) = ⟨entry.2, 1⟩ := by
    rcases fs.current.mode.cases_lexeme with ⟨heq, -⟩ | hm
    · rw [heq]
      exact expressionLexeme_single hentry
    · exact fs.current.mode.lexeme_closing (hclosing hm)
  rw [← (Lexeme.mk.inj (hentry.symm.trans hlex)).1]
  exact hne

/-- The frames behind a token are those of its kind. -/
theorem frames_eq (h : Cut fs shape w tail t fs') : fs' = fs.behind t.kind := by
  have hs := h.found.spells
  have hread := h.read
  cases shape with
  | fixed k =>
    obtain ⟨rfl, rfl⟩ := Prod.mk.inj hread
    have hopen : ∀ m : Mode, ∀ k ∈ m.openKinds, k ≠ .leftBracket ∧ .command ∉ k.modes := by
      intro m
      cases m <;> decide
    have hplain : ∀ k : Kind, k.isCased = false → k ∉ [Kind.pipe, .leftBracket, .rightBracket] →
        k ≠ .leftBracket ∧ .command ∉ k.modes := by
      intro k
      cases k <;> decide
    have hk : t.kind ≠ .leftBracket ∧ .command ∉ t.kind.modes := by
      rcases spells_fixed hs with hk | ⟨hk, -⟩ | ⟨hk, -⟩ | ⟨hk, -⟩
      · exact hopen _ _ hk
      · exact hplain _ hk fun hmem => h.shape_ne_fixed hmem rfl
      · rw [hk]
        decide
      · rw [hk]
        decide
    exact (Frames.behind_eq hk.1 hk.2).symm
  | word =>
    have hwords : ∀ m : Mode, (m.name ≠ .leftBracket ∧ .command ∉ m.name.modes) ∧
        ∀ entry ∈ m.words, if m = .command
          then entry.2 ≠ .pipe ∧ entry.2 ≠ .rightBracket ∧ .command ∈ entry.2.modes
          else entry.2 ≠ .leftBracket ∧ .command ∉ entry.2.modes := by
      intro m
      cases m <;> decide +kernel
    obtain ⟨hname, hwords⟩ := hwords fs.current.mode
    have hread : fs.readWord t.text = (t.kind, fs') := hread
    rw [fs.readWord_eq] at hread
    split at hread
    · next k hword =>
      obtain ⟨rfl, rfl⟩ := Prod.mk.inj hread
      have hentry := hwords _ (Vocabulary.mem_of_kind? hword)
      split at hentry
      · next hm => rw [if_pos hm, Frames.behind_keyword hentry.1 hentry.2.1 hentry.2.2]
      · next hm => rw [if_neg hm, Frames.behind_eq hentry.1 hentry.2]
    · obtain ⟨hk, rfl⟩ := Prod.mk.inj hread
      rw [← hk, Frames.behind_eq hname.1 hname.2]
  | pipe | leftBracket | rightBracket =>
    obtain ⟨hk, rfl⟩ := Prod.mk.inj hread
    rw [← hk]
    rfl

/-- The grammar does not see a run of blanks, and it leaves the frames alone. -/
theorem of_whitespace (h : Cut fs (.fixed .whitespace) w tail t fs') :
    t.isSignificant = false ∧ fs = fs' := by
  obtain ⟨hk, rfl⟩ := Prod.mk.inj h.read
  rw [Token.isSignificant, ← hk]
  exact ⟨rfl, rfl⟩

/-- A run of blanks has nothing but blanks in it, and reaches as far as they do. -/
theorem isBlank (h : Cut fs (.fixed .whitespace) w tail t fs') :
    (∀ c ∈ w, isBlank c = true) ∧ ∀ c ∈ tail.head?, isBlank c = false := by
  obtain ⟨c, w, rfl⟩ := List.exists_cons_of_ne_nil h.ne_nil
  have hlex := h.lexeme
  have hshape : (fs.current.mode.lexeme (c :: (w ++ tail))).shape = .fixed .whitespace := by
    rw [← List.cons_append, hlex]
  have hc : Lexer.isBlank c = true := fs.current.mode.isBlank_of_lexeme hshape
  obtain ⟨blanks, after, heq, hrun, hblanks, hafter⟩ := exists_run Lexer.isBlank (w ++ tail)
  rw [List.cons_append, Mode.lexeme_blank _ hc, hrun] at hlex
  have hlen : w.length = blanks.length := by
    have hlen := (Lexeme.mk.inj hlex).2
    rw [List.length_cons] at hlen
    omega
  obtain ⟨rfl, rfl⟩ := List.append_inj heq hlen
  exact ⟨List.forall_mem_cons.2 ⟨hc, hblanks⟩, hafter⟩

/-- Anything else does not begin with a blank. -/
theorem not_isBlank_of_ne (h : Cut fs shape w tail t fs') (hs : shape ≠ .fixed .whitespace) :
    ∀ c ∈ (w ++ tail).head?, Lexer.isBlank c = false := by
  intro c hc
  obtain ⟨rest, hrest⟩ := List.head?_eq_some_iff.1 hc
  by_contra hblank
  have hlex := h.lexeme
  rw [hrest, Mode.lexeme_blank _ (by simpa using hblank)] at hlex
  exact hs (Lexeme.mk.inj hlex).1.symm

/-- The same token is cut off wherever the mode is the same. -/
theorem of_mode (h : Cut fs shape w tail t fs') (hm : gs.current.mode = fs.current.mode) :
    Cut gs shape w tail t (gs.behind t.kind) := by
  have hkind : (gs.read shape t.text).1 = t.kind := by
    have hkind : (fs.read shape t.text).1 = t.kind := congrArg Prod.fst h.read
    cases shape with
    | fixed | pipe | leftBracket | rightBracket => exact hkind
    | word =>
      change (fs.readWord t.text).1 = _ at hkind
      change (gs.readWord t.text).1 = _
      rw [fs.readWord_eq] at hkind
      rw [gs.readWord_eq, hm]
      split at hkind <;> exact hkind
  have hcut : Cut gs shape w tail t (gs.read shape t.text).2 :=
    ⟨hm ▸ h.lexeme, h.ne_nil, h.text, Prod.ext hkind rfl⟩
  exact hcut.frames_eq ▸ hcut

end Cut

/-! ## Texts in front of others -/

/-- Whatever a text is cut into from the modes `fs'` on, with `text` in front of it it is cut into
the tokens `ts` and these, from the modes `fs` on. Blanks and comments are left out. -/
def CutsAhead (fs : Frames) (text : List Char) (ts : List Token) (fs' : Frames) : Prop :=
  ∀ ⦃rest : List Char⦄ ⦃us : List Token⦄, Cuts fs' rest us → ∃ vs, Cuts fs (text ++ rest) vs ∧
    vs.filter Token.isSignificant = ts ++ us.filter Token.isSignificant

theorem CutsAhead.trans (h : CutsAhead fs text ts fs') (h' : CutsAhead fs' text' ts' fs'') :
    CutsAhead fs (text ++ text') (ts ++ ts') fs'' := by
  intro rest us hus
  obtain ⟨vs, hvs, hv⟩ := h' hus
  obtain ⟨xs, hxs, hx⟩ := h hvs
  rw [List.append_assoc]
  exact ⟨xs, hxs, by rw [hx, hv, List.append_assoc]⟩

theorem cutsAhead_nil : CutsAhead fs [] [] fs := fun _ _ hus => ⟨_, hus, rfl⟩

/-- A blank becomes part of the blanks behind it. -/
theorem cutsAhead_blank (hb : isBlank b = true) : CutsAhead fs [b] [] fs := by
  intro rest us hus
  let blank (blanks : List Char) : Token := ⟨.whitespace, String.ofList blanks, 0, 0, 0, 0⟩
  have hblank (blanks : List Char) : (blank blanks).isSignificant = false := rfl
  have halone {rest : List Char} (hrest : ∀ c ∈ rest.head?, isBlank c = false) :
      Cut fs (.fixed .whitespace) [b] rest (blank [b]) fs :=
    cut_blanks (by simp) (by simpa using hb) hrest rfl rfl
  cases hus with
  | nil => exact ⟨[blank [b]], .cons (halone (by simp)) (.nil fs), rfl⟩
  | @cons _ fs' shape w tail t us cut hrest =>
    by_cases hw : shape = .fixed .whitespace
    · subst hw
      obtain ⟨ht, rfl⟩ := cut.of_whitespace
      obtain ⟨hblanks, hend⟩ := cut.isBlank
      refine ⟨blank (b :: w) :: us, ?_, ?_⟩
      · have hcut : Cut fs (.fixed .whitespace) (b :: w) tail (blank (b :: w)) fs :=
          cut_blanks (by simp) (List.forall_mem_cons.2 ⟨hb, hblanks⟩) hend rfl rfl
        rw [← List.append_assoc, List.singleton_append]
        exact .cons hcut hrest
      · rw [List.filter_cons_of_neg (by simp [hblank]), List.filter_cons_of_neg (by simp [ht])]
        rfl
    · exact ⟨blank [b] :: t :: us, .cons (halone (cut.not_isBlank_of_ne hw)) (.cons cut hrest), rfl⟩

theorem cutsAhead_blanks (hb : ∀ c ∈ blanks, isBlank c = true) : CutsAhead fs blanks [] fs := by
  induction blanks with
  | nil => exact cutsAhead_nil
  | cons c blanks ih =>
    obtain ⟨hc, hblanks⟩ := List.forall_mem_cons.1 hb
    exact (cutsAhead_blank hc).trans (ih hblanks)

/-- With a blank behind it a text is cut into its tokens, whatever comes next. -/
theorem Cuts.ahead (h : Cuts fs text ts) (hb : isBlank b = true)
    (hts : ∀ t ∈ ts, t.kind ≠ .error ∧ (t.kind = .lineComment → b = '\n')) :
    CutsAhead fs (text ++ [b]) (ts.filter Token.isSignificant)
      (fs.through (ts.map Token.kind)) := by
  induction h with
  | nil fs => exact cutsAhead_blank hb
  | @cons fs fs' shape w tail t ts cut _ ih =>
    obtain ⟨⟨herror, hcomment⟩, hts⟩ := List.forall_mem_cons.1 hts
    rw [List.map_cons, Frames.through_cons, ← cut.frames_eq, List.append_assoc]
    by_cases hw : shape = .fixed .whitespace
    · subst hw
      obtain ⟨ht, rfl⟩ := cut.of_whitespace
      rw [List.filter_cons_of_neg (by simp [ht])]
      exact (cutsAhead_blanks cut.isBlank.1).trans (ih hts)
    · intro rest us hus
      obtain ⟨vs, hvs, hv⟩ := ih hts hus
      have hshape {k : Kind} (hs : shape = .fixed k) : t.kind = k := by
        subst hs
        exact (Prod.mk.inj cut.read).1.symm
      have hends : (fs.current.mode.lexeme (w ++ tail)).EndsAt b := by
        rw [cut.lexeme]
        exact ⟨fun hs => herror (hshape hs), hw, fun hs => hcomment (hshape hs)⟩
      have hlexeme : fs.current.mode.lexeme (w ++ (tail ++ [b] ++ rest)) = ⟨shape, w.length⟩ := by
        have hne : w ++ tail ≠ [] := by simp [cut.ne_nil]
        rw [← cut.lexeme, ← Mode.lexeme_append _ hb hne hends, List.append_assoc,
          List.append_assoc, List.singleton_append]
      have hcut : Cut fs shape w (tail ++ [b] ++ rest) t fs' := { cut with lexeme := hlexeme }
      refine ⟨t :: vs, ?_, ?_⟩
      · rw [List.append_assoc]
        exact .cons hcut hvs
      · rw [List.filter_cons, List.filter_cons, hv]
        split <;> rfl

/-! ## Texts in brackets -/

namespace Frames

/-- The frames of a query that stands in another one, with the frame of this one. -/
def inside (fs : Frames) (frame : Frame) : Frames := { fs with outer := fs.outer ++ [frame] }

/-- A token leads to the same frames inside another query, unless it closes the query. -/
theorem behind_inside (hk : k = .rightBracket → 0 < fs.current.brackets ∨ fs.outer ≠ []) :
    (fs.inside frame).behind k = (fs.behind k).inside frame := by
  by_cases hbracket : k = .leftBracket ∨ k = .rightBracket
  · rcases hbracket with rfl | rfl
    · change (fs.inside frame).openBracket = fs.openBracket.inside frame
      unfold openBracket
      split <;> split <;> first | rfl | contradiction
    · change (fs.inside frame).closeBracket = fs.closeBracket.inside frame
      obtain ⟨⟨mode, brackets⟩, outer⟩ := fs
      cases brackets with
      | succ n => rfl
      | zero =>
        obtain ⟨f, outer, rfl⟩ := List.exists_cons_of_ne_nil ((hk rfl).resolve_left (by simp))
        rfl
  · cases k <;> first | rfl | exact absurd (by simp) hbracket

/-- Where there is no bracket to close, and the frame around the query is that of the query, closing
a bracket leads to the same frames. -/
theorem behind_inside_current (h : fs.current.brackets = 0) (ho : fs.outer = []) :
    (fs.inside fs.current).behind .rightBracket = fs.behind .rightBracket := by
  change (fs.inside fs.current).closeBracket = fs.closeBracket
  obtain ⟨current, outer⟩ := fs
  subst ho
  simp_all [closeBracket, inside]

/-- Tokens do not close the query around them if the frames behind them are other ones than those
behind them alone, whichever frame is around. -/
def Keeps (fs : Frames) (ks : List Kind) : Prop :=
  ∀ frame, (fs.inside frame).through ks ≠ fs.through ks

theorem Keeps.behind_inside {ks : List Kind} (h : fs.Keeps (k :: ks)) (frame : Frame) :
    (fs.inside frame).behind k = (fs.behind k).inside frame := by
  refine Frames.behind_inside fun hk => ?_
  by_contra hbottom
  simp only [not_or, not_lt, Nat.le_zero, not_not] at hbottom
  refine h fs.current ?_
  rw [through_cons, through_cons, hk, behind_inside_current hbottom.1 hbottom.2]

theorem Keeps.behind {ks : List Kind} (h : fs.Keeps (k :: ks)) : (fs.behind k).Keeps ks := by
  intro frame
  rw [← h.behind_inside]
  exact h frame

end Frames

/-- Inside another query that its tokens do not close, a text is cut in the same way. -/
theorem Cuts.inside (h : Cuts fs text ts) (hkeeps : fs.Keeps (ts.map Token.kind)) (frame : Frame) :
    Cuts (fs.inside frame) text ts := by
  induction h with
  | nil => exact .nil _
  | @cons fs fs' shape w tail t ts cut _ ih =>
    have hcut : Cut (fs.inside frame) shape w tail t (fs'.inside frame) := by
      rw [cut.frames_eq, ← hkeeps.behind_inside]
      exact cut.of_mode rfl
    refine .cons hcut (ih ?_)
    rw [cut.frames_eq]
    exact hkeeps.behind

/-! ## The tokens of texts -/

/-- What a text is cut into makes up its tokens, up to their places. -/
theorem Cuts.inPrint_pieces {m : Mode} {out : String} (h : Cuts (.start m) out.toList ts) :
    (pieces m out).map Token.inPrint = (ts.filter Token.isSignificant).map Token.inPrint := by
  obtain ⟨us, e, htokens, he, hcuts⟩ := exists_cuts_tokenizeFrom m out
  rw [pieces_eq htokens he hcuts, ← List.forall₂_eq_eq_eq, List.forall₂_map_left_iff,
    List.forall₂_map_right_iff]
  have hsame := List.rel_filter (p := Token.isSignificant) (q := Token.isSignificant)
    (fun t t' htt' => by simp only [Token.isSignificant, htt'.1]) (hcuts.unique h)
  exact hsame.imp fun _ _ htt' => Token.inPrint_congr htt'.1 htt'.2

/-- The grammar sees the tokens of a text. -/
theorem map_fst_significant_tokenizeFrom (m : Mode) (out : String) :
    (TokenStream.significant (tokenizeFrom m out)).map Prod.fst = pieces m out := by
  obtain ⟨us, e, htokens, he, hcuts⟩ := exists_cuts_tokenizeFrom m out
  have hend : e.isEnd = true := by simp [Token.isEnd, he]
  rw [pieces_eq htokens he hcuts, htokens,
    TokenStream.map_fst_significant (fun t ht => (hcuts.spelled t ht).2) hend]

theorem map_inPrint_significant_tokenizeFrom (m : Mode) (out : String) :
    (TokenStream.significant (tokenizeFrom m out)).map (·.1.inPrint)
      = (pieces m out).map Token.inPrint := by
  rw [← map_fst_significant_tokenizeFrom, List.map_map]
  rfl

/-- A text in front of another one, with a blank between them. -/
theorem cutsAhead_pieces (m : Mode) (front : String) (hb : isBlank b = true)
    (hfront : ∀ t ∈ tokenizeFrom m front, t.kind ≠ .error ∧ (t.kind = .lineComment → b = '\n')) :
    CutsAhead (.start m) (front.toList ++ [b]) (pieces m front)
      ((Frames.start m).through ((pieces m front).map Token.kind)) := by
  obtain ⟨us, e, htokens, he, hcuts⟩ := exists_cuts_tokenizeFrom m front
  rw [pieces_eq htokens he hcuts, Frames.through_filter]
  exact hcuts.ahead hb fun t ht => hfront t (by simp [htokens, ht])

end PipeQuery.Lexer
