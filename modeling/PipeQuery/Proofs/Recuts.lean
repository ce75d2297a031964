import PipeQuery.Proofs.ModeFlow
import PipeQuery.Proofs.RoundTrip

/-!
# Tokens in other places

A repaired query is made of tokens of a text that stand in other places now, and of tokens that did
not stand in the text at all. In print each of them is cut off in every mode of its kind
(`Stems.exists_cut`). A token with the one text of its kind is, since the text is known
(`Kind.lexeme_fixed`). Any other token of a text was cut off in the mode of its kind: a stage behind
its keyword is never read in the mode of command words, where a word of expressions counts as a name
(`Tame`).

So the tokens that a query in which nothing is missing is made of can be cut off one after the other
(`Frames.Admits.chain`).
-/

namespace PipeQuery

open Lexer

/-! ## Kinds with one text -/

/-- The shape of the tokens of a kind with one text. -/
def Kind.shape : Kind → Shape
  | pipe => .pipe
  | leftBracket => .leftBracket
  | rightBracket => .rightBracket
  | k => if k.isKeyword then .word else .fixed k

/-- The words that have a meaning in a mode. -/
def Lexer.Mode.words : Mode → Vocabulary
  | .command => commandWords
  | .explain | .expression => expressionWords
  | .source => []
  | .enrich => enrichWords

/-- The kind of any other word in a mode. -/
def Lexer.Mode.name : Mode → Kind
  | .command | .explain | .expression => .identifier
  | .source => .sourceIdentifier
  | .enrich => .enrichIdentifier

/-- A word is looked up among those of its mode. Only the words of commands change the mode. -/
theorem Lexer.Frames.readWord_eq (fs : Frames) (text : String) :
    fs.readWord text = match fs.current.mode.words.kind? text with
      | some k => (k, if fs.current.mode = .command then fs.setMode (.after k) else fs)
      | none => (fs.current.mode.name, fs) := by
  unfold Frames.readWord
  cases fs.current.mode with
  | command | explain | expression | enrich =>
    simp only [Mode.words]
    split <;> simp_all [Mode.name]
  | source => rfl

/-- The one text of a kind has its shape in each of its modes. -/
theorem Kind.lexeme_fixed (k : Kind) : ∀ text ∈ k.fixedText?, ∀ m ∈ k.modes,
    m.lexeme text.toList = ⟨k.shape, text.toList.length⟩ := by
  cases k <;> decide +kernel

/-- A keyword is a word of each of its modes. -/
theorem Kind.words_keyword (k : Kind) (hk : k.isKeyword = true) : ∀ text ∈ k.fixedText?,
    ∀ m ∈ k.modes, m.words.kind? text = some k ∧ (m = .command ↔ .command ∈ k.modes) := by
  revert hk
  cases k <;> decide +kernel

theorem Lexer.Frames.read_shape (fs : Frames) {k : Kind} {text : String}
    (hk : k.fixedText? = some text) (hm : fs.current.mode ∈ k.modes) :
    fs.read k.shape text = (k, fs.behind k) := by
  by_cases hkeyword : k.isKeyword = true
  · have hshape : k.shape = .word ∧ k ≠ .pipe ∧ k ≠ .leftBracket ∧ k ≠ .rightBracket := by
      revert hkeyword
      cases k <;> decide
    obtain ⟨hshape, hpipe, hleft, hright⟩ := hshape
    obtain ⟨hwords, hcommand⟩ := k.words_keyword hkeyword text hk _ hm
    rw [hshape]
    change fs.readWord text = _
    rw [fs.readWord_eq, hwords]
    dsimp only
    split
    · next h => rw [behind_keyword hpipe hright (hcommand.1 h)]
    · next h => rw [behind_eq hleft (mt hcommand.2 h)]
  · cases k <;> first | exact absurd rfl hkeyword | rfl

/-- No frame around the query is at the start of a stage. -/
def Lexer.Frames.Settled (fs : Frames) : Prop := ∀ frame ∈ fs.outer, frame.mode = .expression

/-- The frames are behind the keyword of a stage, which is not `EXPLAIN`. -/
structure Lexer.Frames.Tame (fs : Frames) : Prop where
  settled : fs.Settled
  mode : fs.current.mode ≠ .command ∧ fs.current.mode ≠ .explain

variable {fs fs' : Frames} {shape : Shape} {w tail : List Char} {t : Token} {ts us : List Token}

/-- A token with the one text of its kind is cut off in all modes of its kind. -/
theorem exists_cut_fixed {text : String} (hk : t.kind.fixedText? = some text) (ht : t.text = text)
    (hm : fs.current.mode ∈ t.kind.modes) :
    ∃ shape w tail, Cut fs shape w tail t (fs.behind t.kind) := by
  refine ⟨t.kind.shape, text.toList, [], ?_, ?_, ?_, ?_⟩
  · rw [List.append_nil]
    exact t.kind.lexeme_fixed text hk _ hm
  · simpa using (t.kind.toUpper_fixed text hk).1
  · rw [ht, String.ofList_toList]
  · rw [ht]
    exact fs.read_shape hk hm

/-! ## The truth value that stands for a missing one -/

theorem Token.spelled_falsehood : falsehood.Spelled where
  fixed text h := by cases h
  fits := by
    have hfalse : sameWord "false" "false" := by decide +kernel
    refine ⟨fun h => ?_, fun _ => Or.inr hfalse, fun h => ?_, fun h => ?_⟩ <;> cases h

theorem exists_cut_falsehood (hm : fs.current.mode ∈ Kind.boolean.modes) :
    ∃ shape w tail, Cut fs shape w tail Token.falsehood.inPrint (fs.behind .boolean) := by
  have hm : fs.current.mode = .expression := List.mem_singleton.1 hm
  have htext : Token.falsehood.written = "false" := by decide +kernel
  refine ⟨.word, "false".toList, [], ?_, by decide, ?_, ?_⟩
  · rw [hm]
    decide +kernel
  · change Token.falsehood.written = _
    rw [htext, String.ofList_toList]
  · have hword : Vocabulary.kind? (Mode.words .expression) "false" = some .boolean := by
      decide +kernel
    change fs.readWord Token.falsehood.written = (.boolean, fs)
    rw [htext, fs.readWord_eq, hm, hword]
    rfl

/-! ## The modes behind keywords -/

namespace Lexer

namespace Frames

theorem Settled.read (h : fs.Settled) {text : String} {k : Kind} (hr : fs.read shape text = (k, fs')) :
    fs'.Settled := by
  obtain rfl := (Prod.mk.inj hr).2
  cases shape with
  | fixed | pipe => exact h
  | word =>
    change (fs.readWord text).2.Settled
    rw [fs.readWord_eq]
    split
    · dsimp only
      split <;> exact h
    · exact h
  | leftBracket =>
    change fs.openBracket.Settled
    unfold openBracket
    split
    · exact List.forall_mem_cons.2 ⟨rfl, h⟩
    · exact h
  | rightBracket =>
    change fs.closeBracket.Settled
    unfold closeBracket
    split
    · exact h
    · split
      · exact h
      · next frame outer houter =>
        unfold Settled at h
        rw [houter] at h
        exact (List.forall_mem_cons.1 h).2

theorem Tame.read (h : fs.Tame) {text : String} {k : Kind} (hr : fs.read shape text = (k, fs'))
    (hk : k ≠ .pipe) : fs'.Tame := by
  refine ⟨h.settled.read hr, ?_⟩
  obtain ⟨rfl, rfl⟩ := Prod.mk.inj hr
  cases shape with
  | fixed => exact h.mode
  | pipe => exact absurd rfl hk
  | word =>
    change (fs.readWord text).2.current.mode ≠ _ ∧ (fs.readWord text).2.current.mode ≠ _
    rw [fs.readWord_eq]
    split <;> simp [h.mode]
  | leftBracket =>
    change fs.openBracket.current.mode ≠ _ ∧ fs.openBracket.current.mode ≠ _
    rw [mode_openBracket h.mode.2]
    exact h.mode
  | rightBracket =>
    change fs.closeBracket.current.mode ≠ _ ∧ fs.closeBracket.current.mode ≠ _
    unfold closeBracket
    split
    · exact h.mode
    · split
      · exact h.mode
      · next frame outer houter =>
        have hframe := h.settled frame (by simp [houter])
        simp [hframe]

end Frames

/-- The keyword of a stage leads to the modes of the stage. -/
theorem Cut.tame (h : Cut fs shape w tail t fs') (hs : fs.Settled)
    (hk : t.kind ∈ Grammar.stageKinds) : fs'.Tame := by
  have hcased : ∀ k ∈ Grammar.stageKinds, k.isCased = true := by decide
  have hafter : ∀ k ∈ Grammar.stageKinds, Mode.after k ≠ .command ∧ Mode.after k ≠ .explain := by
    decide
  have hother : ∀ m : Mode, m.name ∉ Grammar.stageKinds ∧
      (m ≠ .command → ∀ entry ∈ m.words, entry.2 ∉ Grammar.stageKinds) := by
    intro m
    cases m <;> decide +kernel
  obtain rfl := h.shape_of_isCased (hcased _ hk)
  have hread : fs.readWord t.text = (t.kind, fs') := h.read
  rw [fs.readWord_eq] at hread
  split at hread
  · next k hword =>
    obtain ⟨rfl, rfl⟩ := Prod.mk.inj hread
    by_cases hm : fs.current.mode = .command
    · rw [if_pos hm]
      exact ⟨hs, hafter _ hk⟩
    · exact absurd hk ((hother _).2 hm _ (Vocabulary.mem_of_kind? hword))
  · rw [← (Prod.mk.inj hread).1] at hk
    exact absurd hk (hother _).1

theorem Chain.exists_of_append (h : Chain fs (ts ++ us)) (hs : fs.Settled) :
    ∃ fs' : Frames, fs'.Settled ∧ Chain fs' us := by
  induction ts generalizing fs with
  | nil => exact ⟨fs, hs, h⟩
  | cons t ts ih =>
    cases h with
    | cons cut rest => exact ih rest (hs.read cut.read)

/-- What stands in a stage behind its keyword is cut off in the modes of the stage. -/
theorem Chain.exists_tame (h : Chain fs (ts ++ us)) (hs : fs.Tame) (hts : ∀ t ∈ ts, t.kind ≠ .pipe)
    (ht : t ∈ ts) : ∃ fs₁ fs₂ shape w tail, fs₁.Tame ∧ Cut fs₁ shape w tail t fs₂ := by
  induction ts generalizing fs with
  | nil => cases ht
  | cons u ts ih =>
    cases h with
    | cons cut rest =>
      rcases List.mem_cons.1 ht with rfl | ht
      · exact ⟨_, _, _, _, _, hs, cut⟩
      · have hu := hts u (List.mem_cons_self ..)
        exact ih rest (hs.read cut.read hu) (fun v hv => hts v (List.mem_cons_of_mem u hv)) ht

/-- A token of a stage that has not the one text of its kind was cut off in the only mode of its
kind. -/
theorem Cut.modes_eq (h : Cut fs shape w tail t fs') (hs : fs.Tame) (hsig : t.isSignificant = true)
    (he : t.kind ≠ .error) (hk : t.kind.fixedText? = none) : t.kind.modes = [fs.current.mode] := by
  have hspells := h.found.spells
  have hread := h.read
  cases shape with
  | pipe | leftBracket | rightBracket =>
    rw [← (Prod.mk.inj hread).1] at hk
    cases hk
  | fixed k =>
    obtain ⟨rfl, -⟩ := Prod.mk.inj hread
    have hplain : t.kind.isTrivia = false := by simpa [Token.isSignificant] using hsig
    have hopen : ∀ m : Mode, m ≠ .command → m ≠ .explain →
        ∀ k ∈ m.openKinds, k.isTrivia = false → k ≠ .error → k.modes = [m] := by
      intro m
      cases m <;> decide
    have hopen := hopen _ hs.mode.1 hs.mode.2 t.kind
    have hpattern {m : Mode} (hspells : patternSpells m (.fixed t.kind) w) :
        t.kind ∈ m.openKinds := by
      rcases hspells with hmem | ⟨-, hfixed⟩
      · exact hmem
      · rw [hk] at hfixed
        cases hfixed
    cases hm : fs.current.mode with
    | command => exact absurd hm hs.mode.1
    | explain => exact absurd hm hs.mode.2
    | expression =>
      rw [hm] at hspells hopen
      rcases hspells with hmem | ⟨-, hfixed⟩ | ⟨hkind, -⟩ | ⟨hkind, -⟩
      · exact hopen hmem hplain he
      · rw [hk] at hfixed
        cases hfixed
      · rw [hkind]
        rfl
      · rw [hkind]
        rfl
    | source | enrich =>
      rw [hm] at hspells hopen
      exact hopen (hpattern hspells) hplain he
  | word =>
    have hwords : ∀ m : Mode, m ≠ .command → m ≠ .explain → m.name.modes = [m] ∧
        ∀ entry ∈ m.words, entry.2.fixedText? = none → entry.2.modes = [m] := by
      intro m
      cases m <;> decide +kernel
    obtain ⟨hname, hwords⟩ := hwords _ hs.mode.1 hs.mode.2
    have hread : fs.readWord t.text = (t.kind, fs') := hread
    rw [fs.readWord_eq] at hread
    split at hread
    · next k hword =>
      rw [(Prod.mk.inj hread).1] at hword
      exact hwords _ (Vocabulary.mem_of_kind? hword) hk
    · rw [← (Prod.mk.inj hread).1]
      exact hname

/-- Such a token is cut off in print wherever that mode is met. -/
theorem Cut.elsewhere (h : Cut fs shape w tail t fs') (hs : fs.Tame) (hsig : t.isSignificant = true)
    (he : t.kind ≠ .error) (hk : t.kind.fixedText? = none) {fs₁ : Frames}
    (hm : fs₁.current.mode ∈ t.kind.modes) :
    ∃ shape w tail, Cut fs₁ shape w tail t.inPrint (fs₁.behind t.kind) := by
  have hmodes := h.modes_eq hs hsig he hk
  have hmode : fs₁.current.mode = fs.current.mode := by simpa [hmodes] using hm
  have hbehind : fs₁.behind t.kind = fs₁ := by
    refine Frames.behind_eq (fun heq => ?_) (by simpa [hmodes] using hs.mode.1.symm)
    rw [heq] at hk
    cases hk
  have hcut : Cut fs shape t.written.toList [] t.inPrint fs' :=
    h.again hsig he (.inl (by simp)) rfl rfl
  refine ⟨shape, t.written.toList, [], ?_, hcut.ne_nil, hcut.text, ?_⟩
  · rw [hmode]
    exact hcut.lexeme
  · have hread := hcut.read
    rw [hbehind]
    cases shape with
    | fixed k => rw [← (Prod.mk.inj hread).1]; rfl
    | word =>
      change fs₁.readWord _ = (t.kind, fs₁)
      change fs.readWord _ = (t.kind, fs') at hread
      rw [fs.readWord_eq] at hread
      rw [fs₁.readWord_eq, hmode]
      split at hread
      · rw [← (Prod.mk.inj hread).1, if_neg hs.mode.1]
      · rw [← (Prod.mk.inj hread).1]
    | pipe | leftBracket | rightBracket =>
      have hkind := (Prod.mk.inj hread).1
      change _ = t.kind at hkind
      rw [← hkind] at hk
      cases hk

end Lexer

/-! ## Tokens of a query in which nothing is missing -/

namespace Grammar

variable {text : String} {x : Placed}

/-- The tokens that a query in which nothing is missing is made of are spelled as the grammar
expects. -/
theorem Stems.spelled (h : Stems (TokenStream.significant (tokenize text)) x)
    (hx : x.1.kind.isLeaf = true → ¬ IsPlaceholder x.1.text) : x.1.Spelled := by
  cases h with
  | stage h =>
    obtain ⟨before, keyword, stage, behind, hseen, -, -, hmem⟩ := h
    exact spelled_significant text x (by simp [hseen, hmem])
  | fixed hmem => exact spelled_significant text x hmem
  | spare h =>
    generalize x.1 = t at h hx ⊢
    cases h with
    | fixed h => exact Token.spelled_of_fixedText? h
    | falsehood => exact Token.spelled_falsehood
    | conjured expected t h => exact absurd ⟨_, rfl⟩ (hx h)

/-- In print they are cut off in all modes of their kinds. -/
theorem Stems.exists_cut (h : Stems (TokenStream.significant (tokenize text)) x)
    (hx : x.1.kind.isLeaf = true → ¬ IsPlaceholder x.1.text) (hsig : x.1.isSignificant = true)
    (he : x.1.kind ≠ .error) (hm : fs.current.mode ∈ x.1.kind.modes) :
    ∃ shape w tail, Cut fs shape w tail x.1.inPrint (fs.behind x.1.kind) := by
  have hspelled := h.spelled hx
  cases hfixed : x.1.kind.fixedText? with
  | some w => exact exists_cut_fixed (t := x.1.inPrint) hfixed (hspelled.fixed w hfixed) hm
  | none =>
    cases h with
    | stage h =>
      obtain ⟨before, keyword, stage, behind, hseen, hkeyword, hbars, hmem⟩ := h
      obtain ⟨ts, -, -, hcuts, hts, -⟩ := exists_cuts_tokenize text
      have hchain := hcuts.chain
      rw [← hts, hseen, List.map_append, List.map_cons, List.map_append] at hchain
      obtain ⟨fs₁, hsettled, hchain⟩ := hchain.exists_of_append (by simp [Frames.Settled, Frames.start])
      cases hchain with
      | cons cut rest =>
        obtain ⟨fs₁, fs₂, shape, w, tail, htame, hcut⟩ :=
          rest.exists_tame (cut.tame hsettled hkeyword) (by
            rw [List.forall_mem_map]
            simpa [Placed.isBar] using hbars) (List.mem_map_of_mem hmem)
        exact hcut.elsewhere htame hsig he hfixed hm
    | fixed hmem h => rw [hfixed] at h; cases h
    | spare h =>
      generalize x.1 = t at h hx hfixed hm ⊢
      cases h with
      | fixed h => rw [hfixed] at h; cases h
      | falsehood => exact exists_cut_falsehood hm
      | conjured expected t h => exact absurd ⟨_, rfl⟩ (hx h)

end Grammar

/-- Tokens that are met in their modes are cut off in print one after the other. -/
theorem Lexer.Frames.Admits.chain {Q : Frames → Prop} {text : String} {xs : List Placed}
    (h : fs.Admits Q xs) (hx : ∀ x ∈ xs, Grammar.Stems (TokenStream.significant (tokenize text)) x ∧
      x.1.isSignificant = true ∧ x.1.kind ≠ .error) : Chain fs (xs.map (·.1.inPrint)) := by
  induction xs generalizing fs with
  | nil => exact .nil fs
  | cons x xs ih =>
    obtain ⟨hm, hleaf, h⟩ := h
    obtain ⟨hstems, hsig, he⟩ := hx x (List.mem_cons_self ..)
    obtain ⟨shape, w, tail, hcut⟩ := hstems.exists_cut hleaf hsig he hm
    exact .cons hcut (ih h fun y hy => hx y (List.mem_cons_of_mem x hy))

end PipeQuery
