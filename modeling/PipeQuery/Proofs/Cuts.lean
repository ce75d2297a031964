import PipeQuery.Proofs.Lexemes
import PipeQuery.Proofs.Printing

/-!
# Texts cut into tokens

`Cuts fs text ts` says that a text is cut into the tokens `ts` from the modes `fs` on: each token is
the lexeme at the front of what is left (`Cut`). The tokens of a text are what it is cut into, with
the end of the input behind them (`exists_cuts_tokenizeFrom`), and a text is cut in one way only
(`Cuts.unique`). Each token is spelled as the grammar expects (`Cut.spelled`).

In print a token is cut off again, and leads to the same modes (`Cut.again`), as long as printing
keeps it apart from what is behind it (`Parts`).
-/

namespace PipeQuery

namespace Lexer

variable {fs fs' fs'' : Frames} {shape shape' : Shape} {w w' text tail rest : List Char}
  {t t' : Token} {ts ts' : List Token}

/-- The piece at the front of a text is cut off as a token. -/
structure Cut (fs : Frames) (shape : Shape) (w tail : List Char) (t : Token) (fs' : Frames) :
    Prop where
  lexeme : fs.current.mode.lexeme (w ++ tail) = ⟨shape, w.length⟩
  ne_nil : w ≠ []
  text : t.text = String.ofList w
  read : fs.read shape t.text = (t.kind, fs')

/-- A text is cut into tokens. -/
inductive Cuts : Frames → List Char → List Token → Prop
  | nil (fs : Frames) : Cuts fs [] []
  | cons {fs fs' : Frames} {shape : Shape} {w tail : List Char} {t : Token} {ts : List Token}
    (cut : Cut fs shape w tail t fs') (rest : Cuts fs' tail ts) : Cuts fs (w ++ tail) (t :: ts)

/-- Tokens that can be cut off one after the other, whatever was behind each of them. -/
inductive Chain : Frames → List Token → Prop
  | nil (fs : Frames) : Chain fs []
  | cons {fs fs' : Frames} {shape : Shape} {w tail : List Char} {t : Token} {ts : List Token}
    (cut : Cut fs shape w tail t fs') (rest : Chain fs' ts) : Chain fs (t :: ts)

/-! ## The tokens of a text -/

/-- A step of a scan cuts off the piece at the front of the text. -/
theorem exists_cut_step {s : Scan} (h : s.rest ≠ []) :
    ∃ shape w t, s.rest = w ++ s.step.rest ∧ s.step.tokens = t :: s.tokens ∧
      Cut s.frames shape w s.step.rest t s.step.frames := by
  obtain ⟨w, hf⟩ := s.frames.current.mode.exists_found h
  obtain ⟨rest, hrest⟩ := hf.front
  have hpos : 0 < w.length := List.length_pos_iff.2 hf.ne_nil
  have hwidth : s.width = w.length := by
    have hlen := hf.length
    rw [Scan.width]
    omega
  have htake : s.rest.take s.width = w := by rw [hwidth, hrest, List.take_left]
  have hstep : s.step.rest = rest := by
    change s.rest.drop s.width = rest
    rw [hwidth, hrest, List.drop_left]
  rw [hstep]
  refine ⟨(s.frames.current.mode.lexeme s.rest).shape, w, s.token.1, hrest, rfl, ?_, hf.ne_nil, ?_,
    rfl⟩
  · rw [← hrest, ← hf.length]
  · change String.ofList (s.rest.take s.width) = _
    rw [htake]

/-- A scan with steps enough cuts up all the text. -/
theorem exists_cuts_steps (n : Nat) {s : Scan} (h : s.rest.length ≤ n) :
    ∃ ts, (Scan.steps n s).tokens = ts.reverse ++ s.tokens ∧ Cuts s.frames s.rest ts := by
  induction n generalizing s with
  | zero =>
    have hnil : s.rest = [] := by simpa using h
    exact ⟨[], rfl, hnil ▸ .nil _⟩
  | succ n ih =>
    rw [Scan.steps]
    split
    · next hnil => exact ⟨[], rfl, List.isEmpty_iff.1 hnil ▸ .nil _⟩
    · next hne =>
      have hne : s.rest ≠ [] := fun hnil => hne (List.isEmpty_iff.2 hnil)
      obtain ⟨shape, w, t, hrest, htokens, hcut⟩ := exists_cut_step hne
      have hlt := Scan.length_rest_step hne
      obtain ⟨ts, hts, hcuts⟩ := ih (s := s.step) (by omega)
      refine ⟨t :: ts, ?_, ?_⟩
      · rw [hts, htokens]
        simp
      · rw [hrest]
        exact .cons hcut hcuts

/-- The tokens of a text are what it is cut into, and the end of the input. -/
theorem exists_cuts_tokenizeFrom (m : Mode) (text : String) :
    ∃ ts e, tokenizeFrom m text = ts ++ [e] ∧ e.kind = .endOfInput ∧
      Cuts (.start m) text.toList ts := by
  have hlen : (Scan.start m text.toList).rest.length ≤ text.length := by
    rw [Scan.start, String.length_toList]
  obtain ⟨ts, hts, hcuts⟩ := exists_cuts_steps text.length hlen
  let last := (Scan.start m text.toList).steps text.length
  refine ⟨ts, .endOfInput last.place.offset last.place.line last.place.column, ?_, rfl, hcuts⟩
  rw [tokenizeFrom, Scan.finish, List.reverse_cons, hts]
  simp [Scan.start, last]

/-- The same piece is cut off every time. -/
theorem Cut.unique (h : Cut fs shape w tail t fs') (h' : Cut fs shape' w' rest t' fs'')
    (heq : w ++ tail = w' ++ rest) :
    tail = rest ∧ t.kind = t'.kind ∧ t.text = t'.text ∧ fs' = fs'' := by
  have hlex := h.lexeme.symm.trans (heq ▸ h'.lexeme)
  obtain ⟨rfl, hlen⟩ := Lexeme.mk.inj hlex
  obtain ⟨rfl, rfl⟩ := List.append_inj heq hlen
  have htext : t.text = t'.text := h.text.trans h'.text.symm
  have hread := h.read.symm.trans (htext ▸ h'.read)
  obtain ⟨hkind, rfl⟩ := Prod.mk.inj hread
  exact ⟨rfl, hkind, htext, rfl⟩

/-- A text is cut in one way only. -/
theorem Cuts.unique (h : Cuts fs text ts) (h' : Cuts fs text ts') :
    List.Forall₂ (fun t t' => t.kind = t'.kind ∧ t.text = t'.text) ts ts' := by
  induction h generalizing ts' with
  | nil =>
    generalize hnil : ([] : List Char) = text at h'
    cases h' with
    | nil => exact .nil
    | cons cut => exact absurd (List.append_eq_nil_iff.1 hnil.symm).1 cut.ne_nil
  | @cons fs fs' shape w tail t ts cut rest ih =>
    generalize htext : w ++ tail = text at h'
    cases h' with
    | nil => exact absurd (List.append_eq_nil_iff.1 htext).1 cut.ne_nil
    | cons cut' rest' =>
      obtain ⟨rfl, hkind, htext, rfl⟩ := cut.unique cut' htext
      exact .cons ⟨hkind, htext⟩ (ih rest')

/-! ## The words of the tables -/

theorem Vocabulary.mem_of_kind? {words : Vocabulary} {word : String} {k : Kind}
    (h : words.kind? word = some k) : (word.toLower, k) ∈ words := by
  obtain ⟨before, after, rfl, -⟩ := List.lookup_eq_some_iff.1 h
  simp

/-- The kinds of the names that stand in no table. -/
def nameKinds : List Kind := [.identifier, .sourceIdentifier, .enrichIdentifier]

/-- The kinds of the words in the tables that are no keywords. -/
def wordKinds : List Kind :=
  [.boolean, .ordering, .nullsDirection, .dateUnit, .aggregateFunction, .scalarFunction,
   .predicateFunction]

/-- What stands in the tables: words that are spelled as the grammar expects. -/
def Entry (word : String) (k : Kind) : Prop :=
  (k.isKeyword = true ∨ k ∈ wordKinds) ∧
    (k.isKeyword = true → word.toUpper = k.wording) ∧
    (k = .boolean → word = "true" ∨ word = "false") ∧
    (k = .ordering → word = "asc" ∨ word = "desc") ∧
    (k = .nullsDirection → word = "first" ∨ word = "last")

instance (word : String) (k : Kind) : Decidable (Entry word k) :=
  inferInstanceAs (Decidable (_ ∧ _))

theorem entry_commandWords : ∀ entry ∈ commandWords, Entry entry.1 entry.2 := by
  decide +kernel

theorem entry_expressionWords : ∀ entry ∈ expressionWords, Entry entry.1 entry.2 := by
  decide +kernel

theorem entry_enrichWords : ∀ entry ∈ enrichWords, Entry entry.1 entry.2 := by
  decide +kernel

/-- A word is in the table of its mode, or it is a name. -/
theorem read_word {k : Kind} (h : fs.read .word t.text = (k, fs')) :
    Entry t.text.toLower k ∨ k ∈ nameKinds := by
  change fs.readWord t.text = (k, fs') at h
  unfold Frames.readWord at h
  have hname {words : Vocabulary} {name : Kind} (hwords : ∀ entry ∈ words, Entry entry.1 entry.2)
      (hname : name ∈ nameKinds) :
      Entry t.text.toLower ((words.kind? t.text).getD name) ∨
        (words.kind? t.text).getD name ∈ nameKinds := by
    cases hk : words.kind? t.text with
    | some k => exact .inl (hwords _ (Vocabulary.mem_of_kind? hk))
    | none => exact .inr hname
  split at h
  · split at h
    · next hk =>
      obtain ⟨rfl, -⟩ := Prod.mk.inj h
      exact .inl (entry_commandWords _ (Vocabulary.mem_of_kind? hk))
    · obtain ⟨rfl, -⟩ := Prod.mk.inj h
      exact .inr (by decide)
  · obtain ⟨rfl, -⟩ := Prod.mk.inj h
    exact hname entry_expressionWords (by decide)
  · obtain ⟨rfl, -⟩ := Prod.mk.inj h
    exact hname entry_expressionWords (by decide)
  · obtain ⟨rfl, -⟩ := Prod.mk.inj h
    exact .inr (by decide)
  · obtain ⟨rfl, -⟩ := Prod.mk.inj h
    exact hname entry_enrichWords (by decide)

/-- Whether the kind is one of those that words have. -/
def isWordKind (k : Kind) : Bool := k.isKeyword || wordKinds.contains k || nameKinds.contains k

theorem isWordKind_of_read_word {k : Kind} (h : fs.read .word t.text = (k, fs')) :
    isWordKind k = true := by
  rcases read_word h with ⟨hk | hk, -⟩ | hk <;> simp [isWordKind, hk]

/-- What a piece is does not depend on the case of its letters. -/
theorem Frames.read_congr {text text' : String} (h : text.toLower = text'.toLower) :
    fs.read shape text = fs.read shape text' := by
  cases shape with
  | word =>
    change fs.readWord text = fs.readWord text'
    simp only [Frames.readWord, Vocabulary.kind?, h]
  | fixed | pipe | leftBracket | rightBracket => rfl

/-! ## What is cut off -/

/-- Whether a mode is that of index patterns or that of `ENRICH`. -/
def Mode.IsPattern (m : Mode) : Prop := m = .source ∨ m = .enrich

/-- A mode is one of expressions, or one of patterns. -/
theorem Mode.cases_lexeme (m : Mode) :
    m.lexeme = expressionLexeme ∧ m.spells = expressionSpells ∧ m.breaks = expressionBreaks ∨
      m.IsPattern := by
  cases m <;> simp [lexeme, spells, breaks, IsPattern]

namespace Cut

/-- What is cut off is found at the front of the text. -/
theorem found (h : Cut fs shape w tail t fs') :
    Found fs.current.mode.breaks fs.current.mode.spells
      (fun text => some (fs.current.mode.lexeme text)) (w ++ tail) ⟨shape, w.length⟩ w := by
  have hne : w ++ tail ≠ [] := by simp [h.ne_nil]
  obtain ⟨w', hf⟩ := fs.current.mode.exists_found hne
  rw [h.lexeme] at hf
  obtain ⟨rest, hrest⟩ := hf.front
  obtain ⟨rfl, -⟩ := List.append_inj hrest hf.length
  exact hf

/-- What the kinds of fixed shapes say of their texts. -/
theorem spells_fixed {m : Mode} {k : Kind} (h : m.spells (.fixed k) w) :
    k ∈ m.openKinds ∨ k.isCased = false ∧ k.fixedText? = some (String.ofList w) ∨
      k = .comparison ∧ (∃ op, ComparisonOp.ofText? (String.ofList w) = some op) ∨
      k = .quotedIdentifier ∧ w.head? = some '\x60' := by
  have hpattern (h : patternSpells m (.fixed k) w) :
      k ∈ m.openKinds ∨ k.isCased = false ∧ k.fixedText? = some (String.ofList w) := by
    obtain h | ⟨hk, htext⟩ := h
    · exact .inl h
    · refine .inr ⟨?_, htext⟩
      simp only [List.mem_cons, List.not_mem_nil, or_false] at hk
      rcases hk with rfl | rfl <;> rfl
  cases m with
  | command | explain | expression => exact h
  | source | enrich => exact (hpattern h).imp_right .inl

theorem openKinds_plain (m : Mode) :
    ∀ k ∈ .quotedIdentifier :: m.openKinds ++ nameKinds,
      k.fixedText? = none ∧ k.isCased = false ∧ k ≠ .comparison := by
  cases m <;> decide

theorem fixedText?_of_isKeyword {k : Kind} (h : k.isKeyword = true) :
    k.fixedText? = some k.wording := by
  revert h
  cases k <;> decide

theorem isTrivia_of_isWordKind {k : Kind} (h : isWordKind k = true) : k.isTrivia = false := by
  revert h
  cases k <;> decide

/-- No piece is spelled as a name that is not in backquotes, or as the end of the input. -/
theorem not_spells_fixed {m : Mode} {k : Kind} (hk : k ∈ [Kind.identifier, .endOfInput]) :
    ¬ m.spells (.fixed k) w := by
  have hopen : ∀ k ∈ [Kind.identifier, .endOfInput], k ∉ m.openKinds ∧ k.fixedText? = none ∧
      k ≠ .comparison ∧ k ≠ .quotedIdentifier := by
    cases m <;> decide
  obtain ⟨hnot, htext, hcomparison, hquoted⟩ := hopen k hk
  intro h
  rcases spells_fixed h with h | ⟨-, h⟩ | ⟨h, -⟩ | ⟨h, -⟩
  · exact hnot h
  · rw [htext] at h
    cases h
  · exact hcomparison h
  · exact hquoted h

/-- A token of a kind whose case printing leaves alone. -/
theorem spelled_of_not_isCased (hc : t.kind.isCased = false)
    (hfixed : ∀ text, t.kind.fixedText? = some text → t.text = text)
    (hop : t.kind = .comparison → ∃ op, ComparisonOp.ofText? t.text = some op) : t.Spelled where
  fixed text ht := by rw [Token.written_of_not_isCased hc, hfixed text ht]
  fits := by
    refine ⟨hop, ?_, ?_, ?_⟩ <;>
      · intro hk
        rw [hk] at hc
        exact absurd hc (by decide)

/-- A token of a kind that may have any text. -/
theorem spelled_of_mem (m : Mode) (hk : t.kind ∈ .quotedIdentifier :: m.openKinds ++ nameKinds) :
    t.Spelled := by
  obtain ⟨hnone, hcased, hop⟩ := openKinds_plain m _ hk
  exact spelled_of_not_isCased hcased (by simp [hnone]) fun heq => absurd heq hop

/-- A token of a word that is in a table. -/
theorem spelled_of_entry (h : Entry t.text.toLower t.kind) : t.Spelled := by
  obtain ⟨hkinds, hkeyword, hboolean, hordering, hnulls⟩ := h
  have hlower (w : String) (hw : w.toLower = w) (h : t.text.toLower = w) :
      sameWord t.text w = true := by simp [sameWord, h, hw]
  constructor
  · intro text htext
    rcases hkinds with hk | hk
    · have hb : t.kind ≠ .boolean := by
        intro heq
        rw [heq] at hk
        exact absurd hk (by decide)
      rw [Token.written_of_isCased (by simp [Kind.isCased, hk]) hb, ← String.toUpper_toLower,
        hkeyword hk]
      exact Option.some.inj ((fixedText?_of_isKeyword hk).symm.trans htext)
    · have hnone : ∀ k ∈ wordKinds, k.fixedText? = none := by decide
      rw [hnone _ hk] at htext
      cases htext
  · constructor
    · intro hk
      rw [hk] at hkinds
      exact absurd hkinds (by decide)
    · intro hk
      exact (hboolean hk).imp (hlower _ (by decide +kernel)) (hlower _ (by decide +kernel))
    · intro hk
      exact (hordering hk).imp (hlower _ (by decide +kernel)) (hlower _ (by decide +kernel))
    · intro hk
      exact (hnulls hk).imp (hlower _ (by decide +kernel)) (hlower _ (by decide +kernel))

/-- How the shapes of bars and brackets are spelled, in any mode. -/
theorem spells_bracket {m : Mode} :
    (m.spells .pipe w → w = ['|']) ∧ (m.spells .leftBracket w → w = ['[']) ∧
      (m.spells .rightBracket w → w = [']']) := by
  cases m with
  | command | explain | expression => exact ⟨id, id, id⟩
  | source | enrich => exact ⟨id, False.elim, id⟩

/-- The tokens of a text are spelled as the grammar expects. -/
theorem spelled (h : Cut fs shape w tail t fs') : t.Spelled := by
  have hs := h.found.spells
  have hread := h.read
  have htext := h.text
  cases shape with
  | fixed k =>
    obtain ⟨rfl, -⟩ := Prod.mk.inj hread
    rcases spells_fixed hs with hk | ⟨-, hfixed⟩ | ⟨hk, op, hop⟩ | ⟨hk, -⟩
    · exact spelled_of_mem fs.current.mode (by simp [hk])
    · exact Token.spelled_of_fixedText? (by rw [hfixed, htext])
    · refine spelled_of_not_isCased (by rw [hk]; rfl) (fun text ht => ?_) fun _ => ⟨op, htext ▸ hop⟩
      rw [hk] at ht
      cases ht
    · exact spelled_of_mem fs.current.mode (by simp [hk])
  | word =>
    rcases read_word hread with hentry | hname
    · exact spelled_of_entry hentry
    · exact spelled_of_mem fs.current.mode (List.mem_append_right _ hname)
  | pipe =>
    obtain ⟨hk, -⟩ := Prod.mk.inj hread
    obtain rfl := spells_bracket.1 hs
    exact Token.spelled_of_fixedText? (by rw [← hk, htext]; rfl)
  | leftBracket =>
    obtain ⟨hk, -⟩ := Prod.mk.inj hread
    obtain rfl := spells_bracket.2.1 hs
    exact Token.spelled_of_fixedText? (by rw [← hk, htext]; rfl)
  | rightBracket =>
    obtain ⟨hk, -⟩ := Prod.mk.inj hread
    obtain rfl := spells_bracket.2.2 hs
    exact Token.spelled_of_fixedText? (by rw [← hk, htext]; rfl)

/-- Blanks and comments leave the modes alone. -/
theorem frames_of_trivia (h : Cut fs shape w tail t fs') (ht : t.isSignificant = false) :
    fs' = fs := by
  have hread := h.read
  have htrivia : t.kind.isTrivia = true := by simpa [Token.isSignificant] using ht
  cases shape with
  | fixed k => exact (Prod.mk.inj hread).2.symm
  | word => exact absurd htrivia (by simp [isTrivia_of_isWordKind (isWordKind_of_read_word hread)])
  | pipe | leftBracket | rightBracket =>
    rw [← (Prod.mk.inj hread).1] at htrivia
    exact absurd htrivia (by decide)

/-- What is neither trivia nor an error is of a solid shape. -/
theorem isSolid (h : Cut fs shape w tail t fs') (ht : t.isSignificant = true)
    (he : t.kind ≠ .error) : shape.IsSolid := by
  rintro k rfl
  obtain ⟨rfl, -⟩ := Prod.mk.inj h.read
  exact ⟨he, by simpa [Token.isSignificant] using ht⟩

/-- In front of what breaks it off, what is neither trivia nor an error is cut off again. -/
theorem again_of_breaks (h : Cut fs shape w tail t fs') (hs : t.isSignificant = true)
    (he : t.kind ≠ .error) {after : List Char} (ha : ∀ c ∈ after.head?, c ∈ fs.current.mode.breaks) :
    Cut fs shape w after t fs' :=
  { h with lexeme := Option.some.inj (h.found.again (h.isSolid hs he) after ha) }

/-- No token but a run of blanks begins with a blank. -/
theorem not_isBlank (h : Cut fs shape w tail t fs') (hs : t.isSignificant = true) :
    ∀ c ∈ w.head?, isBlank c = false := by
  intro c hc
  obtain ⟨rest, rfl⟩ := List.head?_eq_some_iff.1 hc
  by_contra hblank
  have hlex := h.lexeme
  rw [List.cons_append, Mode.lexeme_blank _ (by simpa using hblank)] at hlex
  obtain rfl := (Lexeme.mk.inj hlex).1
  obtain ⟨hk, -⟩ := Prod.mk.inj h.read
  rw [Token.isSignificant, ← hk] at hs
  exact absurd hs (by decide)

/-- A word keeps its shape in print. -/
theorem shape_of_isCased (h : Cut fs shape w tail t fs') (hc : t.kind.isCased = true) :
    shape = .word := by
  have hs := h.found.spells
  have hread := h.read
  cases shape with
  | word => rfl
  | fixed k =>
    obtain ⟨rfl, -⟩ := Prod.mk.inj hread
    exfalso
    rcases spells_fixed hs with hk | ⟨hk, -⟩ | ⟨hk, -⟩ | ⟨hk, -⟩
    · exact absurd hc (by simp [(openKinds_plain _ _ (List.mem_cons_of_mem _
        (List.mem_append_left _ hk))).2.1])
    · exact absurd hc (by simp [hk])
    · rw [hk] at hc
      exact absurd hc (by decide)
    · rw [hk] at hc
      exact absurd hc (by decide)
  | pipe | leftBracket | rightBracket =>
    rw [← (Prod.mk.inj hread).1] at hc
    exact absurd hc (by decide)

/-- Among index patterns and the words of `ENRICH` stand no tokens of expressions, and only what
ends a stage changes the modes. -/
theorem of_pattern (h : Cut fs shape w tail t fs')
    (hm : fs.current.mode.IsPattern) :
    t.kind ∉ [Kind.leftParen, .rightParen, .leftBracket, .plus, .minus, .dot, .identifier,
      .quotedIdentifier] ∧ (t.kind ∈ [Kind.pipe, .rightBracket] ∨ fs' = fs) := by
  have hs : patternSpells fs.current.mode shape w := by
    have hs := h.found.spells
    rcases hm with hm | hm <;> rw [hm] at hs ⊢ <;> exact hs
  have hread := h.read
  cases shape with
  | fixed k =>
    obtain ⟨rfl, rfl⟩ := Prod.mk.inj hread
    have hplain : ∀ k ∈ fs.current.mode.openKinds ++ [.comma, .assign], k ∉ [Kind.leftParen,
        .rightParen, .leftBracket, .plus, .minus, .dot, .identifier, .quotedIdentifier] := by
      cases fs.current.mode <;> decide
    refine ⟨hplain _ ?_, .inr rfl⟩
    exact List.mem_append.2 (hs.imp_right And.left)
  | word =>
    change fs.readWord t.text = (t.kind, fs') at hread
    unfold Frames.readWord at hread
    rcases hm with hm | hm
    · rw [hm] at hread
      obtain ⟨hk, rfl⟩ := Prod.mk.inj hread
      exact ⟨by rw [← hk]; decide, .inr rfl⟩
    · rw [hm] at hread
      obtain ⟨hk, rfl⟩ := Prod.mk.inj hread
      refine ⟨?_, .inr rfl⟩
      rw [← hk]
      cases hword : enrichWords.kind? t.text with
      | none => decide
      | some k =>
        have hplain : ∀ entry ∈ enrichWords, entry.2 ∉ [Kind.leftParen, .rightParen, .leftBracket,
            .plus, .minus, .dot, .identifier, .quotedIdentifier] := by decide +kernel
        exact hplain _ (Vocabulary.mem_of_kind? hword)
  | pipe | rightBracket =>
    rw [← (Prod.mk.inj hread).1]
    exact ⟨by decide, .inl (by decide)⟩
  | leftBracket => exact hs.elim

/-- The text of a token of a kind with one text of one character. -/
theorem eq_singleton (h : Cut fs shape w tail t fs') {c : Char} (hc : t.kind.isCased = false)
    (ht : t.kind.fixedText? = some (String.ofList [c])) : w = [c] := by
  have htext : String.ofList w = String.ofList [c] := by
    rw [← h.text, ← Token.written_of_not_isCased hc, h.spelled.fixed _ ht]
  simpa using congrArg String.toList htext

theorem shape_of_dot (h : Cut fs shape w tail t fs') (hk : t.kind = .dot) :
    shape = .fixed .dot := by
  have hread := h.read
  rw [hk] at hread
  cases shape with
  | fixed k => rw [(Prod.mk.inj hread).1]
  | word => exact absurd (isWordKind_of_read_word hread) (by decide)
  | pipe | leftBracket | rightBracket => exact absurd (Prod.mk.inj hread).1 (by decide)

/-- A word in front of a dot is a word of an expression, or in backquotes. -/
theorem of_name (h : Cut fs shape w tail t fs')
    (hk : t.kind ∈ [Kind.identifier, .quotedIdentifier]) :
    shape = .word ∨ shape = .fixed .quotedIdentifier ∧ w.head? = some '\x60' := by
  have hs := h.found.spells
  have hread := h.read
  cases shape with
  | word => exact .inl rfl
  | fixed k =>
    obtain ⟨rfl, -⟩ := Prod.mk.inj hread
    simp only [List.mem_cons, List.not_mem_nil, or_false] at hk
    rcases hk with hk | hk
    · exact absurd hs (not_spells_fixed (by simp [hk]))
    · rw [hk] at hs
      rcases spells_fixed hs with h | ⟨-, h⟩ | ⟨h, -⟩ | ⟨-, h⟩
      · exact absurd h (by cases fs.current.mode <;> decide)
      · cases h
      · cases h
      · exact .inr ⟨by rw [hk], h⟩
  | pipe | leftBracket | rightBracket =>
    rw [← (Prod.mk.inj hread).1] at hk
    exact absurd hk (by decide)

/-- No token of a text ends the input. -/
theorem isEnd_eq_false (h : Cut fs shape w tail t fs') : t.isEnd = false := by
  have hs := h.found.spells
  have hread := h.read
  rw [Token.isEnd, decide_eq_false_iff_not]
  intro hk
  rw [hk] at hread
  cases shape with
  | fixed k =>
    rw [(Prod.mk.inj hread).1] at hs
    exact absurd hs (not_spells_fixed (by simp))
  | word => exact absurd (isWordKind_of_read_word hread) (by decide)
  | pipe | leftBracket | rightBracket => exact absurd (Prod.mk.inj hread).1 (by decide)

end Cut

/-- Each token of a text was cut off somewhere. -/
theorem Cuts.exists_cut (h : Cuts fs text ts) (ht : t ∈ ts) :
    ∃ fs shape w tail fs', Cut fs shape w tail t fs' := by
  induction h with
  | nil => cases ht
  | cons cut _ ih =>
    rcases List.mem_cons.1 ht with rfl | ht
    · exact ⟨_, _, _, _, _, cut⟩
    · exact ih ht

/-- The tokens of a text are spelled as the grammar expects, and none of them ends the input. -/
theorem Cuts.spelled (h : Cuts fs text ts) : ∀ t ∈ ts, t.Spelled ∧ t.isEnd = false := by
  intro t ht
  obtain ⟨_, _, _, _, _, hcut⟩ := h.exists_cut ht
  exact ⟨hcut.spelled, hcut.isEnd_eq_false⟩

/-- Blanks in front of something that is none are cut off together. -/
theorem cut_blanks {blanks : List Char} (hne : blanks ≠ []) (hb : ∀ c ∈ blanks, isBlank c = true)
    (hrest : ∀ c ∈ rest.head?, isBlank c = false) (hk : t.kind = .whitespace)
    (ht : t.text = String.ofList blanks) : Cut fs (.fixed .whitespace) blanks rest t fs where
  lexeme := by
    obtain ⟨c, blanks, rfl⟩ := List.exists_cons_of_ne_nil hne
    obtain ⟨hc, hblanks⟩ := List.forall_mem_cons.1 hb
    rw [List.cons_append, Mode.lexeme_blank _ hc, run_append hblanks hrest, List.length_cons,
      Nat.add_comm]
  ne_nil := hne
  text := ht
  read := by rw [hk]; rfl

/-- Without its blanks and comments a text is still cut off token by token. -/
theorem Cuts.chain (h : Cuts fs text ts) : Chain fs (ts.filter Token.isSignificant) := by
  induction h with
  | nil fs => exact .nil fs
  | @cons fs fs' shape w tail t ts cut _ ih =>
    by_cases ht : t.isSignificant = true
    · rw [List.filter_cons_of_pos ht]
      exact .cons cut ih
    · rw [List.filter_cons_of_neg ht, ← cut.frames_of_trivia (by simpa using ht)]
      exact ih

/-! ## Tokens in print -/

/-- What may stand behind a token of a kind without becoming part of it. -/
def Parts (m : Mode) (k : Kind) (tail : List Char) : Prop :=
  (∀ c ∈ tail.head?, c ∈ m.breaks) ∨
    k ∈ [Kind.leftParen, .leftBracket, .plus, .minus, .pipe, .rightBracket] ∨
    (k ∈ [Kind.identifier, .quotedIdentifier] ∧ tail.head? = some '.') ∨
    k = .dot ∧ ∀ c ∈ tail.head?, c.isDigit = false

theorem length_written (t : Token) : t.written.toList.length = t.text.toList.length := by
  unfold Token.written
  split_ifs <;> simp [String.toLower, String.toUpper]

theorem map_toLower_written (t : Token) :
    t.written.toList.map Char.toLower = t.text.toList.map Char.toLower := by
  have h := congrArg String.toList t.toLower_written
  simpa [String.toLower] using h

/-- A word is found again in print, in front of what breaks it off. -/
theorem Cut.lexeme_word (h : Cut fs .word w rest t fs') (hc : t.kind.isCased = true)
    (ht : ∀ c ∈ tail.head?, c ∈ fs.current.mode.breaks) :
    fs.current.mode.lexeme (t.written.toList ++ tail) = ⟨.word, t.written.toList.length⟩ := by
  have hs := h.found.spells
  have hlower : t.written.toList.map Char.toLower = w.map Char.toLower := by
    rw [map_toLower_written, h.text, String.toList_ofList]
  rcases fs.current.mode.cases_lexeme with ⟨hlex, hspelled, hbreaks⟩ | hm | hm
  · rw [hspelled] at hs
    rw [hbreaks] at ht
    have hword : IsWord t.written.toList := by
      rw [← isWord_toLower, hlower, isWord_toLower]
      exact hs
    rw [hlex]
    exact expressionLexeme_word hword fun c hc => not_isWordPart_of_mem_breaks c (ht c hc)
  · -- among index patterns no word is a keyword
    have hread := h.read
    change fs.readWord t.text = (t.kind, fs') at hread
    rw [Frames.readWord, hm] at hread
    rw [← (Prod.mk.inj hread).1] at hc
    exact absurd hc (by decide)
  · rw [hm] at hs ht
    have hparts : ∀ c ∈ t.written.toList, isPatternPart c = true := by
      intro c hc
      have hmem : c.toLower ∈ w.map Char.toLower := hlower ▸ List.mem_map_of_mem hc
      obtain ⟨d, hd, heq⟩ := List.mem_map.1 hmem
      rw [← isPatternPart_toLower, ← heq, isPatternPart_toLower]
      exact hs d hd
    have hne : t.written.toList ≠ [] := by
      intro hnil
      rw [hnil] at hlower
      exact h.ne_nil (List.map_eq_nil_iff.1 hlower.symm)
    have hbreak : ∀ c ∈ patternBreaks, isPatternPart c = false := by
      simp [patternBreaks, isPatternPart, isBlank]
    rw [hm]
    exact enrichLexeme_word hne hparts fun c hc => hbreak c (ht c hc)

namespace Cut

/-- What is not changed by printing is found again as it was. -/
theorem written_eq (h : Cut fs shape w rest t fs') (hc : t.kind.isCased = false) :
    t.written.toList = w := by
  rw [Token.written_of_not_isCased hc, h.text, String.toList_ofList]

/-- What is behind an opening token makes no difference to its lexeme. -/
theorem lexeme_opening (h : Cut fs shape w rest t fs')
    (hk : t.kind ∈ [Kind.leftParen, .leftBracket, .plus, .minus, .pipe, .rightBracket]) :
    fs.current.mode.lexeme (t.written.toList ++ tail) = ⟨shape, t.written.toList.length⟩ := by
  have hnot (hm : fs.current.mode.IsPattern)
      (hk : t.kind ∈ [Kind.leftParen, .leftBracket, .plus, .minus]) {entry : Char × Shape} :
      entry ∈ closings := by
    refine absurd ?_ (h.of_pattern hm).1
    simp only [List.mem_cons, List.not_mem_nil, or_false] at hk ⊢
    tauto
  obtain ⟨entry, hentry, hclosing, hc, htext⟩ : ∃ entry ∈ openings,
      (fs.current.mode.IsPattern → entry ∈ closings) ∧ t.kind.isCased = false ∧
        t.kind.fixedText? = some (String.ofList [entry.1]) := by
    simp only [List.mem_cons, List.not_mem_nil, or_false] at hk
    rcases hk with hk | hk | hk | hk | hk | hk <;> rw [hk] at hnot ⊢
    · exact ⟨('(', .fixed .leftParen), by simp [openings], (hnot · (by simp)), rfl, rfl⟩
    · exact ⟨('[', .leftBracket), by simp [openings], (hnot · (by simp)), rfl, rfl⟩
    · exact ⟨('+', .fixed .plus), by simp [openings], (hnot · (by simp)), rfl, rfl⟩
    · exact ⟨('-', .fixed .minus), by simp [openings], (hnot · (by simp)), rfl, rfl⟩
    · exact ⟨('|', .pipe), by simp [openings, closings], by simp [closings], rfl, rfl⟩
    · exact ⟨(']', .rightBracket), by simp [openings, closings], by simp [closings], rfl, rfl⟩
  have hlex := h.lexeme
  have hw : w = [entry.1] := h.eq_singleton hc htext
  rw [h.written_eq hc, hw]
  rw [hw] at hlex
  have hopening (text : List Char) : fs.current.mode.lexeme (entry.1 :: text) = ⟨entry.2, 1⟩ := by
    rcases fs.current.mode.cases_lexeme with ⟨heq, -⟩ | hm
    · rw [heq]
      exact expressionLexeme_single hentry
    · exact fs.current.mode.lexeme_closing (hclosing hm)
  exact (hopening tail).trans ((hopening rest).symm.trans hlex)

/-- A name is found again in front of a dot. -/
theorem lexeme_name (h : Cut fs shape w rest t fs')
    (hk : t.kind ∈ [Kind.identifier, .quotedIdentifier]) (hdot : tail.head? = some '.') :
    fs.current.mode.lexeme (t.written.toList ++ tail) = ⟨shape, t.written.toList.length⟩ := by
  have hc : t.kind.isCased = false := by
    simp only [List.mem_cons, List.not_mem_nil, or_false] at hk
    rcases hk with hk | hk <;> rw [hk] <;> rfl
  have hlex := h.lexeme
  have hspells := h.found.spells
  rw [h.written_eq hc]
  rcases fs.current.mode.cases_lexeme with ⟨hmode, hspelled, -⟩ | hm
  · rw [hmode] at hlex ⊢
    rw [hspelled] at hspells
    rcases h.of_name hk with rfl | ⟨rfl, hhead⟩
    · refine expressionLexeme_word hspells fun c hc => ?_
      obtain rfl := Option.some.inj (hdot.symm.trans hc)
      simp [isWordPart]
    · obtain ⟨text, rfl⟩ := List.head?_eq_some_iff.1 hhead
      have hagain : expressionLexeme
          (('\x60' :: text ++ rest).take ('\x60' :: text).length ++ tail)
            = ⟨.fixed .quotedIdentifier, ('\x60' :: text).length⟩ :=
        expressionLexeme_quoted hlex fun c hc => by
          obtain rfl := Option.some.inj (hdot.symm.trans hc)
          decide
      have htake : ('\x60' :: text ++ rest).take ('\x60' :: text).length = '\x60' :: text :=
        List.take_left
      rwa [htake] at hagain
  · refine absurd ?_ (h.of_pattern hm).1
    simp only [List.mem_cons, List.not_mem_nil, or_false] at hk ⊢
    tauto

/-- A dot is found again in front of anything but a digit. -/
theorem lexeme_dot (h : Cut fs shape w rest t fs') (hk : t.kind = .dot)
    (hdigit : ∀ c ∈ tail.head?, c.isDigit = false) :
    fs.current.mode.lexeme (t.written.toList ++ tail) = ⟨shape, t.written.toList.length⟩ := by
  have hc : t.kind.isCased = false := by rw [hk]; rfl
  have hw : w = ['.'] := h.eq_singleton hc (by rw [hk]; rfl)
  obtain rfl := h.shape_of_dot hk
  rw [h.written_eq hc, hw]
  rcases fs.current.mode.cases_lexeme with ⟨hmode, -⟩ | hm
  · rw [hmode]
    exact expressionLexeme_dot hdigit
  · exact absurd (by simp [hk]) (h.of_pattern hm).1

/-- In front of what parts it from the rest, a token in print has the lexeme that it had. -/
theorem lexeme_written (h : Cut fs shape w rest t fs') (hs : t.isSignificant = true)
    (he : t.kind ≠ .error) (ht : Parts fs.current.mode t.kind tail) :
    fs.current.mode.lexeme (t.written.toList ++ tail) = ⟨shape, t.written.toList.length⟩ := by
  rcases ht with hbreak | hopen | ⟨hname, hdot⟩ | ⟨hdot, hdigit⟩
  · by_cases hc : t.kind.isCased = true
    · obtain rfl := h.shape_of_isCased hc
      exact h.lexeme_word hc hbreak
    · rw [h.written_eq (by simpa using hc)]
      exact (h.again_of_breaks hs he hbreak).lexeme
  · exact h.lexeme_opening hopen
  · exact h.lexeme_name hname hdot
  · exact h.lexeme_dot hdot hdigit

theorem written_ne_nil (h : Cut fs shape w rest t fs') : t.written.toList ≠ [] := by
  rw [← List.length_pos_iff, length_written, h.text, String.toList_ofList]
  exact List.length_pos_iff.2 h.ne_nil

/-- In front of what parts it from the rest, a token in print is cut off again. -/
theorem again (h : Cut fs shape w rest t fs') (hs : t.isSignificant = true) (he : t.kind ≠ .error)
    (ht : Parts fs.current.mode t.kind tail) {u : Token} (hk : u.kind = t.kind)
    (hu : u.text = t.written) : Cut fs shape t.written.toList tail u fs' where
  lexeme := h.lexeme_written hs he ht
  ne_nil := h.written_ne_nil
  text := by rw [hu, String.ofList_toList]
  read := by
    rw [hk, ← h.read]
    exact Frames.read_congr (by rw [hu, Token.toLower_written])

/-- No name of an expression begins with a digit. -/
theorem not_isDigit (h : Cut fs shape w rest t fs')
    (hk : t.kind ∈ [Kind.identifier, .quotedIdentifier]) :
    ∀ c ∈ t.written.toList.head?, c.isDigit = false := by
  have hc : t.kind.isCased = false := by
    simp only [List.mem_cons, List.not_mem_nil, or_false] at hk
    rcases hk with hk | hk <;> rw [hk] <;> rfl
  have hspells := h.found.spells
  rw [h.written_eq hc]
  intro c hc
  rcases h.of_name hk with rfl | ⟨-, hhead⟩
  · rcases fs.current.mode.cases_lexeme with ⟨-, hspelled, -⟩ | hm
    · rw [hspelled] at hspells
      obtain ⟨d, ds, rfl, -, hd⟩ := hspells
      obtain rfl := Option.some.inj hc
      exact (word_first (hd.imp_right And.left)).2.2.2.2.2
    · refine absurd ?_ (h.of_pattern hm).1
      simp only [List.mem_cons, List.not_mem_nil, or_false] at hk ⊢
      tauto
  · obtain rfl := Option.some.inj (hhead.symm.trans hc)
    simp

/-- No token in print begins with a blank. -/
theorem not_isBlank_written (h : Cut fs shape w rest t fs') (hs : t.isSignificant = true)
    (he : t.kind ≠ .error) : ∀ c ∈ t.written.toList.head?, isBlank c = false := by
  let u : Token := { t with text := t.written }
  have hcut : Cut fs shape t.written.toList [] u fs' := h.again hs he (.inl (by simp)) rfl rfl
  exact hcut.not_isBlank hs

end Cut

end Lexer

end PipeQuery
