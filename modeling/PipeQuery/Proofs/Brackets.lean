import PipeQuery.Proofs.Ahead
import PipeQuery.Proofs.Places

/-!
# Brackets and stages

The frames of a scan remember the brackets that are open: each frame counts the lists that are open
in its query, and each frame around the query stands for the bracket that opened it. Read off in
that order they are `Frames.brackets`. Ordinary matching over the tokens knows nothing of modes: an
opening bracket is put down with its position, and a closing bracket takes the last one away, if
there is one (`unmatched`).

`Mirrors` is the invariant of a scan. The brackets of the frames are those without a partner among
the tokens so far; the mode of the current frame tells which command word the stage began with
(`Mode.Tells`); and each token so far stood in a stage of its own kind (`Belongs`). It is kept by
every token that is cut off (`Mirrors.cut`), so it holds behind every step of a scan
(`mirrors_steps`).
-/

namespace PipeQuery

/-- The command word of the stages in which tokens of a kind are read, for the kinds that are read
in the stages of one command only. -/
def Kind.stageWord? : Kind → Option Kind
  | sourceIdentifier | quotedSourceIdentifier => some kwFrom
  | enrichIdentifier | quotedEnrichIdentifier | kwOn | kwWith => some kwEnrich
  | _ => none

namespace Lexer

/-- What an opening bracket opens. -/
inductive Bracket where
  /-- A list, or nothing that the grammar knows. -/
  | list
  /-- The query behind `EXPLAIN`. -/
  | query
deriving DecidableEq, Repr

/-- The kinds of the command words. -/
def commandKinds : List Kind := commandWords.map Prod.snd

/-- The command words that begin stages with a mode of their own. -/
def modeWords : List Kind := [.kwFrom, .kwEnrich, .kwExplain]

variable {fs fs' : Frames} {shape : Shape} {w tail : List Char} {t : Token} {k word : Kind}
  {ks : List Kind} {opens : Nat → Bracket}

/-! ## Ordinary matching -/

/-- What is open behind a token at a position, by the positions of the opening brackets. -/
def matchBracket (opened : List Nat) : Kind × Nat → List Nat
  | (.leftBracket, i) => i :: opened
  | (.rightBracket, _) => opened.tail
  | _ => opened

/-- The positions of the opening brackets that have no partner among some tokens, last one first. -/
def unmatched (ks : List Kind) : List Nat := ks.zipIdx.foldl matchBracket []

theorem unmatched_snoc (ks : List Kind) (k : Kind) :
    unmatched (ks ++ [k]) = matchBracket (unmatched ks) (k, ks.length) := by
  rw [unmatched, List.zipIdx_append, List.foldl_append, Nat.zero_add]
  rfl

/-! ## The brackets of the frames -/

/-- The brackets that are open, innermost first. -/
def Frames.brackets (fs : Frames) : List Bracket :=
  List.replicate fs.current.brackets .list ++
    fs.outer.flatMap fun frame => .query :: List.replicate frame.brackets .list

/-- What an opening bracket opens in a mode. -/
def Mode.bracket (m : Mode) : Bracket := if m = .explain then .query else .list

/-- How a closing bracket leads from some frames to others. No count is lowered that is zero, and
the last frame is never left. -/
inductive Closes : Frames → Frames → Prop
  /-- It closes a list. -/
  | list (m : Mode) (n : Nat) (outer : List Frame) : Closes ⟨⟨m, n + 1⟩, outer⟩ ⟨⟨m, n⟩, outer⟩
  /-- It closes a query. -/
  | query (m : Mode) (frame : Frame) (outer : List Frame) :
    Closes ⟨⟨m, 0⟩, frame :: outer⟩ ⟨frame, outer⟩
  /-- It closes nothing. -/
  | stray (m : Mode) : Closes ⟨⟨m, 0⟩, []⟩ ⟨⟨m, 0⟩, []⟩

namespace Frames

@[simp] theorem brackets_setMode (m : Mode) : (fs.setMode m).brackets = fs.brackets := rfl

theorem brackets_openBracket : fs.openBracket.brackets = fs.current.mode.bracket :: fs.brackets := by
  unfold openBracket Mode.bracket
  split
  · rfl
  · rw [brackets, List.replicate_succ, List.cons_append]
    rfl

theorem closes_closeBracket (fs : Frames) : Closes fs fs.closeBracket := by
  obtain ⟨⟨m, n⟩, outer⟩ := fs
  cases n with
  | succ n => exact .list m n outer
  | zero =>
    cases outer with
    | nil => exact .stray m
    | cons frame outer => exact .query m frame outer

theorem brackets_closeBracket : fs.closeBracket.brackets = fs.brackets.tail := by
  have h := fs.closes_closeBracket
  generalize fs.closeBracket = fs' at h
  cases h with
  | list m n outer =>
    rw [brackets, brackets, List.replicate_succ]
    rfl
  | query m frame outer => rfl
  | stray m => rfl

/-- A closing bracket leaves the mode alone, or it leads back behind a query. -/
theorem Settled.mode_closeBracket (h : fs.Settled) :
    fs.closeBracket.current.mode = fs.current.mode ∨
      fs.closeBracket.current.mode = .expression := by
  have hcloses := fs.closes_closeBracket
  generalize fs.closeBracket = fs' at hcloses
  cases hcloses with
  | list | stray => exact .inl rfl
  | query m frame outer => exact .inr (h frame (List.mem_cons_self ..))

/-- The frames match brackets in the ordinary way. -/
theorem brackets_behind {opened : List Nat} (i : Nat) (h : fs.brackets = opened.map opens)
    (hi : opens i = fs.current.mode.bracket) :
    (fs.behind k).brackets = (matchBracket opened (k, i)).map opens := by
  by_cases hleft : k = .leftBracket
  · subst hleft
    show fs.openBracket.brackets = opens i :: opened.map opens
    rw [brackets_openBracket, h, hi]
  by_cases hright : k = .rightBracket
  · subst hright
    show fs.closeBracket.brackets = opened.tail.map opens
    rw [brackets_closeBracket, h, List.map_tail]
  have hmatch : matchBracket opened (k, i) = opened := by
    unfold matchBracket
    split <;> simp_all
  rw [hmatch, ← h]
  by_cases hcommand : .command ∈ k.modes
  · by_cases hpipe : k = .pipe
    · subst hpipe
      rfl
    · rw [behind_keyword hpipe hright hcommand, brackets_setMode]
  · rw [behind_eq hleft hcommand]

end Frames

/-! ## Stages -/

/-- The last command word among some tokens is the given one, and no bar is behind it. -/
def InStage (word : Kind) (ks : List Kind) : Prop :=
  ∃ before behind, ks = before ++ word :: behind ∧ ∀ k ∈ behind, k ∉ commandKinds ∧ k ≠ .pipe

/-- Behind each command word among some tokens there is a bar or an opening bracket. -/
def Fresh (ks : List Kind) : Prop :=
  ∀ before word behind, ks = before ++ word :: behind → word ∈ commandKinds →
    ∃ k ∈ behind, k = .pipe ∨ k = .leftBracket

/-- A token of a kind has its place behind some tokens. -/
structure Belongs (opens : Nat → Bracket) (ks : List Kind) (k : Kind) : Prop where
  fresh : k ∈ commandKinds → Fresh ks
  stage : ∀ word ∈ k.stageWord?, InStage word ks
  query : k = .leftBracket → opens ks.length = .query → InStage .kwExplain ks

/-- Each of some tokens has its place behind those in front of it. -/
def AllBelong (opens : Nat → Bracket) (ks : List Kind) : Prop :=
  ∀ before k after, ks = before ++ k :: after → Belongs opens before k

/-- The end of the input may stand anywhere. -/
theorem belongs_endOfInput : Belongs opens ks .endOfInput where
  fresh hk := absurd hk (by decide)
  stage word hword := absurd hword (by simp [Kind.stageWord?])
  query hk := absurd hk (by decide)

/-- A row with a last token, split at one of its tokens. -/
theorem cases_snoc {before after : List Kind} {k' : Kind}
    (h : ks ++ [k'] = before ++ k :: after) :
    (before = ks ∧ k = k' ∧ after = []) ∨
      ∃ between, after = between ++ [k'] ∧ ks = before ++ k :: between := by
  rcases List.eq_nil_or_concat after with rfl | ⟨between, last, rfl⟩
  · obtain ⟨rfl, hk⟩ := List.append_inj' h rfl
    exact .inl ⟨rfl, (List.singleton_inj.1 hk).symm, rfl⟩
  · rw [List.concat_eq_append, ← List.cons_append, ← List.append_assoc] at h
    obtain ⟨rfl, hlast⟩ := List.append_inj' h rfl
    obtain rfl := List.singleton_inj.1 hlast
    exact .inr ⟨between, List.concat_eq_append .., rfl⟩

theorem InStage.snoc (h : InStage word ks) (hcommand : k ∉ commandKinds) (hpipe : k ≠ .pipe) :
    InStage word (ks ++ [k]) := by
  obtain ⟨before, behind, rfl, hbehind⟩ := h
  refine ⟨before, behind ++ [k], by simp, ?_⟩
  intro k' hk'
  rcases List.mem_append.1 hk' with hk' | hk'
  · exact hbehind k' hk'
  · obtain rfl := List.mem_singleton.1 hk'
    exact ⟨hcommand, hpipe⟩

theorem inStage_snoc_self : InStage k (ks ++ [k]) := ⟨ks, [], rfl, by simp⟩

theorem Fresh.snoc (h : Fresh ks) (hk : k ∉ commandKinds) : Fresh (ks ++ [k]) := by
  intro before word behind heq hword
  rcases cases_snoc heq with ⟨-, rfl, -⟩ | ⟨between, rfl, hks⟩
  · exact absurd hword hk
  · obtain ⟨k', hk', hopens⟩ := h before word between hks hword
    exact ⟨k', List.mem_append_left _ hk', hopens⟩

theorem fresh_snoc (ks : List Kind) (hk : k = .pipe ∨ k = .leftBracket) : Fresh (ks ++ [k]) := by
  intro before word behind heq hword
  rcases cases_snoc heq with ⟨-, rfl, -⟩ | ⟨between, rfl, -⟩
  · rcases hk with rfl | rfl <;> exact absurd hword (by decide)
  · exact ⟨k, by simp, hk⟩

theorem AllBelong.snoc (h : AllBelong opens ks) (hk : Belongs opens ks k) :
    AllBelong opens (ks ++ [k]) := by
  intro before k' after heq
  rcases cases_snoc heq with ⟨rfl, rfl, -⟩ | ⟨between, -, hks⟩
  · exact hk
  · exact h before k' between hks

/-! ## What is told by the mode -/

/-- In the mode tokens of the kind are read, as far as the kind is one of command words or of the
stages of one command. -/
def Mode.Reads (m : Mode) (k : Kind) : Prop :=
  (k ∈ commandKinds → m = .command) ∧ ∀ word ∈ k.stageWord?, m = .after word

instance (m : Mode) (k : Kind) : Decidable (m.Reads k) := inferInstanceAs (Decidable (_ ∧ _))

/-- A token is read in its mode. -/
theorem Cut.reads (h : Cut fs shape w tail t fs') : fs.current.mode.Reads t.kind := by
  have hplain : ∀ k : Kind, k.isCased = false → k.fixedText? ≠ none →
      ∀ m : Mode, m.Reads k := by
    intro k hk htext m
    have hk : k ∉ commandKinds ∧ k.stageWord? = none := by
      revert hk htext
      cases k <;> decide
    exact ⟨fun hmem => absurd hmem hk.1, by simp [hk.2]⟩
  have hread := h.read
  cases shape with
  | fixed k =>
    have hs := h.found.spells
    obtain ⟨rfl, -⟩ := Prod.mk.inj hread
    have hopen : ∀ m : Mode, ∀ k ∈ m.openKinds, m.Reads k := by
      intro m
      cases m <;> decide
    have hother : ∀ k ∈ [Kind.comparison, .quotedIdentifier], ∀ m : Mode, m.Reads k := by
      intro k hk m
      revert k
      cases m <;> decide
    rcases spells_fixed hs with hk | ⟨hk, htext⟩ | ⟨hk, -⟩ | ⟨hk, -⟩
    · exact hopen _ _ hk
    · exact hplain _ hk (by simp [htext]) _
    · exact hother _ (by simp [hk]) _
    · exact hother _ (by simp [hk]) _
  | word =>
    have hwords : ∀ m : Mode, m.Reads m.name ∧ ∀ entry ∈ m.words, m.Reads entry.2 := by
      intro m
      cases m <;> decide +kernel
    obtain ⟨hname, hwords⟩ := hwords fs.current.mode
    have hread : fs.readWord t.text = (t.kind, fs') := hread
    rw [fs.readWord_eq] at hread
    split at hread
    · next k hword =>
      rw [← (Prod.mk.inj hread).1]
      exact hwords _ (Vocabulary.mem_of_kind? hword)
    · rw [← (Prod.mk.inj hread).1]
      exact hname
  | pipe | leftBracket | rightBracket =>
    rw [← (Prod.mk.inj hread).1]
    exact hplain _ rfl (by decide) _

/-- What the mode behind some tokens tells of them. -/
structure Mode.Tells (m : Mode) (ks : List Kind) : Prop where
  command : m = .command → Fresh ks
  stage : ∀ word ∈ modeWords, m = .after word → InStage word ks

namespace Mode

variable {m : Mode}

theorem after_ne : ∀ word ∈ modeWords, after word ≠ .command ∧ after word ≠ .expression := by
  decide

theorem tells_command (h : Fresh ks) : command.Tells ks where
  command _ := h
  stage word hword hm := absurd hm.symm (after_ne word hword).1

/-- In an expression nothing is told. -/
theorem tells_expression (ks : List Kind) : expression.Tells ks where
  command hm := absurd hm (by decide)
  stage word hword hm := absurd hm.symm (after_ne word hword).2

/-- Behind a command word its stage begins. -/
theorem tells_after (ks : List Kind) (hk : k ∈ commandKinds) : (after k).Tells (ks ++ [k]) := by
  have hmodes : ∀ k ∈ commandKinds, after k ≠ .command ∧
      ∀ word ∈ modeWords, after k = .after word → word = k := by decide
  obtain ⟨hcommand, hstage⟩ := hmodes k hk
  refine ⟨fun hm => absurd hm hcommand, ?_⟩
  intro word hword hm
  rw [hstage word hword hm]
  exact inStage_snoc_self

/-- A token that leaves the mode alone is part of the stage. -/
theorem Tells.snoc (h : m.Tells ks) (hcommand : k ∉ commandKinds) (hpipe : k ≠ .pipe) :
    m.Tells (ks ++ [k]) where
  command hm := (h.command hm).snoc hcommand
  stage word hword hm := (h.stage word hword hm).snoc hcommand hpipe

end Mode

/-- Behind each token the mode tells where in a stage it is. -/
theorem Frames.tells_behind (h : fs.current.mode.Tells ks) (hs : fs.Settled) (k : Kind) :
    (fs.behind k).current.mode.Tells (ks ++ [k]) := by
  by_cases hpipe : k = .pipe
  · subst hpipe
    exact Mode.tells_command (fresh_snoc ks (.inl rfl))
  by_cases hleft : k = .leftBracket
  · subst hleft
    show fs.openBracket.current.mode.Tells _
    by_cases hexplain : fs.current.mode = .explain
    · rw [openBracket, if_pos hexplain]
      exact Mode.tells_command (fresh_snoc ks (.inr rfl))
    · rw [mode_openBracket hexplain]
      exact h.snoc (by decide) hpipe
  by_cases hright : k = .rightBracket
  · subst hright
    show fs.closeBracket.current.mode.Tells _
    rcases hs.mode_closeBracket with hmode | hmode
    · rw [hmode]
      exact h.snoc (by decide) hpipe
    · rw [hmode]
      exact Mode.tells_expression _
  -- what is left are the command words, which set the mode, and tokens that leave the frames alone
  by_cases hcommand : k ∈ commandKinds
  · have hmodes : ∀ k ∈ commandKinds, Mode.command ∈ k.modes := by decide
    rw [behind_keyword hpipe hright (hmodes k hcommand)]
    exact Mode.tells_after ks hcommand
  · have hmodes : ∀ k : Kind, k ≠ .pipe → k ≠ .rightBracket → k ∉ commandKinds →
        .command ∉ k.modes := by
      intro k
      cases k <;> decide
    rw [behind_eq hleft (hmodes k hpipe hright hcommand)]
    exact h.snoc hcommand hpipe

/-! ## The invariant of a scan -/

/-- The frames mirror the tokens in front of them. -/
structure Mirrors (opens : Nat → Bracket) (ks : List Kind) (fs : Frames) : Prop where
  brackets : fs.brackets = (unmatched ks).map opens
  settled : fs.Settled
  tells : fs.current.mode.Tells ks
  belong : AllBelong opens ks

namespace Mirrors

/-- At the start of a text there is nothing to mirror. -/
theorem start (opens : Nat → Bracket) : Mirrors opens [] (.start .command) where
  brackets := rfl
  settled := by simp [Frames.Settled, Frames.start]
  tells := by
    refine Mode.tells_command ?_
    intro before word behind heq
    exact absurd heq (by simp)
  belong := by
    intro before k after heq
    exact absurd heq (by simp)

/-- The next token has its place. -/
theorem belongs (h : Mirrors opens ks fs) (hreads : fs.current.mode.Reads k)
    (hopens : opens ks.length = fs.current.mode.bracket) : Belongs opens ks k where
  fresh hk := h.tells.command (hreads.1 hk)
  stage word hword := by
    have hmem : ∀ k : Kind, ∀ word ∈ k.stageWord?, word ∈ modeWords := by
      intro k
      cases k <;> decide
    exact h.tells.stage word (hmem k word hword) (hreads.2 word hword)
  query _ hquery := by
    rw [hopens, Mode.bracket] at hquery
    split at hquery
    · next hmode => exact h.tells.stage .kwExplain (by decide) hmode
    · cases hquery

/-- Cutting off a token keeps the frames in step. -/
theorem cut (h : Mirrors opens ks fs) (hcut : Cut fs shape w tail t fs')
    (hopens : opens ks.length = fs.current.mode.bracket) :
    Mirrors opens (ks ++ [t.kind]) fs' := by
  have hbelongs := h.belongs hcut.reads hopens
  have hsettled := h.settled.read hcut.read
  obtain rfl := hcut.frames_eq
  refine ⟨?_, hsettled, Frames.tells_behind h.tells h.settled t.kind, h.belong.snoc hbelongs⟩
  rw [unmatched_snoc, Frames.brackets_behind _ h.brackets hopens]

end Mirrors

/-! ## The brackets of a text -/

/-- One step more. -/
theorem Scan.steps_succ (n : Nat) (s : Scan) :
    s.steps (n + 1) = if (s.steps n).rest.isEmpty then s.steps n else (s.steps n).step := by
  induction n generalizing s with
  | zero => rfl
  | succ n ih =>
    by_cases h : s.rest.isEmpty = true
    · have hnil : s.rest = [] := List.isEmpty_iff.1 h
      rw [steps_of_rest_eq_nil hnil, steps_of_rest_eq_nil hnil, if_pos h]
    · have hstep (n : Nat) : s.steps (n + 1) = s.step.steps n := by rw [steps, if_neg h]
      rw [hstep, hstep, ih]

/-- What the bracket opens that is the token of a text at a position. -/
def bracketAt (text : String) (i : Nat) : Bracket :=
  ((Scan.start .command text.toList).steps i).frames.current.mode.bracket

/-- Behind every step the frames mirror the tokens so far, of which there is one for each step. -/
theorem mirrors_steps (text : String) (n : Nat) :
    let s := (Scan.start .command text.toList).steps n
    Mirrors (bracketAt text) (s.tokens.reverse.map Token.kind) s.frames ∧
      (s.rest ≠ [] → s.tokens.length = n) := by
  induction n with
  | zero => exact ⟨.start _, fun _ => rfl⟩
  | succ n ih =>
    rw [Scan.steps_succ]
    set s := (Scan.start .command text.toList).steps n with hs
    obtain ⟨hmirrors, hlength⟩ := ih
    by_cases hrest : s.rest = []
    · rw [if_pos (List.isEmpty_iff.2 hrest)]
      exact ⟨hmirrors, fun hne => absurd hrest hne⟩
    · rw [if_neg (by simpa using hrest)]
      obtain ⟨shape, w, t, -, htokens, hcut⟩ := exists_cut_step hrest
      have hopens : bracketAt text (s.tokens.reverse.map Token.kind).length
          = s.frames.current.mode.bracket := by
        rw [List.length_map, List.length_reverse, hlength hrest, bracketAt, ← hs]
      refine ⟨?_, fun _ => ?_⟩
      · rw [htokens, List.reverse_cons, List.map_append]
        exact hmirrors.cut hcut hopens
      · rw [htokens, List.length_cons, hlength hrest]

/-- Whatever a text is, the frames mirror its brackets and its stages.

Behind every step of the scan the brackets of the frames are the opening brackets that ordinary
matching over the tokens leaves without a partner, and a closing bracket neither lowers a count that
is zero nor leaves the last frame. So there is a bar or an opening bracket between any two command
words. A token of an index pattern or of the clauses of `ENRICH` stands in a stage of that command,
and so does a bracket behind `EXPLAIN` that opens a query. -/
theorem frames_mirror_tokenize (text : String) :
    (∀ n, let s := (Scan.start .command text.toList).steps n
      s.frames.brackets = (unmatched (s.tokens.reverse.map Token.kind)).map (bracketAt text) ∧
        (s.rest ≠ [] → s.token.1.kind = .rightBracket → Closes s.frames s.step.frames)) ∧
    (∀ before word between word' after,
      (tokenize text).map Token.kind = before ++ word :: between ++ word' :: after →
      word ∈ commandKinds → word' ∈ commandKinds → ∃ k ∈ between, k = .pipe ∨ k = .leftBracket) ∧
    ∀ before k after, (tokenize text).map Token.kind = before ++ k :: after →
      (∀ word ∈ k.stageWord?, InStage word before) ∧
        (k = .leftBracket → bracketAt text before.length = .query → InStage .kwExplain before) := by
  have hall : AllBelong (bracketAt text) ((tokenize text).map Token.kind) := by
    have hmirrors := (mirrors_steps text text.length).1
    have hkinds := hmirrors.belong.snoc belongs_endOfInput
    rw [tokenize, tokenizeFrom, Scan.finish, List.reverse_cons, List.map_append]
    exact hkinds
  refine ⟨fun n => ⟨(mirrors_steps text n).1.brackets, ?_⟩, ?_, ?_⟩
  · intro hrest hkind
    obtain ⟨shape, w, t, -, htokens, hcut⟩ := exists_cut_step hrest
    have ht : t.kind = .rightBracket := by
      rw [← hkind]
      exact congrArg Token.kind (List.cons.inj htokens).1.symm
    rw [hcut.frames_eq, ht]
    exact Frames.closes_closeBracket _
  · intro before word between word' after heq hword hword'
    exact (hall (before ++ word :: between) word' after heq).fresh hword' before word between rfl
      hword
  · intro before k after heq
    exact ⟨(hall before k after heq).stage, (hall before k after heq).query⟩

/-- A query in brackets, with a stage behind it. -/
theorem frames_mirror_tokenize_explain :
    let text := "EXPLAIN [FROM a] | ENRICH p"
    let s := (Scan.start .command text.toList).steps 6
    (tokenize text).map Token.kind = [.kwExplain, .whitespace, .leftBracket, .kwFrom, .whitespace,
      .sourceIdentifier, .rightBracket, .whitespace, .pipe, .whitespace, .kwEnrich, .whitespace,
      .enrichIdentifier, .endOfInput] ∧
    s.frames.brackets = [.query] ∧ Closes s.frames s.step.frames ∧
    (∃ k ∈ [Kind.whitespace, .leftBracket], k = .pipe ∨ k = .leftBracket) ∧
    InStage .kwExplain [.kwExplain, .whitespace] ∧
    InStage .kwFrom [.kwExplain, .whitespace, .leftBracket, .kwFrom, .whitespace] := by
  intro text s
  have hkinds : (tokenize text).map Token.kind = [.kwExplain, .whitespace, .leftBracket, .kwFrom,
      .whitespace, .sourceIdentifier, .rightBracket, .whitespace, .pipe, .whitespace, .kwEnrich,
      .whitespace, .enrichIdentifier, .endOfInput] := by decide +kernel
  obtain ⟨hframes, hwords, hstages⟩ := frames_mirror_tokenize text
  obtain ⟨hbrackets, hcloses⟩ := hframes 6
  refine ⟨hkinds, ?_, ?_, ?_, ?_, ?_⟩
  · rw [hbrackets]
    decide +kernel
  · exact hcloses (by decide +kernel) (by decide +kernel)
  · exact hwords [] .kwExplain [.whitespace, .leftBracket] .kwFrom _ hkinds (by decide) (by decide)
  · exact (hstages [.kwExplain, .whitespace] .leftBracket _ hkinds).2 rfl (by decide +kernel)
  · exact (hstages [.kwExplain, .whitespace, .leftBracket, .kwFrom, .whitespace] .sourceIdentifier _
      hkinds).1 .kwFrom rfl

end Lexer

end PipeQuery
