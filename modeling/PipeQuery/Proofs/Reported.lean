import PipeQuery.Proofs.BackedTrees
import PipeQuery.Proofs.RestoredContext

/-!
# Nothing goes wrong unreported

A diagnostic may be held back, so it is not enough that the rules report whatever goes wrong. What
they rely on is that one is held back behind another one only. `State.Accounted` says what follows
for a state: it is left with a diagnostic by whichever rule gives up there, takes down a mishap,
passes over a token, or takes one for granted. All states that a run comes to are accounted for
(`State.Reaches`), and no diagnostic is taken back. So where nothing is reported nothing was wrong:
no command is missing, no region is an error, and all the tokens of the tree are tokens of the text.

## Main statement

* `reported_parse`
-/

namespace PipeQuery

namespace Grammar

open State Rule

/-! ## The states of a run -/

/-- A run comes from one state to another: by steps of its rules, and into other scopes and out of
them. -/
inductive State.Reaches (s : State) : State → Prop
  | refl : Reaches s s
  | step {t u : State} (reached : Reaches s t) (next : Step true t u) : Reaches s u
  | within {t : State} (reached : Reaches s t) (scope : Scope) : Reaches s { t with scope := scope }

namespace State.Reaches

variable {s t u : State}

theorem steps (h : s.Reaches t) (hsteps : t.Steps true u) : s.Reaches u := by
  induction hsteps with
  | refl => exact h
  | tail _ next ih => exact ih.step next

/-- What holds throughout a run does not depend on the scope. -/
theorem regular (h : s.Reaches t) (hs : s.Regular) : t.Regular := by
  induction h with
  | refl => exact hs
  | step _ next ih => exact next.regular ih
  | within _ scope ih => exact ⟨ih.valid, ih.recovering, ih.halted⟩

/-- No diagnostic is taken back. -/
theorem diagnostics (h : s.Reaches t) (hs : s.diagnostics ≠ #[]) : t.diagnostics ≠ #[] := by
  induction h with
  | refl => exact hs
  | step _ next ih => exact fun hd => ih (next.diagnostics hd)
  | within _ _ ih => exact ih

end State.Reaches

/-- Nothing goes wrong in a state without a diagnostic, and none is taken back behind it. -/
structure State.Accounted (s : State) : Prop where
  /-- A diagnostic is held back behind another one only. -/
  recovering : s.recovering = true → s.diagnostics ≠ #[]
  /-- The reading is ended by a diagnostic only. -/
  halted : s.halted = true → s.diagnostics ≠ #[]
  /-- Whichever rule is read: the run goes on to where it ends, and there is a diagnostic if it gives
  up, or if there is a mishap in it. -/
  rule {levels : Nat} {α : Type} {x : Watched α} {r : Rule α} (h : IsRule levels x r) :
    s.Reaches (r.run s).2 ∧
      ((r.run s).1 = none ∨ (r.run s).2.mishaps ≠ s.mishaps → (r.run s).2.diagnostics ≠ #[])
  /-- A token that is expected is the next one, unless there is a diagnostic. -/
  expected (kinds : KindSet) :
    (expectAny kinds).run s = (some s.current, s.bump) ∨
      ((expectAny kinds).run s).2.diagnostics ≠ #[]
  /-- What stands behind a whole command is passed over with a diagnostic. -/
  extraneous : s.skipExtraneous.diagnostics ≠ #[]
  /-- No diagnostic is taken back. -/
  lasting {t : State} (h : s.Reaches t) : s.diagnostics ≠ #[] → t.diagnostics ≠ #[]

theorem State.Regular.accounted {s : State} (hs : s.Regular) : s.Accounted where
  recovering := hs.recovering
  halted hhalted := (hs.halted hhalted).2
  rule h := by
    refine ⟨Reaches.refl.steps (h.lawful.steps s), fun hwrong hd => ?_⟩
    obtain hnone | hmishap := hwrong
    · exact h.lawful.blames s hs hnone hd
    · exact hmishap (h.formed.mishaps_eq hs hd)
  expected := hs.expectAny
  extraneous := hs.diagnostics_skipExtraneous
  lasting h := h.diagnostics

/-- All states that are come to from the beginning of a text are accounted for. -/
theorem State.Reaches.accounted {config : Config} {tokens : List Token} {s : State}
    (h : (State.start config tokens).Reaches s) : s.Accounted :=
  (h.regular (State.regular_start config tokens)).accounted

end Grammar

open Grammar

/-- Where no expression is answered there is a diagnostic. -/
theorem parseExpression_ne_error_nil (text : String) :
    (parseExpression text).result ≠ .error [] := by
  have hstart := State.regular_start {} (tokenizeFrom .expression text)
  have hgivesUp := (hstart.accounted.rule (IsRule.wholeExpression ({} : Config).maxDepth)).2
  intro hresult
  simp only [parseExpression] at hresult
  split at hresult
  · split at hresult
    · cases hresult
    · next hd => simp_all
  · next hnone =>
    have hd := Except.error.inj hresult
    exact hgivesUp (.inl hnone) (Array.toList_eq_nil_iff.1 hd)

/-- Nothing goes wrong unreported, whatever the tokens are and however they are to be read. All
states that a run comes to are accounted for. Where nothing is reported at the end, there were no
mishaps; no command of the statement is missing, at any level, and the tokens that it is made of are
tokens of the text, so it holds no placeholder unless the text does. And where an expression is asked
for and none is answered, there are diagnostics. -/
theorem reported_parse (tokens : List Token) (config : Config) (text : String) :
    (∀ s, (State.start config tokens).Reaches s → s.Accounted) ∧
    ((parse tokens config).isOk = true →
      (Grammar.statement config.maxDepth (.start config tokens)).2.mishaps = ([], []) ∧
      (Phrase.query (parse tokens config).statement.query).WhollyBacked tokens ∧
      ((∀ token ∈ tokens, ¬ IsPlaceholder token.text) →
        (Phrase.query (parse tokens config).statement.query).Intact)) ∧
    (parseExpression text).result ≠ .error [] ∧
    ∀ e, (parseExpression text).result = .ok e →
      (Phrase.boolean e).WhollyBacked (tokenizeFrom .expression text) := by
  refine ⟨fun s hs => hs.accounted, fun hok => ?_, parseExpression_ne_error_nil text,
    fun e he => whollyBacked_parseExpression he⟩
  have hd := isOk_parse.1 hok
  have hstatement := (IsRule.statement config.maxDepth).formed
  have hmishaps := hstatement.mishaps_eq (State.regular_start config tokens) hd
  have hbacked := whollyBacked_statement config hd
  exact ⟨hmishaps, hbacked, hbacked.intact⟩

/-- The tokens of `FROM t | SORT a NULLS MIDDLE`, blanks left out. -/
def sortMiddle : List Token :=
  [⟨.kwFrom, "FROM", 0, 4, 1, 0⟩, ⟨.sourceIdentifier, "t", 5, 6, 1, 5⟩, ⟨.pipe, "|", 7, 8, 1, 7⟩,
    ⟨.kwSort, "SORT", 9, 13, 1, 9⟩, ⟨.identifier, "a", 14, 15, 1, 14⟩,
    ⟨.kwNulls, "NULLS", 16, 21, 1, 16⟩, ⟨.nullsDirection, "MIDDLE", 22, 28, 1, 22⟩]

/-- Nothing is known of the word behind `NULLS`, and that is no mishap. Behind `FROM` the other tokens
are not passed over without a diagnostic. -/
theorem reported_parse_sortMiddle :
    (parse sortMiddle {}).isOk = true ∧
      (Phrase.query (parse sortMiddle {}).statement.query).Intact ∧
      (State.start {} sortMiddle).bump.skipExtraneous.diagnostics ≠ #[] ∧
      ∃ e, (parseExpression "NOT a").result = .ok e ∧
        (Phrase.boolean e).WhollyBacked (tokenizeFrom .expression "NOT a") := by
  have hok : (parse sortMiddle {}).isOk = true := by decide +kernel
  have hplain : ∀ token ∈ sortMiddle, ¬ IsPlaceholder token.text := by decide +kernel
  obtain ⟨hrun, hend, -, hexpression⟩ := reported_parse sortMiddle {} "NOT a"
  have hread : (parseExpression "NOT a").result.toOption.isSome = true := by decide +kernel
  cases he : (parseExpression "NOT a").result with
  | error => simp [he, Except.toOption] at hread
  | ok e =>
    exact ⟨hok, (hend hok).2.2 hplain, (hrun _ (.step .refl (.bump _))).extraneous, e, rfl,
      hexpression e he⟩

end PipeQuery
