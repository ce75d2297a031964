import Mathlib
import PipeQuery.Lexer
import PipeQuery.Proofs.Derivation
import PipeQuery.Proofs.Letters

/-!
# How tokens are spelled

Printing changes the case of some words: keywords and the modifiers of sorts are written in upper
case and truth values in lower case. `Token.written` is the text of a token in print. Every other
token is written as it was read.

Tokens of many kinds have only one text, `Kind.fixedText?`. A token is `Spelled` when its text in
print is that of its kind and when its text fits its kind in the sense of the grammar.
-/

namespace PipeQuery

/-! ## Kinds with one text -/

/-- The text of all tokens of a kind, in print, where there is only one. -/
def Kind.fixedText? : Kind → Option String
  | pipe => some "|"
  | assign => some "="
  | comma => some ","
  | dot => some "."
  | leftParen => some "("
  | rightParen => some ")"
  | leftBracket => some "["
  | rightBracket => some "]"
  | plus => some "+"
  | minus => some "-"
  | asterisk => some "*"
  | slash => some "/"
  | percent => some "%"
  | k => if k.isKeyword then some k.wording else none

/-- Whether printing changes the case of words of a kind. -/
def Kind.isCased (k : Kind) : Bool :=
  k.isKeyword || k = boolean || k = ordering || k = nullsDirection

theorem Kind.isCased_of_isName {k : Kind} (h : k.isName = true) : k.isCased = false := by
  revert h
  cases k <;> decide

/-- The one text of a kind is not empty, and printing does not change it. -/
theorem Kind.toUpper_fixed (k : Kind) : ∀ text ∈ k.fixedText?,
    text ≠ "" ∧ (k.isCased = true → text.toUpper = text) := by
  cases k <;> decide +kernel

namespace Token

/-- The text of a token in print. -/
def written (t : Token) : String :=
  if t.kind = .boolean then t.text.toLower
  else if t.kind.isCased then t.text.toUpper
  else t.text

theorem written_of_not_isCased {t : Token} (h : t.kind.isCased = false) : t.written = t.text := by
  have hb : t.kind ≠ .boolean := by
    intro hk
    rw [hk] at h
    exact absurd h (by decide)
  simp [written, hb, h]

theorem written_of_isCased {t : Token} (h : t.kind.isCased = true) (hb : t.kind ≠ .boolean) :
    t.written = t.text.toUpper := by
  simp [written, hb, h]

/-- Printing changes at most the case of letters. -/
theorem toLower_written (t : Token) : t.written.toLower = t.text.toLower := by
  unfold written
  split_ifs
  · exact String.toLower_toLower t.text
  · exact String.toLower_toUpper t.text
  · rfl

/-- The text of a token is one that its kind allows. -/
structure Spelled (t : Token) : Prop where
  /-- In print it is the one text of the kind, where there is one. -/
  fixed (text : String) (h : t.kind.fixedText? = some text) : t.written = text
  /-- It is as the grammar expects. -/
  fits : t.Fits

/-- A token with the one text of its kind. -/
theorem spelled_of_fixedText? {t : Token} (h : t.kind.fixedText? = some t.text) : t.Spelled where
  fixed text htext := by
    obtain rfl : t.text = text := Option.some.inj (h.symm.trans htext)
    cases hc : t.kind.isCased with
    | false => exact written_of_not_isCased hc
    | true =>
      have hb : t.kind ≠ .boolean := by
        intro hk
        rw [hk] at h
        cases h
      rw [written_of_isCased hc hb]
      exact (t.kind.toUpper_fixed _ h).2 hc
  fits := by
    constructor <;>
      · intro hk
        rw [hk] at h
        cases h

namespace Spelled

variable {t : Token}

/-- Truth values are written in lower case. -/
theorem written_truth (h : t.Spelled) {value : Bool} (hk : t.kind = .boolean)
    (hv : sameWord t.text "true" = value) : t.written = if value then "true" else "false" := by
  have hw : t.written = t.text.toLower := by simp [written, hk]
  rw [hw, ← hv]
  have htrue : "true".toLower = "true" := by decide +kernel
  have hfalse : "false".toLower = "false" := by decide +kernel
  rcases h.fits.boolean hk with h | h
  · rw [if_pos h]
    simpa [sameWord, htrue] using h
  · have hne : t.text.toLower = "false" := by simpa [sameWord, hfalse] using h
    rw [if_neg (by simp [sameWord, hne, htrue]), hne]

/-- Directions are written in upper case. -/
theorem written_order (h : t.Spelled) {order : SortOrder} (hk : t.kind = .ordering)
    (ho : SortOrder.ofText t.text = order) : t.written = order.keyword := by
  rw [written_of_isCased (by rw [hk]; rfl) (by simp [hk])]
  rw [SortOrder.ofText] at ho
  split at ho
  · next hd =>
    rw [← ho, toUpper_of_sameWord hd]
    decide +kernel
  · next hd =>
    rcases h.fits.ordering hk with ha | hd'
    · rw [← ho, toUpper_of_sameWord ha]
      decide +kernel
    · exact absurd hd' hd

end Spelled

/-- The places of missing values are written in upper case. -/
theorem written_nulls {t : Token} {nulls : NullsOrder} (hk : t.kind = .nullsDirection)
    (hn : NullsOrder.ofText? t.text = some nulls) : t.written = nulls.keyword := by
  rw [written_of_isCased (by rw [hk]; rfl) (by simp [hk])]
  rw [NullsOrder.ofText?] at hn
  split at hn
  · next hf =>
    rw [← Option.some.inj hn, toUpper_of_sameWord hf]
    decide +kernel
  · split at hn
    · next hl =>
      rw [← Option.some.inj hn, toUpper_of_sameWord hl]
      decide +kernel
    · exact absurd hn (by simp)

/-- Comparison operators are written as they are. -/
theorem written_comparison {t : Token} {op : ComparisonOp} (hk : t.kind = .comparison)
    (ho : ComparisonOp.ofText? t.text = some op) : t.written = op.symbol := by
  rw [written_of_not_isCased (by rw [hk]; rfl)]
  have hfind := List.find?_some ho
  exact (beq_iff_eq.1 hfind).symm

end Token

end PipeQuery
