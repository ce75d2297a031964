import Mathlib
import PipeQuery.Ast.Operator

/-!
# The case of letters

What is known of a text up to the case of its ASCII letters. A class of characters to which all
letters belong, or none, does not see their case; so the words that the language knows are told
apart by their texts in lower case.
-/

namespace PipeQuery

/-! ## Characters -/

namespace Lexer

/-- What is the same of all letters does not see their case. -/
theorem class_toLower {β : Type} {p : Char → β} {b : β}
    (h : ∀ c : Char, c.isAlpha = true → p c = b) (c : Char) : p c.toLower = p c := by
  by_cases hc : c.isAlpha = true
  · rw [h c hc, h _ (by simpa using hc)]
  · have hu : ¬ c.isUpper = true := by
      intro hu
      simp [Char.isAlpha, hu] at hc
    rw [Char.toLower_eq_of_not_isUpper hu]

theorem ne_of_isAlpha {c d : Char} (hc : c.isAlpha = true) (hd : d.isAlpha = false) : c ≠ d := by
  rintro rfl
  simp [hc] at hd

/-- A character that is no letter is known whatever the case of letters. -/
theorem toLower_eq_iff {c d : Char} (hd : d.isAlpha = false) : c.toLower = d ↔ c = d := by
  have h := @class_toLower _ (· == d) false (fun c hc => by simpa using ne_of_isAlpha hc hd) c
  simpa using h

theorem toLower_ne {c d : Char} (h : c ≠ d) (hd : d.isAlpha = false) : c.toLower ≠ d :=
  mt (toLower_eq_iff hd).1 h

/-- Letters take one byte each. -/
theorem utf8Size_toLower (c : Char) : c.toLower.utf8Size = c.utf8Size := by
  refine @class_toLower _ Char.utf8Size 1 (fun c hc => ?_) c
  have hle : c.val ≤ 0x7f := by
    simp only [Char.isAlpha, Char.isUpper, Char.isLower, Bool.or_eq_true, Bool.and_eq_true,
      decide_eq_true_eq, ge_iff_le, UInt32.le_iff_toNat_le] at hc ⊢
    have : 'Z'.val.toNat = 90 := rfl
    have : 'z'.val.toNat = 122 := rfl
    have : (0x7f : UInt32).toNat = 127 := rfl
    omega
  exact if_pos hle

end Lexer

/-! ## Texts -/

namespace String

theorem toLower_toUpper (s : String) : s.toUpper.toLower = s.toLower := by
  apply String.toList_inj.1
  simp [String.toLower, String.toUpper, Function.comp_def]

theorem toUpper_toLower (s : String) : s.toLower.toUpper = s.toUpper := by
  apply String.toList_inj.1
  simp [String.toLower, String.toUpper, Function.comp_def]

theorem toUpper_toUpper (s : String) : s.toUpper.toUpper = s.toUpper := by
  apply String.toList_inj.1
  simp [String.toUpper, Function.comp_def]

theorem toLower_toLower (s : String) : s.toLower.toLower = s.toLower := by
  apply String.toList_inj.1
  simp [String.toLower, Function.comp_def]

theorem toList_toLower (s : String) : s.toLower.toList = s.toList.map Char.toLower := by
  simp [String.toLower]

theorem toLower_append (s t : String) : (s ++ t).toLower = s.toLower ++ t.toLower := by
  apply String.toList_inj.1
  simp [String.toLower]

/-- A text without letters is known whatever the case of letters. -/
theorem toLower_eq_iff {s t : String} (ht : ∀ c ∈ t.toList, c.isAlpha = false) :
    s.toLower = t ↔ s = t := by
  rw [← String.toList_inj, ← String.toList_inj, toList_toLower]
  generalize s.toList = l
  generalize t.toList = m at ht
  induction l generalizing m with
  | nil => simp
  | cons c l ih =>
    cases m with
    | nil => simp
    | cons d m =>
      obtain ⟨hd, hm⟩ := List.forall_mem_cons.1 ht
      simp only [List.map_cons, List.cons.injEq, Lexer.toLower_eq_iff hd, ih m hm]

end String

/-! ## Words -/

section

variable {text text' : String}

/-- The upper case of a word depends on its lower case alone. -/
theorem toUpper_of_sameWord (h : sameWord text text' = true) : text.toUpper = text'.toUpper := by
  have hlower : text.toLower = text'.toLower := by simpa [sameWord] using h
  rw [← String.toUpper_toLower text, hlower, String.toUpper_toLower]

/-- No letter stands in an operator. -/
theorem ComparisonOp.not_isAlpha_symbol (op : ComparisonOp) :
    ∀ c ∈ op.symbol.toList, c.isAlpha = false := by
  cases op <;> simp [symbol]

theorem ComparisonOp.ofText?_congr (h : text.toLower = text'.toLower) :
    ofText? text = ofText? text' := by
  have hsymbol (op : ComparisonOp) : (op.symbol == text) = (op.symbol == text') := by
    have hlower := String.toLower_eq_iff (s := text) op.not_isAlpha_symbol
    have hlower' := String.toLower_eq_iff (s := text') op.not_isAlpha_symbol
    rw [Bool.eq_iff_iff, beq_iff_eq, beq_iff_eq, eq_comm, ← hlower, h, hlower', eq_comm]
  simp only [ofText?, hsymbol]

end

end PipeQuery
