import PipeQuery.Number.Binary64

/-!
# Reading numerals

Two readings of a text as a number, both of the whole text.

* `readWord?` reads a 64-bit unsigned integer: an optional plus sign and decimal digits.
* `Numeral.ofString?` reads a signed decimal with an optional fraction and exponent, or one of the
  words for infinity and for "not a number". `Numeral.bits` is the floating-point number nearest to
  what was read.
-/

namespace PipeQuery.Number

/-- The number that a list of decimal digits stands for. -/
def digitsValue (digits : List Char) : Nat :=
  digits.foldl (fun value digit => 10 * value + (digit.toNat - '0'.toNat)) 0

/-- Reads decimal digits, at least one. -/
def readDigits? (text : List Char) : Option Nat :=
  if text ≠ [] ∧ text.all Char.isDigit then some (digitsValue text) else none

/-- Reads an unsigned integer below `2 ^ 64`. -/
def readWord? (text : String) : Option UInt64 := do
  let digits := match text.toList with
    | '+' :: digits => digits
    | digits => digits
  let value ← readDigits? digits
  if value < UInt64.size then some (UInt64.ofNat value) else none

/-- The absolute value that a numeral denotes. -/
inductive Magnitude where
  /-- The number `digits * 10 ^ exponent`. -/
  | decimal (digits : List Char) (exponent : Int)
  /-- Infinity. -/
  | infinite
  /-- No number at all. -/
  | notANumber
deriving DecidableEq, Repr

/-- What a numeral says: a sign and an absolute value. -/
structure Numeral where
  /-- Whether a minus sign stands in front. -/
  negative : Bool
  /-- The absolute value. -/
  magnitude : Magnitude
deriving DecidableEq, Repr

/-- Splits off a sign, if there is one; the first part says whether it is a minus. -/
def splitSign : List Char → Bool × List Char
  | '-' :: rest => (true, rest)
  | '+' :: rest => (false, rest)
  | rest => (false, rest)

/-- Reads the exponent at the end of a numeral; no text at all is the exponent zero. -/
def readExponent? : List Char → Option Int
  | [] => some 0
  | mark :: rest =>
    if mark.toLower = 'e' then
      let (negative, digits) := splitSign rest
      (readDigits? digits).map fun value => if negative then -(value : Int) else value
    else none

/-- Splits off a decimal point and the digits that follow it, if there is a point. -/
def splitFraction : List Char → List Char × List Char
  | '.' :: rest => rest.span Char.isDigit
  | rest => ([], rest)

/-- Reads an unsigned decimal with a digit on at least one side of its point. -/
def readDecimal? (text : List Char) : Option Magnitude := do
  let (whole, rest) := text.span Char.isDigit
  let (fraction, rest) := splitFraction rest
  if whole = [] ∧ fraction = [] then none
  let exponent ← readExponent? rest
  some (.decimal (whole ++ fraction) (exponent - fraction.length))

/-- Reads an absolute value: a word, in any letter case, or a decimal. -/
def readMagnitude? (text : List Char) : Option Magnitude :=
  match String.ofList (text.map Char.toLower) with
  | "inf" | "infinity" => some .infinite
  | "nan" => some .notANumber
  | _ => readDecimal? text

namespace Numeral

/-- Reads a whole text as a numeral. -/
def ofString? (text : String) : Option Numeral :=
  let (negative, rest) := splitSign text.toList
  (readMagnitude? rest).map fun magnitude => ⟨negative, magnitude⟩

/-- The bits of the floating-point number nearest to `digits * 10 ^ exponent`. -/
def decimalBits (digits : List Char) (exponent : Int) : Nat :=
  let digits := digits.dropWhile (· = '0')
  -- the number lies between `10 ^ (magnitude - 1)` and `10 ^ magnitude`
  let magnitude := digits.length + exponent
  if digits = [] ∨ magnitude < -325 then 0
  else if 309 < magnitude then Binary64.infinity
  else if 0 ≤ exponent then Binary64.nearestBits (digitsValue digits * Nat.pow 10 exponent.toNat) 1
  else Binary64.nearestBits (digitsValue digits) (Nat.pow 10 (-exponent).toNat)

/-- The bits of the floating-point number nearest to what a numeral denotes. -/
def bits (n : Numeral) : Nat :=
  let magnitude := match n.magnitude with
    | .decimal digits exponent => decimalBits digits exponent
    | .infinite => Binary64.infinity
    | .notANumber => Binary64.notANumber
  if n.negative then Binary64.signBit + magnitude else magnitude

/-- The floating-point number nearest to what a numeral denotes. -/
def toFloat (n : Numeral) : Float := Float.ofBits (UInt64.ofNat n.bits)

end Numeral

end PipeQuery.Number
