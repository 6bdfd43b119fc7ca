/-!
# Integers in text

ASCII digits, with an optional plus sign, or a minus sign where negative numbers are allowed. Digits are taken from the
left, so of a number that is too large and a wrong character behind it, the one found first is reported.
-/

namespace CnfSimp.Text

/-- Why a text is no integer of the type that is asked for. -/
inductive NumeralError where
  | empty
  | invalidDigit
  | tooLarge
  | tooSmall
  deriving DecidableEq

/-- The wording of a numeral error. -/
def NumeralError.message : NumeralError → String
  | empty => "cannot parse integer from empty string"
  | invalidDigit => "invalid digit found in string"
  | tooLarge => "number too large to fit in target type"
  | tooSmall => "number too small to fit in target type"

/-- Reads digits behind those that make up `value`, which may grow to `max`. -/
def readDigits (max : Nat) (beyond : NumeralError) (value : Nat) : List Char → Except NumeralError Nat
  | [] => .ok value
  | c :: cs =>
    if '0' ≤ c ∧ c ≤ '9' then
      let next := 10 * value + (c.toNat - '0'.toNat)
      if next ≤ max then readDigits max beyond next cs else .error beyond
    else
      .error .invalidDigit

/-- Reads an integer that is at most `max` and at least `-low`; a minus sign is wrong if `low` is `none`. -/
def readInt (low : Option Nat) (max : Nat) (cs : List Char) : Except NumeralError Int :=
  match cs, low with
  | [], _ => .error .empty
  | ['+'], _ | ['-'], _ => .error .invalidDigit
  | '+' :: digits, _ => (readDigits max .tooLarge 0 digits).map Int.ofNat
  | '-' :: digits, some low => (readDigits low .tooSmall 0 digits).map fun n => -(n : Int)
  | digits, _ => (readDigits max .tooLarge 0 digits).map Int.ofNat

/-- Reads a signed integer of the given width. -/
def readSigned (bits : Nat) (cs : List Char) : Except NumeralError Int :=
  readInt (some (1 <<< (bits - 1))) ((1 <<< (bits - 1)) - 1) cs

/-- Reads an unsigned integer of the given width. -/
def readUnsigned (bits : Nat) (cs : List Char) : Except NumeralError Nat := do
  return (← readInt none ((1 <<< bits) - 1) cs).toNat

end CnfSimp.Text
