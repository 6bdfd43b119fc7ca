/-!
# Reals in text

A sign, then `inf`, `infinity` or `nan` in any case, or decimal digits with an optional point, at least one digit in
all, and an optional exponent behind `e`. The number is the floating-point number nearest to what is written.
-/

namespace CnfSimp.Text

/-- The number of a list of digits. -/
def digitsValue (digits : List Char) : Nat :=
  digits.foldl (fun n c => 10 * n + (c.toNat - '0'.toNat)) 0

/-- The digits at the start of a text, and the rest. -/
def spanDigits (cs : List Char) : List Char × List Char := cs.span Char.isDigit

/-- The exponent that a text holds, behind its `e`; none if there is anything else. -/
def readExponent : List Char → Option Int
  | [] => some 0
  | e :: cs =>
    if e = 'e' ∨ e = 'E' then
      let (negative, cs) := match cs with
        | '-' :: cs => (true, cs)
        | '+' :: cs => (false, cs)
        | cs => (false, cs)
      let (digits, rest) := spanDigits cs
      if digits.isEmpty || !rest.isEmpty then none
      else some (if negative then -(digitsValue digits : Int) else digitsValue digits)
    else
      none

/-- The number `m * 10 ^ e`; what is far beyond the range of floating-point numbers becomes infinite or zero. -/
def scaled (m : Nat) (e : Int) : Float :=
  let size := (toString m).length + e
  if m = 0 ∨ size < -400 then 0
  else if 400 < size then 1 / 0
  else Float.ofScientific m (e < 0) e.natAbs

/-- Reads a number without a sign. -/
def readMagnitude (cs : List Char) : Option Float :=
  match String.ofList (cs.map Char.toLower) with
  | "inf" | "infinity" => some (1 / 0)
  | "nan" => some (0 / 0)
  | _ =>
    let (whole, rest) := spanDigits cs
    let (places, rest) := match rest with
      | '.' :: rest => spanDigits rest
      | rest => ([], rest)
    if whole.isEmpty && places.isEmpty then none
    else (readExponent rest).map fun e => scaled (digitsValue (whole ++ places)) (e - places.length)

/-- Reads a number. -/
def readReal : List Char → Option Float
  | '-' :: cs => (readMagnitude cs).map fun x => -x
  | '+' :: cs => readMagnitude cs
  | cs => readMagnitude cs

end CnfSimp.Text
