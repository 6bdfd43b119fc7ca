/-!
# Shortest decimal text of a floating-point number

The fewest decimal digits that read back as the number, the nearest to it among those, and the larger of two equally
near ones; written out in full, without an exponent.

* `Decimal.decompose`: a finite number as `m * 2 ^ (e - 1074)`, from its encoding.
* `Decimal.grid`: a number on the grid of multiples of a power of ten, if one of its two neighbours there reads back.
* `Decimal.render`: the text.
-/

namespace CnfSimp.Decimal

/-- The magnitude of a finite number: `mantissa * 2 ^ (shift - 1074)`. `narrow` holds if the gap to the next smaller
number is half the gap to the next larger one. -/
structure Magnitude where
  mantissa : Nat
  shift : Nat
  narrow : Bool

/-- The magnitude that the lower 63 bits of an encoding stand for. -/
def decompose (bits : Nat) : Magnitude :=
  let fraction := bits % (1 <<< 52)
  let exponent := (bits >>> 52) % (1 <<< 11)
  if exponent = 0 then ⟨fraction, 0, false⟩
  else ⟨(1 <<< 52) + fraction, exponent - 1, fraction == 0 && 1 < exponent⟩

/-- The digits `d` for which `d * 10 ^ (p - 400)` reads back as the number, taken from its two neighbours on that
grid, if there are any. A number reads back if it lies between the midpoints to the next floating-point numbers, the
midpoints included if the mantissa is even. -/
def grid (x : Magnitude) (p : Nat) : Option Nat :=
  -- in quarters of the gap above the number, and as multiples of the grid
  let up := Nat.pow 10 400 <<< x.shift
  let down := 4 * (Nat.pow 10 p <<< 1074)
  let middle := 4 * x.mantissa * up
  let low := (4 * x.mantissa - if x.narrow then 1 else 2) * up
  let high := (4 * x.mantissa + 2) * up
  let inside (d : Nat) : Bool :=
    if x.mantissa % 2 = 0 then low ≤ d * down && d * down ≤ high else low < d * down && d * down < high
  let below := middle / down
  let above := below + 1
  if inside below && inside above then some (if 2 * (middle % down) < down then below else above)
  else if inside below then some below
  else if inside above then some above
  else none

/-- The first hit on the grids `10 ^ (p - 400)`, from `p` downwards. -/
def search (x : Magnitude) : Nat → Nat × Nat
  | 0 => (0, 0)
  | p + 1 =>
    match grid x (p + 1) with
    | some d => (d, p + 1)
    | none => search x p

/-- Writes `d * 10 ^ (p - 400)` out in full. -/
def positional (d p : Nat) : String :=
  let digits := toString d
  if 400 ≤ p then
    digits ++ String.ofList (List.replicate (p - 400) '0')
  else
    let places := 400 - p
    let padded := String.ofList (List.replicate (places + 1 - digits.length) '0') ++ digits
    let cut := padded.length - places
    String.ofList (padded.toList.take cut) ++ "." ++ String.ofList (padded.toList.drop cut)

/-- The shortest text that reads back as the number. -/
def render (x : Float) : String :=
  let bits := x.toBits.toNat
  let sign := if bits / 0x8000000000000000 = 1 then "-" else ""
  let magnitude := bits % 0x8000000000000000
  if 2047 <<< 52 < magnitude then
    "NaN"
  else if magnitude = 2047 <<< 52 then
    sign ++ "inf"
  else if magnitude = 0 then
    sign ++ "0"
  else
    let (d, p) := search (decompose magnitude) 710
    sign ++ positional d p

end CnfSimp.Decimal
