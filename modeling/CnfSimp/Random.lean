import CnfSimp.Dimacs.Reader

/-!
# Random formulas

A permuted congruential generator with 128 bits of state and 64 bits of output, and random clauses of three literals.

* `Generator.ofSeed`: a 64-bit seed is spread over state and increment by a generator with 32 bits of output.
* `Generator.next`: one output.
* `Generator.below`: a number below a 32-bit bound, by the high half of a product; the low half decides whether a second
  output is drawn to correct it.
* `Problem.random`: the formula of a seed.
-/

namespace CnfSimp

/-- Rotates a number of the given width to the right. -/
def rotateRight (bits x count : Nat) : Nat :=
  let k := count % bits
  (x >>> k ||| x <<< (bits - k)) % (1 <<< bits)

/-- The state of a generator and its increment, both below `2 ^ 128`. -/
structure Generator where
  state : Nat
  inc : Nat

namespace Generator

/-- The words that a seed is spread to, `n` of them. -/
def seedWords : Nat → Nat → List Nat
  | 0, _ => []
  | n + 1, seed =>
    let seed := (seed * 6364136223846793005 + 11634580027462260723) % 0x10000000000000000
    let mixed := ((seed >>> 18 ^^^ seed) >>> 27) % 0x100000000
    rotateRight 32 mixed (seed >>> 59) :: seedWords n seed

/-- The number of a list of 32-bit words, the lowest one first. -/
def ofWords : List Nat → Nat
  | [] => 0
  | w :: ws => w + 0x100000000 * ofWords ws

/-- The state that follows. -/
def step (g : Generator) : Generator :=
  { g with state := (g.state * 0x2360ED051FC65DA44385DF649FCCF645 + g.inc) % (1 <<< 128) }

/-- The generator of a seed. -/
def ofSeed (seed : Nat) : Generator :=
  let words := seedWords 8 seed
  let inc := ofWords (words.drop 4) ||| 1
  step ⟨ofWords (words.take 4) + inc, inc⟩

/-- A 64-bit number, and the generator behind it. -/
def next (g : Generator) : Nat × Generator :=
  let g := g.step
  (rotateRight 64 (g.state >>> 64 ^^^ g.state % 0x10000000000000000) (g.state >>> 122), g)

/-- A 32-bit number, and the generator behind it. -/
def next32 (g : Generator) : Nat × Generator :=
  let (x, g) := g.next
  (x % 0x100000000, g)

/-- A number below a positive 32-bit bound, and the generator behind it. -/
def below (bound : Nat) (g : Generator) : Nat × Generator :=
  let (x, g) := g.next32
  let high := x * bound / 0x100000000
  let low := x * bound % 0x100000000
  if 0x100000000 - bound < low then
    let (y, g) := g.next32
    if 0x100000000 ≤ low + y * bound / 0x100000000 then (high + 1, g) else (high, g)
  else
    (high, g)

/-- A fair coin, and the generator behind it. -/
def coin (g : Generator) : Bool × Generator :=
  let (x, g) := g.next
  (x < 0x8000000000000000, g)

/-- A literal of the first `numVars` variables, and the generator behind it. -/
def literal (numVars : Nat) (g : Generator) : Int × Generator :=
  let (v, g) := g.below numVars
  let (negated, g) := g.coin
  (if negated then -(v + 1) else v + 1, g)

/-- A clause of three literals, and the generator behind it. -/
def clause (numVars : Nat) (g : Generator) : List Int × Generator :=
  let (l, g) := g.literal numVars
  let (m, g) := g.literal numVars
  let (n, g) := g.literal numVars
  ([l, m, n], g)

end Generator

/-- A formula of random clauses of three literals, `ratio` times as many as there are variables, with half a clause
rounded up. It takes 24 bytes for each, and the variables must be signed 32-bit integers. -/
def Problem.random (numVars : Nat) (ratio : Float) (seed : Nat) : Except Fault Problem := do
  let count := (Float.ofNat numVars * ratio).round.toUInt64.toNat
  if 0x8000000000000000 ≤ 24 * count then throw .capacityOverflow
  if 0 < count ∧ 0x80000000 ≤ numVars then throw .emptyRange
  let (clauses, _) := (List.range count).foldl (fun (clauses, g) _ =>
    let (clause, g) := Generator.clause numVars g
    (clauses.push clause, g)) (#[], Generator.ofSeed seed)
  return ⟨numVars, clauses.toList⟩

end CnfSimp
