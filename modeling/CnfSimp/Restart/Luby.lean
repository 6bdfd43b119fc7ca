import CnfSimp.Fault
import CnfSimp.Text.Layout

/-!
# The Luby sequence and its restarts

The sequence 1, 1, 2, 1, 1, 2, 4, …: term `2 ^ k - 1` is `2 ^ (k - 1)`, and what lies between two such terms repeats the
sequence from its start.

* `lubyTerm`: a term by its position, as this rule gives it.
* `LubyRestart.next`: the terms one after another, from a pair of numbers.
* `LubyRestart.update`: counts down to the next restart, whose distance is the next term times a factor.
-/

namespace CnfSimp

/-- The least exponent from `k` on whose power of two is above `n`. A 64-bit word holds the powers below `2 ^ 64`. -/
def blockExponent (n k : Nat) : Except Fault Nat :=
  if k < 64 then
    if 1 <<< k - 1 < n then blockExponent n (k + 1) else .ok k
  else
    .error .overflow
termination_by 64 - k

/-- The term at a position in 64-bit arithmetic: the last one of its block, or one of the sequence that the block
repeats. Positions are counted from 1; position 0 has no term. -/
def lubyTerm (n : Nat) : Except Fault Nat :=
  match blockExponent n 1 with
  | .error f => .error f
  | .ok k =>
    let before := 1 <<< (k - 1) - 1
    if n = 1 <<< k - 1 then .ok (1 <<< (k - 1))
    else if n - before < n then lubyTerm (n - before)
    else .ok 0
termination_by n

/-- A restart trigger that follows the Luby sequence: `v` is the next term, and `u` the number of runs of terms begun.
A positive `limit` starts the sequence over before it reaches that value. `bound` updates are left until a restart. -/
structure LubyRestart where
  u : Nat
  v : Nat
  limit : Int
  factor : Int
  bound : Int
  pending : Bool
  deriving DecidableEq

namespace LubyRestart

/-- A trigger that never fires. -/
def idle : LubyRestart := ⟨0, 0, 0, 0, 0, false⟩

/-- Starts the sequence over. -/
def reset (r : LubyRestart) : LubyRestart := { r with u := 1, v := 1 }

/-- A trigger at the start of the sequence. -/
def start (factor limit : Int) : LubyRestart := ⟨1, 1, limit, factor, factor, false⟩

/-- Makes the trigger one with the given factor, which must be positive, and limit. -/
def init (factor limit : Int) : Except Fault LubyRestart :=
  if 0 < factor then .ok (start factor limit) else .error .lubyFactor

/-- Keeps the trigger from firing. -/
def disable (r : LubyRestart) : LubyRestart := { r with factor := 0, pending := false }

/-- Whether the next term has reached the limit. -/
def limitReached (r : LubyRestart) : Bool := 0 < r.limit && r.limit ≤ r.v

/-- The largest power of two that divides a number, and 0 for 0. -/
def lowBit (n : Nat) : Nat := n - (n &&& (n - 1))

/-- Moves on to the next term: a run of doublings ends at the lowest one-bit of its number. -/
def advance (r : LubyRestart) : LubyRestart :=
  if lowBit r.u = r.v then { r with u := r.u + 1, v := 1 } else { r with v := 2 * r.v }

/-- The next term, and the trigger behind it. -/
def next (r : LubyRestart) : Nat × LubyRestart :=
  let s := r.advance
  (r.v, if s.limitReached then s.reset else s)

/-- Counts an update, unless the trigger is disabled or a restart is pending already. -/
def update : Update LubyRestart Unit := do
  let r ← get
  if r.factor = 0 || r.pending then
    return
  let r := { r with bound := r.bound - 1 }
  set r
  if r.bound ≠ 0 then
    return
  let (term, r) := r.next
  set r
  let bound := term * r.factor
  Update.require (bound < 0x8000000000000000) .overflow
  set { r with bound, pending := true }

/-- Whether a restart is pending; it no longer is afterwards. -/
def take (r : LubyRestart) : Bool × LubyRestart := (r.pending, { r with pending := false })

/-- The trigger as a record. -/
def describe (r : LubyRestart) : String :=
  Text.record "LubyRestart" [("u", toString r.u), ("v", toString r.v), ("limit", toString r.limit),
    ("factor", toString r.factor), ("bound", toString r.bound), ("pending", toString r.pending)]

end LubyRestart

end CnfSimp
