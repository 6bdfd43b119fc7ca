import CnfSimp.Restart.Average

/-!
# Restarts by averages

Two averages of the quality of learnt clauses, one over a short and one over a long window. A restart is due when the
short one has caught up with the long one, scaled by a rate. There are two such pairs, of which one is in use.
-/

namespace CnfSimp

/-- The averages over a short and over a long window. -/
structure AveragePair where
  fast : Average Float
  slow : Average Float

/-- The pair in use, the one put aside, the rate and the two windows. -/
structure LbdRestart where
  current : AveragePair
  saved : AveragePair
  rate : Float
  fastWindow : Nat
  slowWindow : Nat

namespace LbdRestart

/-- Neither rate nor windows yet. -/
def idle : LbdRestart := ⟨⟨.idle, .idle⟩, ⟨.idle, .idle⟩, 0, 0, 0⟩

/-- Sets the rate and the windows. -/
def init (rate : Float) (fast slow : Nat) (r : LbdRestart) : LbdRestart :=
  { r with rate, fastWindow := fast, slowWindow := slow }

/-- Starts all averages anew. -/
def restarted (r : LbdRestart) : LbdRestart :=
  let pair : AveragePair := ⟨.start r.fastWindow, .start r.slowWindow⟩
  { r with current := pair, saved := pair }

/-- Starts all averages anew; rate and windows must have been set. -/
def reset (r : LbdRestart) : Except Fault LbdRestart :=
  if r.rate != 0 && 0 < r.fastWindow && 0 < r.slowWindow then .ok r.restarted else .error .restartBeforeInit

/-- Takes in a sample. -/
def update (r : LbdRestart) (x : Float) : LbdRestart :=
  { r with current := ⟨r.current.fast.update x, r.current.slow.update x⟩ }

/-- Exchanges the two pairs. -/
def swap (r : LbdRestart) : LbdRestart :=
  { r with current := r.saved, saved := r.current }

/-- The average over the short window. -/
def fast (r : LbdRestart) : Float := r.current.fast.value

/-- The average over the long window. -/
def slow (r : LbdRestart) : Float := r.current.slow.value

/-- Whether a restart is due. -/
def due (r : LbdRestart) : Bool := r.rate * r.slow ≤ r.fast

end LbdRestart

end CnfSimp
