import CnfSimp.Options
import CnfSimp.Restart.Lbd
import CnfSimp.Restart.Luby

/-!
# Restart triggers

The trigger that the options select, fed once per conflict.
-/

namespace CnfSimp

/-- One of the two kinds of triggers. -/
inductive Restarts where
  | averages (r : LbdRestart)
  | luby (r : LubyRestart)

/-- Why there is no trigger: an option outside its range, or a check of the trigger itself. -/
inductive RestartError where
  | range (error : RangeError)
  | fault (cause : Fault)

namespace Restarts

/-- The trigger for options within their ranges, which has to pass its own checks. -/
def ofOptions (o : RestartOptions) : Except RestartError Restarts := do
  o.validate.mapError .range
  match o.policy with
  | .averages =>
    let r := LbdRestart.idle.init o.rate o.fastWindow.toNat o.slowWindow.toNat
    return .averages (← r.reset.mapError .fault)
  | .luby => return .luby (← (LubyRestart.init o.lubyFactor o.lubyLimit).mapError .fault)

/-- Takes in a conflict with the quality of its learnt clause. -/
def update (r : Restarts) (lbd : Nat) : Except Fault Restarts :=
  match r with
  | .averages r => .ok (.averages (r.update (Float.ofNat lbd)))
  | .luby r => do
    let ((), r) ← LubyRestart.update.run? r
    return .luby r

/-- Whether a restart is due, and the trigger after the answer. -/
def restart : Restarts → Bool × Restarts
  | .averages r => (r.due, .averages r)
  | .luby r => let (due, r) := r.take; (due, .luby r)

end Restarts

end CnfSimp
