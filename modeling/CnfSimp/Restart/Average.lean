import CnfSimp.Fault

/-!
# Moving averages

An exponential moving average whose step starts at one and is halved at updates 1, 3, 7, 15, … until it reaches the
inverse of the window. The type of the numbers is open: floating point to run, exact numbers to reason about.

* `Average.start`: the average for a window.
* `Average.update`: moves the value towards a sample, by the current step.
-/

namespace CnfSimp

/-- A moving average: its value, the share of the next sample, the least share, and the updates left before the one that
halves the share, which are `period` many when it has just been halved. Once the share is the least, neither counts. -/
structure Average (K : Type) where
  value : K
  step : K
  least : K
  countdown : Int
  period : Int

namespace Average

variable {K : Type} [OfScientific K]

/-- A natural number as a number. -/
def ofNat (n : Nat) : K := OfScientific.ofScientific n false 0

/-- An average that ignores every finite sample. -/
def idle : Average K := ⟨ofNat 0, ofNat 0, ofNat 0, 0, 0⟩

/-- The average for a window, before the first sample. -/
def start [Div K] (window : Nat) : Average K := ⟨ofNat 0, ofNat 1, ofNat 1 / ofNat window, 0, 0⟩

/-- The average for a window, which must not be empty. -/
def ofWindow [Div K] (window : Nat) : Except Fault (Average K) :=
  if window = 0 then .error .emptyWindow else .ok (start window)

variable [Add K] [Sub K] [Mul K] [LE K] [DecidableLE K]

/-- Halves the step, but not below the least one, and doubles the time to the next halving. -/
def halve (a : Average K) : Average K :=
  let half := a.step * 0.5
  let period := 2 * a.period + 1
  { a with period, countdown := period, step := if half ≤ a.least then a.least else half }

/-- Takes in a sample. -/
def update (a : Average K) (x : K) : Average K :=
  let a := { a with value := a.value + a.step * (x - a.value) }
  if a.step ≤ a.least then a
  else
    let left := a.countdown
    let a := { a with countdown := left - 1 }
    if left = 0 then a.halve else a

end Average

end CnfSimp
