import CnfSimp.Decimal.Shortest
import CnfSimp.Text.Layout

/-!
# Options

What can be tuned, the range of every value, and the error that names a value outside its range.

* `Options.validate`, `RestartOptions.validate`: all values lie in their ranges, or else the first one that does not is
  reported.
* `checkReal`: a real range has open ends. It rejects what lies at or beyond an end, so it lets a NaN pass.
-/

namespace CnfSimp

/-- A value outside its range, with the bound it violates. -/
inductive RangeError where
  | aboveMax (name value bound : String)
  | belowMin (name value bound : String)
  deriving DecidableEq

/-- The wording of a range error. -/
def RangeError.message : RangeError → String
  | aboveMax name value bound => s!"maximum value exceeded for option \"{name}\" ({value} > {bound})"
  | belowMin name value bound => s!"minimum value exceeded for option \"{name}\" ({value} < {bound})"

/-- Checks that an integer lies between two bounds or is one of them. -/
def checkInt (name : String) (value low high : Int) : Except RangeError Unit :=
  if high < value then .error (.aboveMax name (toString value) (toString high))
  else if value < low then .error (.belowMin name (toString value) (toString low))
  else .ok ()

/-- Checks that a real does not lie beyond one of two bounds and is neither of them. -/
def checkReal (name : String) (value low high : Float) : Except RangeError Unit :=
  if high ≤ value then .error (.aboveMax name (Decimal.render value) (Decimal.render high))
  else if value ≤ low then .error (.belowMin name (Decimal.render value) (Decimal.render low))
  else .ok ()

/-- The largest signed 32-bit integer, the upper bound of most options. -/
def maxInt32 : Int := 0x7FFFFFFF

/-! ## The simplifier -/

/-- The options of a simplification. -/
structure Options where
  perfReport : Bool := true
  /-- Eliminate variables. -/
  eliminate : Bool := true
  /-- Remove subsumed clauses and strengthen others. -/
  subsume : Bool := false
  /-- Repeat a phase while it removes enough literals. -/
  repeatPhase : Bool := true
  /-- Remove blocked clauses. -/
  block : Bool := false
  /-- Remove hidden tautologies. -/
  hidden : Bool := false
  /-- Enable every technique. -/
  all : Bool := false
  posTemperature : Int := 32
  negTemperature : Int := 32
  phases : Int := 2
  /-- Every this many compactions move to an arena of exact size; 0 for never. -/
  reallocEvery : Int := 3
  posOccursLimit : Int := 512
  negOccursLimit : Int := 512
  minCandidates : Int := 2
  /-- A phase is repeated if it removed more literals than this. -/
  repeatThreshold : Int := 10
  /-- The longest occurrence list that blocked clauses are looked for in. -/
  fanLimit : Int := 64
  /-- The most literals that the resolvents of a variable may have. -/
  resolventLimit : Int := 125
  /-- The longest clause that may be removed as blocked. -/
  blockedSizeLimit : Int := 95
  /-- The most literals in the clauses of a variable that subsumption looks at. -/
  subsumeLimit : Int := 180
  /-- The longest clause that is extended by hidden literals. -/
  hiddenSizeLimit : Int := 100
  /-- The longest extension by hidden literals. -/
  extensionLimit : Int := 250
  threads : Int := 0
  deriving DecidableEq

namespace Options

variable (o : Options)

/-- Checks every value against its range, in a fixed order. -/
def validate : Except RangeError Unit := do
  checkInt "mu-pos" o.posTemperature 10 maxInt32
  checkInt "mu-neg" o.negTemperature 10 maxInt32
  checkInt "phases" o.phases 0 maxInt32
  checkInt "cnf-free-freq" o.reallocEvery 0 5
  checkInt "ce-pos-limit" o.posOccursLimit 1 maxInt32
  checkInt "ce-neg-limit" o.negOccursLimit 1 maxInt32
  checkInt "min-pvars" o.minCandidates 1 maxInt32
  checkInt "lit-rem-threshold" o.repeatThreshold 0 maxInt32
  checkInt "fan-limit" o.fanLimit 1 maxInt32
  checkInt "bve-out-limit" o.resolventLimit 1 maxInt32
  checkInt "bce-in-limit" o.blockedSizeLimit 1 maxInt32
  checkInt "hse-in-limit" o.subsumeLimit 1 maxInt32
  checkInt "hre-in-limit" o.hiddenSizeLimit 1 maxInt32
  checkInt "hre-out-limit" o.extensionLimit 1 maxInt32
  checkInt "threads" o.threads 0 4096

/-- Whether subsumption runs. -/
def subsumes : Bool := o.subsume || o.all

/-- Whether blocked clauses are removed. -/
def blocks : Bool := o.block || o.all

/-- Whether hidden tautologies are removed. -/
def hides : Bool := o.hidden || o.all

/-- The options as a record. -/
def describe : String :=
  Text.record "SimpOptions" [("perf_report", toString o.perfReport), ("ve", toString o.eliminate),
    ("sub", toString o.subsume), ("ve_plus", toString o.repeatPhase), ("bce", toString o.block),
    ("hre", toString o.hidden), ("all", toString o.all), ("mu_pos", toString o.posTemperature),
    ("mu_neg", toString o.negTemperature), ("phases", toString o.phases),
    ("cnf_free_freq", toString o.reallocEvery), ("ce_pos_limit", toString o.posOccursLimit),
    ("ce_neg_limit", toString o.negOccursLimit), ("min_pvars", toString o.minCandidates),
    ("lit_rem_threshold", toString o.repeatThreshold), ("fan_limit", toString o.fanLimit),
    ("bve_out_limit", toString o.resolventLimit), ("bce_in_limit", toString o.blockedSizeLimit),
    ("hse_in_limit", toString o.subsumeLimit), ("hre_in_limit", toString o.hiddenSizeLimit),
    ("hre_out_limit", toString o.extensionLimit), ("threads", toString o.threads)]

/-- The number of workers on a machine with the given number of cores. -/
def workers (cores : Int) : Int := if o.threads = 0 then cores else o.threads

/-- An engine with the given number of workers that runs with these options, as a record. -/
def describeEngine (workers : Int) : String :=
  Text.record "Engine" [("threads", toString workers), ("opts", o.describe)]

end Options

/-! ## Restarts -/

/-- Which trigger decides on restarts. -/
inductive RestartPolicy where
  | averages
  | luby
  deriving DecidableEq

/-- The options of the restart triggers. -/
structure RestartOptions where
  policy : RestartPolicy := .averages
  fastWindow : Int := 50
  slowWindow : Int := 100000
  rate : Float := 1.1
  lubyFactor : Int := 100
  /-- The Luby sequence starts over before it would reach this value; 0 for never. -/
  lubyLimit : Int := 0

/-- Checks every value against its range, in a fixed order. -/
def RestartOptions.validate (o : RestartOptions) : Except RangeError Unit := do
  checkInt "lbd-fast" o.fastWindow 1 maxInt32
  checkInt "lbd-slow" o.slowWindow 1 maxInt32
  checkReal "lbd-rate" o.rate 0 10
  checkInt "luby-factor" o.lubyFactor 1 maxInt32
  checkInt "luby-limit" o.lubyLimit 0 0x7FFFFFFFFFFFFFFF

end CnfSimp
