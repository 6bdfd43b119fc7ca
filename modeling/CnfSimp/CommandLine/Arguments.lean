import CnfSimp.Options
import CnfSimp.Text.Numeral
import CnfSimp.Text.Real

/-!
# Command-line arguments

An optional input file and options that start with two dashes. A switch takes no value and may be given once; a setting
takes one, behind an equals sign or as the next argument, which then must not start with a dash. `-v` asks for more
messages and may be repeated. `-h` asks for help and `-V` for the version; what stands behind either is not read. Behind
`--` every argument is a file.

* `Arguments.parse`: what is asked for, or none if the arguments are wrong.
* `Arguments.flags`: the table of the options, which the help lists as well.
-/

namespace CnfSimp

/-- What the command line asks for. -/
structure Arguments where
  input : Option String := none
  print : Bool := false
  random : Option Nat := none
  ratio : Float := 4
  seed : Nat := 0
  options : Options := {}

/-- What the program is to do. -/
inductive Request where
  | help
  | version
  | simplify (arguments : Arguments)

/-- The input file of a request. -/
def Request.input : Request → Option String
  | simplify a => a.input
  | _ => none

namespace Arguments

/-- The effect of an option without a value, and of one with a value, which it may refuse. -/
inductive Action where
  | repeatable
  | reply (request : Request)
  | switch (set : Arguments → Arguments)
  | setting (set : List Char → Arguments → Option Arguments)

/-- An option: its name, what it does and the line on it in the help. -/
structure Flag where
  name : String
  action : Action
  summary : String

/-- A setting that takes a signed integer. -/
def integer (set : Int → Options → Options) : Action :=
  .setting fun cs a => (Text.readSigned 64 cs).toOption.map fun i => { a with options := set i a.options }

/-- A switch of the simplifier. -/
def option (set : Options → Options) : Action :=
  .switch fun a => { a with options := set a.options }

/-- Reads the number of variables of a random formula, which must fit 32 bits. -/
def readVars (cs : List Char) : Option Nat :=
  match Text.readSigned 64 cs with
  | .ok i => if 0 ≤ i ∧ i < 0x100000000 then some i.toNat else none
  | .error _ => none

/-- The options. -/
def flags : List Flag := [
  ⟨"help", .reply .help, "print this help (-h)"⟩,
  ⟨"version", .reply .version, "print the version (-V)"⟩,
  ⟨"verbose", .repeatable, "print more messages (-v)"⟩,
  ⟨"print", .switch fun a => { a with print := true }, "print the simplified formula"⟩,
  ⟨"random", .setting fun cs a => (readVars cs).map fun n => { a with random := some n },
    "also simplify a random formula with this many variables"⟩,
  ⟨"ratio", .setting fun cs a => (Text.readReal cs).map fun ratio => { a with ratio },
    "clauses per variable of the random formula"⟩,
  ⟨"seed", .setting fun cs a => (Text.readUnsigned 64 cs).toOption.map fun seed => { a with seed },
    "seed of the random formula"⟩,
  ⟨"no-perf-simp", option fun o => { o with perfReport := false }, "no report on the passes"⟩,
  ⟨"no-bve", option fun o => { o with eliminate := false }, "do not eliminate variables"⟩,
  ⟨"no-bve-plus", option fun o => { o with repeatPhase := false }, "one round in every phase"⟩,
  ⟨"sub", option fun o => { o with subsume := true }, "subsume and strengthen clauses"⟩,
  ⟨"bce", option fun o => { o with block := true }, "remove blocked clauses"⟩,
  ⟨"hre", option fun o => { o with hidden := true }, "remove hidden tautologies"⟩,
  ⟨"all", option fun o => { o with all := true }, "run every pass"⟩,
  ⟨"mu-pos", integer fun i o => { o with posTemperature := i }, "freezing temperature of positive literals"⟩,
  ⟨"mu-neg", integer fun i o => { o with negTemperature := i }, "freezing temperature of negative literals"⟩,
  ⟨"phases", integer fun i o => { o with phases := i }, "number of phases"⟩,
  ⟨"cnf-free-freq", integer fun i o => { o with reallocEvery := i }, "compactions until the arena is moved"⟩,
  ⟨"ce-pos-limit", integer fun i o => { o with posOccursLimit := i }, "most positive occurrences of a candidate"⟩,
  ⟨"ce-neg-limit", integer fun i o => { o with negOccursLimit := i }, "most negative occurrences of a candidate"⟩,
  ⟨"min-pvars", integer fun i o => { o with minCandidates := i }, "fewest candidates of a round"⟩,
  ⟨"lit-rem-threshold", integer fun i o => { o with repeatThreshold := i },
    "literals that a round must exceed to be repeated"⟩,
  ⟨"bce-limit", integer fun i o => { o with fanLimit := i }, "longest occurrence list searched for blocked clauses"⟩,
  ⟨"sh-bve-out", integer fun i o => { o with resolventLimit := i }, "most literals in the resolvents of a variable"⟩,
  ⟨"sh-bce-in", integer fun i o => { o with blockedSizeLimit := i }, "longest clause removed as blocked"⟩,
  ⟨"sh-hse-in", integer fun i o => { o with subsumeLimit := i },
    "most literals in the clauses of a variable tried for subsumption"⟩,
  ⟨"sh-hre-in", integer fun i o => { o with hiddenSizeLimit := i }, "longest clause extended by hidden literals"⟩,
  ⟨"sh-hre-out", integer fun i o => { o with extensionLimit := i }, "longest extension by hidden literals"⟩,
  ⟨"threads", integer fun i o => { o with threads := i }, "number of workers, or 0 for one per core"⟩]

/-- The effect of the option of a name. -/
def action? (name : String) : Option Action :=
  (flags.find? (·.name == name)).map (·.action)

/-- The help on the options, a line for each. -/
def usage : String :=
  let line (f : Flag) : String :=
    let value := match f.action with
      | .setting _ => "=VALUE"
      | _ => ""
    "  --" ++ f.name ++ value ++ ": " ++ f.summary ++ "\n"
  "Usage: [OPTIONS] [FILE]\n\nOptions:\n" ++ String.join (flags.map line)

/-- Takes an argument as the input file. -/
def setInput (path : String) (a : Arguments) : Option Arguments :=
  if a.input.isSome || path.isEmpty then none else some { a with input := some path }

/-- Takes all arguments as files. -/
def files (a : Arguments) : List String → Option Arguments
  | [] => some a
  | path :: rest => do files (← a.setInput path) rest

/-- Whether an argument that starts with a dash is more than the dash alone. -/
def isDashed (arg : String) : Bool :=
  match arg.toList with
  | '-' :: _ :: _ => true
  | _ => false

/-- Reads the letters behind a single dash, up to one that asks for a reply; none for a letter without a meaning. -/
def letters : List Char → Option (Option Request)
  | [] => some none
  | c :: cs =>
    if c = 'v' then letters cs
    else if c = 'h' then some (some .help)
    else if c = 'V' then some (some .version)
    else none

/-- Reads arguments; `seen` are the names of the options given before that must not be repeated. -/
def parseFrom (seen : List String) (a : Arguments) : List String → Option Request
  | [] => some (.simplify a)
  | arg :: rest =>
    match arg.toList with
    | ['-', '-'] => (a.files rest).map .simplify
    | '-' :: '-' :: long => do
      let name := String.ofList (long.takeWhile (· ≠ '='))
      let value := long.dropWhile (· ≠ '=')
      if seen.contains name then none
      match ← action? name, value, rest with
      | .repeatable, [], rest => parseFrom seen a rest
      | .reply request, [], _ => some request
      | .switch set, [], rest => parseFrom (name :: seen) (set a) rest
      | .setting set, _ :: value, rest => parseFrom (name :: seen) (← set value a) rest
      | .setting set, [], value :: rest =>
        if isDashed value then none else parseFrom (name :: seen) (← set value.toList a) rest
      | _, _, _ => none
    | '-' :: c :: short =>
      match letters (c :: short) with
      | none => none
      | some none => parseFrom seen a rest
      | some (some request) => some request
    | _ => do parseFrom seen (← a.setInput arg) rest

/-- Reads the arguments of a command line. -/
def parse (args : List String) : Option Request := parseFrom [] {} args

end Arguments

end CnfSimp
