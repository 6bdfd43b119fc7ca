import CnfSimp.Arena.Print
import CnfSimp.CommandLine.Arguments
import CnfSimp.Dimacs.Builtin
import CnfSimp.Random
import CnfSimp.Simplifier

/-!
# Running from the command line

Simplifies the input file, or else the built-in formulas, and then a random formula if one is asked for, and reports on
each. What was printed before an error or a fault stays printed.

* `Outcome`: the exit code, the text printed and the error.
* `Session.run`: the outcome of the arguments; the content of the input file is passed in.
* `Session.respond`: the outcome of a request, which may also be for help or for the version.
-/

namespace CnfSimp

/-- What a session leaves: its exit code, its output, and the error that it reports. -/
structure Outcome where
  exit : Nat
  output : String
  error : Option String

namespace Session

/-- Why a file cannot be read. -/
inductive ReadError where
  | missing
  | notDirectory
  | isDirectory
  | other (message : String)

/-- The wording of a file error: that of the operating system, with its number. -/
def ReadError.message : ReadError → String
  | missing => "No such file or directory (os error 2)"
  | notDirectory => "Not a directory (os error 20)"
  | isDirectory => "Is a directory (os error 21)"
  | other message => message

/-- Why a session ends early. -/
inductive Stop where
  | error (message : String)
  | fault (cause : Fault)

/-- A part of a session, with the output so far as its state. -/
abbrev Run (α : Type) := ExceptT Stop (StateM String) α

/-- Adds to the output. -/
def print (text : String) : Run Unit := modify (· ++ text)

/-- The answer of an operation that may fault. -/
def check {α : Type} : Except Fault α → Run α
  | .ok a => pure a
  | .error cause => throw (.fault cause)

/-- The formula of a text, or a stop with its error. -/
def readProblem : Except Problem.Error Problem → Run Problem
  | .ok p => pure p
  | .error (.fault cause) => throw (.fault cause)
  | .error e => throw (.error e.message)

/-- Simplifies a formula and reports on it. -/
def simplify (options : Options) (name : String) (p : Problem) (printFormula : Bool) : Run Unit := do
  print s!"c | {name}: {p.numVars} variables, {p.clauses.length} clauses\n"
  let arena ← check (Arena.ofDimacs p.clauses)
  let s ← check (Simplifier.ofArena options arena p.numVars)
  let s ← check s.run
  print s.report.render
  let units ← check s.work.unitLits
  if !units.isEmpty then
    let lits ← check (units.mapM Lit.toDimacs)
    print ("c | unit literals: " ++ Text.bracketed (lits.map toString) ++ "\n")
  if printFormula then
    match s.arena.renderRemaining with
    | .ok text => print text
    | .error cause => throw (.fault cause)

/-- Simplifies what the arguments ask for; `content` is the input file, or why it cannot be read. -/
def simplifyAll (a : Arguments) (content : Except ReadError ByteArray) : Run Unit := do
  match a.options.validate with
  | .error e => throw (.error ("configuration error: " ++ e.message))
  | .ok () => pure ()
  match a.input, content with
  | some _, .error e => throw (.error e.message)
  | some path, .ok bytes => simplify a.options path (← readProblem (Problem.ofBytes bytes)) a.print
  | none, _ =>
    for (name, text) in Problem.builtin do
      simplify a.options name (← readProblem (Problem.ofText text)) a.print
  match a.random with
  | none => pure ()
  | some vars =>
    let p ← check (Problem.random (max vars 1) a.ratio a.seed)
    simplify a.options "random" p a.print

/-- The outcome of a session: 1 for a reported error, 101 for a fault. -/
def run (a : Arguments) (content : Except ReadError ByteArray) : Outcome :=
  match (simplifyAll a content).run.run "" with
  | (.ok (), output) => ⟨0, output, none⟩
  | (.error (.error message), output) => ⟨1, output, some ("error: " ++ message)⟩
  | (.error (.fault _), output) => ⟨101, output, none⟩

/-- The outcome of wrong arguments. -/
def badArguments : Outcome := ⟨2, "", none⟩

/-- The text that asking for the version prints. -/
def version : String := "CnfSimp 0.1.0\n"

/-- The outcome of a request, or of wrong arguments; `content` is the input file, or why it cannot be read. -/
def respond (request : Option Request) (content : Except ReadError ByteArray) : Outcome :=
  match request with
  | none => badArguments
  | some .help => ⟨0, Arguments.usage, none⟩
  | some .version => ⟨0, version, none⟩
  | some (.simplify a) => run a content

/-- The outcome of a command line, by a function that reads files. -/
def runArgs (args : List String) (read : String → Except ReadError ByteArray) : Outcome :=
  let request := Arguments.parse args
  respond request (((request.bind Request.input).map read).getD (.error .missing))

end Session

end CnfSimp
