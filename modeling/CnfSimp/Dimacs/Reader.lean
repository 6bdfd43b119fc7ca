import CnfSimp.Fault
import CnfSimp.Text.Blank
import CnfSimp.Text.Numeral

/-!
# Reading DIMACS formulas

A formula in clausal form as text. Lines that start with `c` or `%` and blank lines say nothing; a line that starts
with `p` is a header with the number of variables and of clauses; all other lines hold literals, and a zero ends a
clause. Lines mean nothing inside a clause, and the last clause needs no zero.

* `Problem.ofText`, `Problem.ofBytes`: the formula, or the first line that is wrong.
* `Problem.readLine`: what one line does.
-/

namespace CnfSimp

/-- The number of variables and the clauses of a formula. -/
structure Problem where
  numVars : Nat
  clauses : List (List Int)
  deriving DecidableEq

namespace Problem

/-- What is wrong with a line. -/
inductive Flaw where
  | badHeader
  | badVarCount (cause : Text.NumeralError)
  | badClauseCount (cause : Text.NumeralError)
  | clauseBeforeHeader
  | badLiteral (word : String) (cause : Text.NumeralError)
  | literalOutOfRange
  deriving DecidableEq

/-- The wording of a flaw. -/
def Flaw.message : Flaw → String
  | badHeader => "expected `p cnf <vars> <clauses>`"
  | badVarCount cause => "invalid variable count: " ++ cause.message
  | badClauseCount cause => "invalid clause count: " ++ cause.message
  | clauseBeforeHeader => "clause before the `p cnf` header"
  | badLiteral word cause => s!"invalid literal `{word}`: " ++ cause.message
  | literalOutOfRange => "literal out of range"

/-- Why no formula could be read. -/
inductive Error where
  | malformed (line : Nat) (flaw : Flaw)
  /-- A line is not text. -/
  | notText
  | fault (cause : Fault)
  deriving DecidableEq

/-- The wording of an error; a fault has its own. -/
def Error.message : Error → String
  | malformed line flaw => s!"malformed DIMACS input at line {line}: " ++ flaw.message
  | notText => "stream did not contain valid UTF-8"
  | fault cause => cause.message.getD ""

/-- What has been read: the variables, whether there was a header, the clauses, and the literals of the clause that is
still open, the last one first. -/
structure Reading where
  numVars : Nat
  header : Bool
  clauses : Array (List Int)
  pending : List Int

namespace Reading

/-- Nothing read yet. -/
def start : Reading := ⟨0, false, #[], []⟩

/-- Reads a header. Room for the clauses that it announces is asked for at once, 24 bytes for each. -/
def readHeader (r : Reading) (words : List (List Char)) : Except Flaw (Except Fault Reading) :=
  match words with
  | _ :: kind :: vars :: clauses :: _ => do
    if kind ≠ ['c', 'n', 'f'] then throw .badHeader
    let numVars ← (Text.readUnsigned 32 vars).mapError .badVarCount
    let count ← (Text.readUnsigned 64 clauses).mapError .badClauseCount
    if 24 * (r.clauses.size + count) < 0x8000000000000000 then
      return .ok { r with numVars, header := true }
    else
      return .error .capacityOverflow
  | _ => .error .badHeader

/-- Reads a literal, or the zero behind a clause. -/
def readLit (r : Reading) (word : List Char) : Except Flaw Reading := do
  let value ← (Text.readSigned 32 word).mapError (.badLiteral (String.ofList word))
  if value = -0x80000000 then throw .literalOutOfRange
  if value = 0 then
    return { r with clauses := r.clauses.push r.pending.reverse, pending := [] }
  else
    return { r with numVars := max r.numVars value.natAbs, pending := value :: r.pending }

/-- The formula, with the open clause if it has literals. -/
def finish (r : Reading) : Problem :=
  let last := if r.pending.isEmpty then [] else [r.pending.reverse]
  ⟨r.numVars, r.clauses.toList ++ last⟩

end Reading

/-- Reads the words of a line. -/
def readLine (r : Reading) (words : List (List Char)) : Except Flaw (Except Fault Reading) :=
  match words with
  | [] | ('c' :: _) :: _ | ('%' :: _) :: _ => .ok (.ok r)
  | ('p' :: _) :: _ => r.readHeader words
  | _ =>
    if r.header then do return .ok (← words.foldlM Reading.readLit r) else .error .clauseBeforeHeader

/-- Reads lines, of which the first has the given number; a line that is not text is `none`. -/
def readLines (line : Nat) (r : Reading) : List (Option (List Char)) → Except Error Reading
  | [] => .ok r
  | none :: _ => .error .notText
  | some cs :: rest =>
    match readLine r (Text.words cs) with
    | .error flaw => .error (.malformed line flaw)
    | .ok (.error cause) => .error (.fault cause)
    | .ok (.ok r) => readLines (line + 1) r rest

/-- The formula of a list of lines. -/
def ofLines (lines : List (Option (List Char))) : Except Error Problem := do
  return (← readLines 1 .start lines).finish

/-- The formula of a text. -/
def ofText (text : String) : Except Error Problem :=
  ofLines ((splitWhere (· == '\n') text.toList).map some)

/-- The formula of a file, whose lines must each be encoded in UTF-8. -/
def ofBytes (bytes : ByteArray) : Except Error Problem :=
  ofLines ((splitWhere (· == 10) bytes.toList).map fun line =>
    (String.fromUTF8? ⟨line.toArray⟩).map String.toList)

end Problem

end CnfSimp
