import CnfSimp.Clause.Basic

/-!
# Changing a clause in place

Operations that change the header of a clause or the cells of its block. None moves the block, so a clause can only
grow into cells that its block already owns.

* `Clause.dedup`: drops adjacent repetitions; `Clause.assignDedup` does the same to a literal list on its way in. Both
  keep one literal after another (`Clause.keep`).
* `Clause.erase`: drops the first occurrence of a literal.
* `Clause.copyFrom`: takes over the literals, signature and status of another clause.
* `Clause.setStatus`: a deleted clause faults, but the new status is already stored by then.
-/

namespace CnfSimp.Clause

/-- Runs an operation on the cells alone. -/
def onCells (op : Update (Array Lit) Unit) : Update Clause Unit := fun ⟨header, cells⟩ =>
  let (r, cells) := op.run.run cells
  (r, ⟨header, cells⟩)

/-- Changes the header alone. -/
def onHeader (f : Header → Header) : Update Clause Unit :=
  modify fun c => { c with header := f c.header }

/-- Sets the number of literals; only its low 32 bits are kept. -/
def resize (n : Nat) : Update Clause Unit :=
  onHeader fun h => { h with size := .ofNat n }

/-- Sets the signature. -/
def setSig (sig : UInt32) : Update Clause Unit :=
  onHeader fun h => { h with sig }

/-- Recomputes the signature from the literals and answers it. -/
def refreshSig : Update Clause UInt32 := do
  let lits ← (← get).lits
  setSig (signature lits)
  return signature lits

/-- Changes the status of a clause that has not been deleted. -/
def setStatus (status : Status) : Update Clause Unit := do
  let before := (← get).header
  onHeader fun h => { h with code := status.code }
  let was ← before.status
  Update.require (was ≠ .deleted) .statusOfDeleted

/-- Deletes the clause. -/
def delete : Update Clause Unit :=
  onHeader fun h => { h with code := Status.deleted.code }

/-- Stages the clause for deletion. -/
def melt : Update Clause Unit :=
  onHeader fun h => { h with molten := true }

/-- Takes back `melt`. -/
def freeze : Update Clause Unit :=
  onHeader fun h => { h with molten := false }

/-- Writes the cell that lies `i` places after the start. -/
def setLit (i : Nat) (l : Lit) : Update Clause Unit := do
  let start := (← get).start
  onCells (writeCell start i l)

/-- Writes the cells from `i` places after the start on. -/
def setLits (i : Nat) (lits : List Lit) : Update Clause Unit := do
  let start := (← get).start
  onCells (writeCells start i lits)

/-- How many literals a rewriting has kept so far, and their signature. -/
structure Kept where
  size : Nat
  sig : UInt32

/-- Puts a literal behind those kept so far, unless it is the one before it once more. -/
def keep (k : Kept) (prev next : Lit) : Update Clause Kept :=
  if next = prev then
    return k
  else do
    setLit k.size next
    return ⟨k.size + 1, k.sig ||| next.hashBit⟩

/-- Keeps literals of the clause itself, `count` of them from position `i` on. They are read from the cells that the
kept ones are written to. -/
def keepFrom (i : Nat) (prev : Lit) (k : Kept) : Nat → Update Clause Kept
  | 0 => return k
  | count + 1 => do
    let next ← (← get).lit i
    keepFrom (i + 1) next (← keep k prev next) count

/-- Keeps literals of a list. -/
def keepAll (prev : Lit) (k : Kept) : List Lit → Update Clause Kept
  | [] => return k
  | next :: rest => do keepAll next (← keep k prev next) rest

/-- Ends a rewriting: the clause is what was kept. -/
def keepOnly (k : Kept) : Update Clause Unit := do
  resize k.size
  setSig k.sig

/-- Drops adjacent repetitions and recomputes the signature. -/
def dedup : Update Clause Unit := do
  let c ← get
  if c.size = 0 then
    setSig 0
  else
    let first ← c.lit 0
    keepOnly (← keepFrom 1 first ⟨1, first.hashBit⟩ (c.size - 1))

/-- Takes over the literals, size, signature and status of a clause of the same row of cells, or of `other` cells, and
is not melted afterwards. -/
def copyFrom (src : Header) (other : Option (Array Lit)) : Update Clause Unit := do
  Update.require (!(← src.isDeleted)) .copyOfDeleted
  let c ← get
  let s : Clause := ⟨src, other.getD c.cells⟩
  let lits ← s.lits
  match other with
  | some _ => setLits 0 lits
  | none => onCells (moveCells s.start c.start 0 s.size)
  onHeader fun h => { h with size := src.size, sig := src.sig, code := src.code, molten := false }

/-- Becomes the given literals; the signature stays. -/
def assign (lits : List Lit) : Update Clause Unit := do
  setLits 0 lits
  resize lits.length

/-- Becomes the given literals without adjacent repetitions, with their signature. -/
def assignDedup : List Lit → Update Clause Unit
  | [] => keepOnly ⟨0, 0⟩
  | first :: rest => do
    setLit 0 first
    keepOnly (← keepAll first ⟨1, first.hashBit⟩ rest)

/-- Drops the first occurrence of a literal, if there is one, and answers whether there was. The literals behind it
move one cell down. -/
def erase (l : Lit) : Update Clause Bool := do
  let c ← get
  match (← c.lits).idxOf? l with
  | none => return false
  | some pos =>
    onCells (moveCells (c.start + 1) c.start pos (c.size - 1 - pos))
    resize (c.size - 1)
    let _ ← refreshSig
    return true

/-- Appends the literals of a clause of at least two to a list. -/
def appendTo (c : Clause) (dest : List Lit) : Except Fault (List Lit) := do
  if 1 < c.size then return dest ++ (← c.lits) else throw (.sharedTooShort c.size)

end CnfSimp.Clause
