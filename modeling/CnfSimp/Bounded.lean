import CnfSimp.Sequence
import CnfSimp.Fault

/-!
# Bounded lists

A bounded list lives in a window of a row of cells that other lists may share. It has a fixed capacity; a push beyond
it writes nothing but is still counted, so that the overflow shows later.

* `Window`: where a list lies and how many pushes it has seen. `Window.len` is the number of entries it holds.
* `Bounded`: a window together with its cells; the list operations are defined here. Those that drop entries filter the
  cells in place (`siftCells`).
* `Bounded.entries`: the list that the window holds, the view in which the operations are to be read.
-/

namespace CnfSimp

/-- The place of a bounded list: `cap` cells from `base` on, of which `rawLen` pushes have asked for one each. -/
structure Window where
  base : Nat
  cap : UInt32
  rawLen : UInt32
  deriving DecidableEq

namespace Window

instance : Inhabited Window := ⟨0, 0, 0⟩

/-- The number of entries: a list never holds more than its capacity. -/
def len (w : Window) : Nat := min w.rawLen.toNat w.cap.toNat

/-- Whether more entries were pushed than fit. -/
def overflowed (w : Window) : Bool := w.cap < w.rawLen

/-- An empty list in the given place. -/
def place (base : Nat) (cap : UInt32) : Window := ⟨base, cap, 0⟩

end Window

variable {α : Type}

/-- Writes a list over the cells from position `i` on. -/
def overwrite (cells : Array α) (i : Nat) : List α → Array α
  | [] => cells
  | x :: xs => overwrite (cells.setIfInBounds i x) (i + 1) xs

/-- Writing keeps the number of cells. -/
@[simp]
theorem size_overwrite (cells : Array α) (i : Nat) (xs : List α) : (overwrite cells i xs).size = cells.size := by
  induction xs generalizing cells i with
  | nil => rfl
  | cons x xs ih => rw [overwrite, ih, Array.size_setIfInBounds]

/-- The part of the cells from `start` on that is `len` long; it has to lie inside. -/
def block (cells : Array α) (start len : Nat) : Except Fault (List α) := do
  let stop ← sum64 start len
  if stop ≤ cells.size then return (cells.extract start stop).toList else throw .outOfBounds

/-- Writes cell `base + i`. -/
def writeCell (base i : Nat) (x : α) : Update (Array α) Unit := do
  let pos ← sum64 base i
  Update.require (pos < (← get).size) .outOfBounds
  modify (·.setIfInBounds pos x)

/-- Writes a list to the cells from `base + i` on, up to the first one outside. -/
def writeCells (base i : Nat) : List α → Update (Array α) Unit
  | [] => pure ()
  | x :: xs => do
    writeCell base i x
    writeCells base (i + 1) xs

/-- Copies `count` cells, one by one, from `src + i` on to `base + i` on, inside one row: where the two parts
overlap, later cells may be copied from earlier copies. -/
def moveCells (src base i : Nat) : Nat → Update (Array α) Unit
  | 0 => pure ()
  | count + 1 => do
    match (← get)[src + i]? with
    | none => throw .outOfBounds
    | some x =>
      writeCell base i x
      moveCells src base (i + 1) count

/-- Filters `count` cells in place, one by one, from `base + i` on: the cells that pass a test are written behind the
`kept` ones that passed before. The test carries a state along. -/
def siftCells {σ : Type} (keep : σ → α → Except Fault (Bool × σ)) (base i kept : Nat) (s : σ) :
    Nat → Update (Array α) (Nat × σ)
  | 0 => return (kept, s)
  | count + 1 => do
    match (← get)[base + i]? with
    | none => throw .outOfBounds
    | some x =>
      let (stays, s) ← keep s x
      if stays then
        writeCell base kept x
        siftCells keep base (i + 1) (kept + 1) s count
      else
        siftCells keep base (i + 1) kept s count

/-- A window together with the cells it lies in. -/
structure Bounded (α : Type) where
  window : Window
  cells : Array α
  deriving DecidableEq

namespace Bounded

/-- An empty list with cells of its own; the capacity keeps its low 32 bits. -/
def ofCapacity [Inhabited α] (cap : Nat) : Bounded α :=
  ⟨.place 0 (.ofNat cap), .replicate cap default⟩

/-- The entries in order, if the window lies inside the cells. -/
def entries (b : Bounded α) : Except Fault (List α) :=
  block b.cells b.window.base b.window.len

/-- The entry at a position. -/
protected def get (b : Bounded α) (i : Nat) : Except Fault α := do
  if i < b.window.len then
    let pos ← sum64 b.window.base i
    match b.cells[pos]? with
    | some x => return x
    | none => throw .outOfBounds
  else
    throw (.entryOutOfRange i b.window.len)

/-- Runs an operation on the cells alone. -/
def onCells {β : Type} (op : Update (Array α) β) : Update (Bounded α) β := fun ⟨window, cells⟩ =>
  let (r, cells) := op.run.run cells
  (r, ⟨window, cells⟩)

/-- Sets the number of entries. -/
def setLen (n : Nat) : Update (Bounded α) Unit :=
  modify fun b => { b with window.rawLen := .ofNat n }

/-- Appends an entry and answers whether there was room. -/
def push (x : α) : Update (Bounded α) Bool := do
  let w := (← get).window
  modify fun b => { b with window.rawLen := w.rawLen + 1 }
  if w.rawLen < w.cap then
    onCells (writeCell w.base w.rawLen.toNat x)
    return true
  else
    return false

/-- Sets the number of entries to one that fits the capacity. -/
def resize (n : Nat) : Update (Bounded α) Unit := do
  let cap := (← get).window.cap.toNat
  Update.require (n ≤ cap) (.resizeBeyondCapacity n cap)
  setLen n

/-- Drops every entry. -/
def clear : Update (Bounded α) Unit := setLen 0

/-- Makes a list the only entries; it must be no longer than what the window holds. -/
def refill (xs : List α) : Update (Bounded α) Unit :=
  modify fun b =>
    { b with cells := overwrite b.cells b.window.base xs, window.rawLen := .ofNat xs.length }

/-- Keeps the entries that pass a test, in order, and answers how many were dropped and what the test ends with. -/
def sift {σ : Type} (keep : σ → α → Except Fault (Bool × σ)) (s : σ) : Update (Bounded α) (Nat × σ) := do
  let ⟨w, cells⟩ ← get
  let stop ← sum64 w.base w.len
  Update.require (stop ≤ cells.size) .outOfBounds
  let (kept, s) ← onCells (siftCells keep w.base 0 0 s w.len)
  resize kept
  return (w.len - kept, s)

/-- Keeps the entries that pass a test, in order, and answers how many were dropped. -/
def retain (keep : α → Except Fault Bool) : Update (Bounded α) Nat := do
  let (dropped, _) ← sift (fun _ x => do return (← keep x, ())) ()
  return dropped

/-- The test that only the first entry equal to `x` fails. It carries along whether that entry was found. -/
def notFirst [BEq α] (x : α) (found : Bool) (y : α) : Except Fault (Bool × Bool) :=
  if !found && y == x then .ok (false, true) else .ok (true, found)

/-- Removes the first entry equal to `x` and answers whether there was one. -/
def remove [BEq α] (x : α) : Update (Bounded α) Bool := do
  let (_, found) ← sift (notFirst x) false
  return found

/-- Sorts the entries; the number of pushes stays. -/
def sort (le : α → α → Bool) : Update (Bounded α) Unit := do
  let xs ← (← get).entries
  modify fun b => { b with cells := overwrite b.cells b.window.base (sortBy le xs) }

/-- Becomes a copy of the list at window `src` of the same cells, or of `other` cells. -/
def copyFrom (src : Window) (other : Option (Array α)) : Update (Bounded α) Unit := do
  let b ← get
  let cap := b.window.cap.toNat
  Update.require (src.len ≤ cap) (.copyBeyondCapacity src.len cap)
  let xs ← block (other.getD b.cells) src.base src.len
  match other with
  | some _ => onCells (writeCells b.window.base 0 xs)
  | none => onCells (moveCells src.base b.window.base 0 src.len)
  resize src.len

/-- Makes a list the only entries, if it fits the capacity. -/
def assign (xs : List α) : Update (Bounded α) Unit := do
  Update.require (xs.length ≤ (← get).window.cap.toNat) .failedCheck
  refill xs

/-- The size, then the entries in brackets; after every tenth entry but the first and last the line breaks. -/
def render (entry : α → Except Fault String) (b : Bounded α) : Except Fault String := do
  let xs ← b.entries
  let items ← xs.zipIdx.mapM fun (x, i) => do
    let text ← entry x
    let wrap := if 0 < i && i + 1 < xs.length && i % 10 == 0 then "\nc |\t\t" else ""
    return text ++ "  " ++ wrap
  return s!"->(size = {xs.length})[" ++ String.join items ++ "]\n"

end Bounded

end CnfSimp
