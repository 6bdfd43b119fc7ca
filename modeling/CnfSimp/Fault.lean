/-!
# Faults

What can go wrong inside an operation, one constructor per cause, and the monad of operations that can.

* `Fault`: the causes; `Fault.message` is the wording of those that have one.
* `Update σ α`: an operation on a state `σ` that answers `α` or faults. The state it leaves behind is part of the
  outcome in both cases, because some operations write before they find the fault.
* `Update.run?` forgets the state of a run that faults.
* `sum64`, `sum32`, `diff64`: arithmetic that faults where the result has no word.
-/

namespace CnfSimp

/-- The cause of a failed operation. -/
inductive Fault where
  /-- Arithmetic left its fixed width. -/
  | overflow
  /-- A cell, list or block outside its region was addressed. -/
  | outOfBounds
  /-- A condition without a wording of its own failed. -/
  | failedCheck
  /-- A storage request above the largest possible size. -/
  | capacityOverflow
  | zeroLiteral
  | bitOutOfRange (bit capacity : Nat)
  | entryOutOfRange (index length : Nat)
  | resizeBeyondCapacity (length capacity : Nat)
  | copyBeyondCapacity (length capacity : Nat)
  | corruptStatus (code : Nat)
  | statusOfDeleted
  | literalOutOfClause (index size : Nat)
  | unsortedClause
  | copyOfDeleted
  | sharedTooShort (size : Nat)
  | noClauseCapacity
  | noLiteralCapacity
  | clauseRegionExhausted (start count capacity : Nat)
  | literalRegionExhausted (start count capacity : Nat)
  | compactedClausesOverflow
  | compactedLiteralsOverflow
  | countMismatch
  | truncatedBlob
  | blobSizeMismatch
  | capacityCountMismatch
  | unitListOverflow
  | witnessNotInClause (witness : Int) (clause : List Int)
  | emptyWindow
  | restartBeforeInit
  | lubyFactor
  | emptyRange
  deriving DecidableEq

namespace Fault

/-- The wording of a fault; the first three causes have none. -/
def message : Fault → Option String
  | overflow | outOfBounds | failedCheck => none
  | capacityOverflow => some "capacity overflow"
  | zeroLiteral => some "zero is not a literal"
  | bitOutOfRange bit capacity => some s!"bit {bit} out of range ({capacity})"
  | entryOutOfRange index length => some s!"index {index} out of bounds ({length})"
  | resizeBeyondCapacity length capacity => some s!"resize to {length} beyond capacity {capacity}"
  | copyBeyondCapacity length capacity => some s!"copy of {length} entries into capacity {capacity}"
  | corruptStatus code => some s!"corrupted clause status byte {code}"
  | statusOfDeleted => some "status change on a deleted clause"
  | literalOutOfClause index size => some s!"literal {index} out of clause of size {size}"
  | unsortedClause => some "has() on unsorted clause"
  | copyOfDeleted => some "copy from a deleted clause"
  | sharedTooShort size => some s!"sharing a clause of size {size}"
  | noClauseCapacity => some "clause capacity must be positive"
  | noLiteralCapacity => some "literal capacity must be positive"
  | clauseRegionExhausted start count capacity =>
    some s!"clause region exhausted: {start} + {count} > {capacity}"
  | literalRegionExhausted start count capacity =>
    some s!"literal region exhausted: {start} + {count} > {capacity}"
  | compactedClausesOverflow => some "compaction overflows clause region"
  | compactedLiteralsOverflow => some "compaction overflows literal region"
  | countMismatch => some "copy_if disagrees with the counting pass"
  | truncatedBlob => some "truncated arena blob"
  | blobSizeMismatch => some "arena blob size mismatch"
  | capacityCountMismatch => some "one capacity per literal expected"
  | unitListOverflow => some "unit list overflow"
  | witnessNotInClause witness clause =>
    let lits := ", ".intercalate (clause.map toString)
    some s!"witness {witness} not in clause [{lits}]"
  | emptyWindow => some "EMA window must be positive"
  | restartBeforeInit => some "LBD restart used before init"
  | lubyFactor => some "Luby factor must be positive"
  | emptyRange => some "cannot sample empty range"

end Fault

instance instDecidableEqExcept {ε α : Type} [DecidableEq ε] [DecidableEq α] : DecidableEq (Except ε α)
  | .ok a, .ok b => decidable_of_iff (a = b) ⟨congrArg _, Except.ok.inj⟩
  | .error e, .error f => decidable_of_iff (e = f) ⟨congrArg _, Except.error.inj⟩
  | .ok _, .error _ => .isFalse nofun
  | .error _, .ok _ => .isFalse nofun

/-- An operation on a state `σ` that answers `α` or faults, and leaves a state in both cases. -/
abbrev Update (σ α : Type) := ExceptT Fault (StateM σ) α

namespace Update

variable {σ α : Type}

/-- The answer and the state of a run, or its fault alone. -/
def run? (m : Update σ α) (s : σ) : Except Fault (α × σ) :=
  match m.run.run s with
  | (.ok a, t) => .ok (a, t)
  | (.error f, _) => .error f

/-- Stops with a fault unless the condition holds. -/
def require (p : Prop) [Decidable p] (f : Fault) : Update σ Unit :=
  if p then pure () else throw f

end Update

/-! ## Answers and faults -/

section Binds

variable {ε α β : Type}

/-- Binds of answers and faults. -/
@[simp]
theorem ok_bind {a : α} {f : α → Except Fault β} : (Except.ok a >>= f) = f a := rfl

@[simp]
theorem error_bind {e : Fault} {f : α → Except Fault β} : (Except.error e >>= f) = .error e := rfl

/-- A sequence answers if both of its parts do. -/
theorem bind_eq_ok_iff {x : Except ε α} {f : α → Except ε β} {b : β} :
    x >>= f = .ok b ↔ ∃ a, x = .ok a ∧ f a = .ok b := by
  cases x with
  | ok a =>
    refine ⟨fun h => ⟨a, rfl, h⟩, ?_⟩
    rintro ⟨_, ⟨⟩, h⟩
    exact h
  | error e =>
    refine ⟨fun h => ?_, ?_⟩
    · cases h
    · rintro ⟨_, ⟨⟩, _⟩

end Binds

/-! ## Fixed widths -/

/-- The sum of two numbers that must fit a 64-bit word. -/
def sum64 (a b : Nat) : Except Fault Nat :=
  if a + b < 0x10000000000000000 then .ok (a + b) else .error .overflow

/-- The difference of two numbers, which must not be negative. -/
def diff64 (a b : Nat) : Except Fault Nat :=
  if b ≤ a then .ok (a - b) else .error .overflow

theorem add_eq_of_sum64 {a b s : Nat} (h : sum64 a b = .ok s) : a + b = s := by
  unfold sum64 at h
  split at h
  · exact Except.ok.inj h
  · cases h

theorem add_eq_of_diff64 {a b d : Nat} (h : diff64 a b = .ok d) : d + b = a := by
  unfold diff64 at h
  split at h
  · next hle => rw [← Except.ok.inj h, Nat.sub_add_cancel hle]
  · cases h

/-- The sum of two numbers that must fit a 32-bit word. -/
def sum32 (a b : Nat) : Except Fault Nat :=
  if a + b < 0x100000000 then .ok (a + b) else .error .overflow

/-- The 64-bit word that an integer is stored as. -/
def toWord (i : Int) : Nat := (i % 0x10000000000000000).toNat

end CnfSimp
