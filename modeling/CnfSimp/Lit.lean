import CnfSimp.Fault
import CnfSimp.Sequence

/-!
# Literals

A literal is a variable, counted from 0, with a sign. Its code is twice the variable, plus one if it is negative, so
the two literals of a variable are neighbours in every order and table that goes by codes.

* `Lit.ofDimacs`, `Lit.toDimacs`: signed integers, variables counted from 1. The largest code has no such integer.
* `Lit.not`: the other literal of the variable (`Lit.var_not`, `Lit.isNeg_not`, `Lit.not_not`).
* `Lit.hashBit` and `signature`: one of 32 bits per literal, and their union over a clause. A clause whose signature
  has a bit that another's lacks is no subset of the other.
* `litSlots`: the number of codes that tables over `n` variables are laid out for.
-/

namespace CnfSimp

/-- A literal, as its 32-bit code. -/
structure Lit where
  code : UInt32
  deriving DecidableEq, Inhabited

namespace Lit

instance : LE Lit := ⟨fun l k => l.code ≤ k.code⟩

instance : LT Lit := ⟨fun l k => l.code < k.code⟩

instance : DecidableLE Lit := fun l k => inferInstanceAs (Decidable (l.code ≤ k.code))

instance : DecidableLT Lit := fun l k => inferInstanceAs (Decidable (l.code < k.code))

/-- The 0-based variable. -/
def var (l : Lit) : Nat := l.code.toNat / 2

/-- Whether the literal is negative. -/
def isNeg (l : Lit) : Bool := l.code.toNat % 2 == 1

/-- The position of the literal in tables that go by codes. -/
def index (l : Lit) : Nat := l.code.toNat

/-- The literal of a variable; a code above 32 bits loses its upper ones. -/
def ofVar (v : Nat) (negated : Bool) : Lit := ⟨.ofNat (2 * v + negated.toNat)⟩

/-- The positive literal of a variable. -/
def positive (v : Nat) : Lit := ofVar v false

/-- The negative literal of a variable. -/
def negative (v : Nat) : Lit := ofVar v true

/-- The literal of the same variable with the other sign. -/
def not (l : Lit) : Lit := ofVar l.var (!l.isNeg)

/-- Variables are below half the number of codes. -/
theorem var_lt (l : Lit) : l.var < 0x80000000 := by
  have := l.code.toNat_lt
  unfold var
  omega

/-- A code is twice the variable plus the sign. -/
theorem index_eq (l : Lit) : l.index = 2 * l.var + l.isNeg.toNat := by
  unfold index var isNeg
  rcases Nat.mod_two_eq_zero_or_one l.code.toNat with h | h <;> simp [h] <;> omega

/-- The code of the literal of a variable that has one. -/
theorem index_ofVar {v : Nat} (h : v < 0x80000000) (b : Bool) : (ofVar v b).index = 2 * v + b.toNat := by
  have := Bool.toNat_lt b
  exact Nat.mod_eq_of_lt (by omega)

/-- The variable of the literal of a variable. -/
theorem var_ofVar {v : Nat} (h : v < 0x80000000) (b : Bool) : (ofVar v b).var = v := by
  have := Bool.toNat_lt b
  have := (ofVar v b).index_eq
  have := Bool.toNat_lt (ofVar v b).isNeg
  rw [index_ofVar h] at *
  omega

/-- The sign of the literal of a variable. -/
theorem isNeg_ofVar {v : Nat} (h : v < 0x80000000) (b : Bool) : (ofVar v b).isNeg = b := by
  have := (ofVar v b).index_eq
  rw [index_ofVar h, var_ofVar h] at this
  cases b <;> cases hb : (ofVar v _).isNeg <;> simp_all

/-- A literal is that of its variable and its sign. -/
theorem ofVar_var_isNeg (l : Lit) : ofVar l.var l.isNeg = l := by
  unfold ofVar
  rw [← l.index_eq]
  simp [index]

/-- Negation keeps the variable. -/
@[simp]
theorem var_not (l : Lit) : l.not.var = l.var := var_ofVar l.var_lt _

/-- Negation changes the sign. -/
@[simp]
theorem isNeg_not (l : Lit) : l.not.isNeg = !l.isNeg := isNeg_ofVar l.var_lt _

/-- Two negations cancel. -/
@[simp]
protected theorem not_not (l : Lit) : l.not.not = l := by
  rw [not, var_not, isNeg_not, Bool.not_not, ofVar_var_isNeg]

/-- The literal of a nonzero signed integer: variable `n + 1` for `n`, the sign of the integer for the polarity. -/
def ofDimacs (i : Int) : Except Fault Lit :=
  if i = 0 then .error .zeroLiteral else .ok (ofVar (i.natAbs - 1) (i < 0))

/-- The signed integer of a literal; the last variable's would be `2 ^ 31`, which is out of range. -/
def toDimacs (l : Lit) : Except Fault Int :=
  if l.var + 1 < 0x80000000 then .ok (if l.isNeg then -(l.var + 1) else l.var + 1) else .error .overflow

/-- The bit of a literal in a signature, by its code modulo 32. -/
def hashBit (l : Lit) : UInt32 := 1 <<< (l.code &&& 31)

end Lit

/-- The union of the hash bits of a sequence of literals. -/
def signature (lits : List Lit) : UInt32 :=
  lits.foldl (fun sig l => sig ||| l.hashBit) 0

/-- Sorts literals by their codes. -/
def sortLits (lits : List Lit) : List Lit :=
  sortBy (fun l k => l ≤ k) lits

/-- Every literal is strictly below its successor. -/
def ascending (lits : List Lit) : Bool :=
  allAdjacent (fun l k => l < k) lits

/-- The number of literal codes for `numVars` variables, with room for one more variable. -/
def litSlots (numVars : Nat) : Nat := 2 * (numVars + 1)

end CnfSimp
