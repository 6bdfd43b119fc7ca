import CnfSimp.Lit

/-!
# Clause headers

The record that an arena keeps for every clause slot: where the literals of the clause lie, how many there are, their
signature, the status of the clause and whether it is melted, that is, staged for deletion. The status and the melted
flag are apart, so that melting and freezing never touch the status.

* `Status.ofCode?` reads a status code, which has seven bits; three of the codes stand for a status.
* `Header.encode`, `Header.decode`: the five 32-bit words of a header, and back (`Header.decode_encode`).
-/

namespace CnfSimp

/-- Whether a clause is part of the formula, follows from it, or is gone. -/
inductive Status where
  | irredundant
  | learnt
  | deleted
  deriving DecidableEq

namespace Status

/-- The code that a header stores. -/
def code : Status → Fin 128
  | irredundant => 0
  | learnt => 1
  | deleted => 2

/-- The status of a code. -/
def ofCode? (c : Fin 128) : Option Status :=
  if c = 0 then some irredundant else if c = 1 then some learnt else if c = 2 then some deleted else none

/-- Every status has a code of its own. -/
@[simp]
theorem ofCode?_code (s : Status) : ofCode? s.code = some s := by
  cases s <;> rfl

/-- The letter that printed clauses carry. -/
def tag : Status → String
  | irredundant => "O"
  | learnt => "A"
  | deleted => "X"

/-- The word of the status. -/
def name : Status → String
  | irredundant => "Original"
  | learnt => "Learnt"
  | deleted => "Deleted"

end Status

/-- The record of one clause slot. -/
structure Header where
  start : UInt64
  size : UInt32
  sig : UInt32
  code : Fin 128
  molten : Bool
  deriving DecidableEq

namespace Header

/-- The header of a clause that is not melted. -/
def install (start : UInt64) (size sig : UInt32) (status : Status) : Header :=
  ⟨start, size, sig, status.code, false⟩

/-- The header of a slot that holds no clause. -/
def vacant : Header := install 0 0 0 .deleted

instance : Inhabited Header := ⟨vacant⟩

/-- The status; other programs may have written a code that stands for none. -/
def status (h : Header) : Except Fault Status :=
  match Status.ofCode? h.code with
  | some s => .ok s
  | none => .error (.corruptStatus h.code)

/-- Whether the clause is deleted. -/
def isDeleted (h : Header) : Except Fault Bool := do
  return (← h.status) == .deleted

/-- Whether the clause is neither deleted nor melted. -/
def isLive (h : Header) : Except Fault Bool := do
  return !(← h.isDeleted) && !h.molten

/-- The five words of a header: the lower and the upper half of the start, the size, the signature, and the status code
with the melted flag above its seven bits. -/
def encode (h : Header) : List UInt32 :=
  [.ofNat h.start.toNat, .ofNat (h.start.toNat / 0x100000000), h.size, h.sig, .ofNat (h.code + 128 * h.molten.toNat)]

/-- The header of five words; a last word with any bit above the seventh melts the clause. -/
def decode (low high size sig state : UInt32) : Header :=
  ⟨.ofNat (low.toNat + 0x100000000 * high.toNat), size, sig, .ofNat 128 state.toNat, 128 ≤ state.toNat⟩

/-- The words of a header give it back. -/
theorem decode_encode (h : Header) :
    ∃ low high size sig state, h.encode = [low, high, size, sig, state] ∧ decode low high size sig state = h := by
  refine ⟨_, _, _, _, _, rfl, ?_⟩
  obtain ⟨start, size, sig, code, molten⟩ := h
  have hs := start.toNat_lt
  have hc := code.isLt
  have hm := Bool.toNat_lt molten
  have hw : (UInt32.ofNat (code + 128 * molten.toNat)).toNat = code + 128 * molten.toNat :=
    Nat.mod_eq_of_lt (by omega)
  have hl : (UInt32.ofNat start.toNat).toNat +
      0x100000000 * (UInt32.ofNat (start.toNat / 0x100000000)).toNat = start.toNat := by
    simp only [UInt32.toNat_ofNat']
    omega
  unfold decode
  rw [hl, hw]
  congr 1
  · exact UInt64.ofNat_toNat
  · apply Fin.ext
    show (code + 128 * molten.toNat) % 128 = code
    omega
  · cases molten with
    | false => exact decide_eq_false (by simp only [Bool.toNat_false]; omega)
    | true => exact decide_eq_true (by simp only [Bool.toNat_true]; omega)

end Header

end CnfSimp
