import CnfSimp.BitSet.Words
import CnfSimp.Fault
import CnfSimp.Sequence
import CnfSimp.Text.Layout

/-!
# Sets of bits

A finite set of numbers below a fixed capacity, kept in a row of 64-bit words. There are just as many words as the
capacity needs, and the bits that the last one has beyond it stay zero. Asking for or changing a bit at or above the
capacity is a fault and leaves the set as it was.

* `BitSet.mem`: the view in which the operations are to be read.
* `BitSet.contains`, `BitSet.testAndSet`, `BitSet.insert`, `BitSet.erase`: the operations on single bits.
* `BitSet.firstFrom`: the least member not below a bound, by the trailing zeros of a word (`BitSet.firstFrom_isFirst`).
* `BitSet.toList`: the members, each searched for behind the one before.
* `BitSet.count`: the number of members, by the ones of all words.
-/

namespace CnfSimp

/-- A set of numbers below `capacity`. -/
structure BitSet where
  capacity : Nat
  words : Array UInt64
  size_words : words.size = (capacity + 63) / 64
  bitAt_of_le : ∀ i, capacity ≤ i → bitAt words i = false
  deriving DecidableEq

namespace BitSet

/-- The empty set. -/
def empty (capacity : Nat) : BitSet where
  capacity
  words := .replicate ((capacity + 63) / 64) 0
  size_words := Array.size_replicate
  bitAt_of_le i _ := bitAt_of_zero (by simp) i

/-- The empty set, if its capacity and the size of one more word add up to a 64-bit number. -/
def allocate (capacity : Nat) : Except Fault BitSet := do
  let _ ← sum64 capacity 64
  return empty capacity

variable (s : BitSet)

/-- Whether a number is a member. -/
def mem (i : Nat) : Bool := bitAt s.words i

/-- The bit as a place of the set, which has none at or above its capacity. -/
def checkBit (bit : Nat) : Except Fault (Fin s.capacity) :=
  if h : bit < s.capacity then .ok ⟨bit, h⟩ else .error (.bitOutOfRange bit s.capacity)

/-! ## One place -/

theorem div_lt_size {i : Nat} (h : i < s.capacity) : i / 64 < s.words.size := by
  rw [s.size_words]
  omega

/-- The word that a place lies in. -/
def word (i : Fin s.capacity) : UInt64 :=
  have := s.div_lt_size i.isLt
  s.words[i.val / 64]

theorem getLsbD_word (i : Fin s.capacity) {j : Nat} (h : j / 64 = i / 64) :
    (s.word i).toBitVec.getLsbD (j % 64) = s.mem j := by
  rw [mem, bitAt_eq (h ▸ s.div_lt_size i.isLt)]
  simp only [word, h]

theorem bitAt_set_or (i : Fin s.capacity) (j : Nat) :
    bitAt (s.words.set (i / 64) (s.word i ||| bitMask i) (s.div_lt_size i.isLt)) j =
      (s.mem j || decide (j = i)) := by
  rw [bitAt_set]
  by_cases hw : j / 64 = i / 64
  · rw [if_pos hw, UInt64.toBitVec_or, BitVec.getLsbD_or, getLsbD_bitMask (by omega), s.getLsbD_word i hw]
    exact congrArg (s.mem j || ·) (decide_eq_decide.2 (by omega))
  · rw [if_neg hw, decide_eq_false (fun h => hw (by rw [h])), Bool.or_false]
    rfl

theorem bitAt_set_and_not (i : Fin s.capacity) (j : Nat) :
    bitAt (s.words.set (i / 64) (s.word i &&& ~~~bitMask i) (s.div_lt_size i.isLt)) j =
      (s.mem j && !decide (j = i)) := by
  rw [bitAt_set]
  by_cases hw : j / 64 = i / 64
  · have hj : j % 64 < 64 := by omega
    rw [if_pos hw, UInt64.toBitVec_and, BitVec.getLsbD_and, UInt64.toBitVec_not, BitVec.getLsbD_not,
      getLsbD_bitMask hj, decide_eq_true hj, Bool.true_and, s.getLsbD_word i hw]
    exact congrArg (s.mem j && !·) (decide_eq_decide.2 (by omega))
  · rw [if_neg hw, decide_eq_false (fun h => hw (by rw [h])), Bool.not_false, Bool.and_true]
    rfl

/-- The set with a place added. -/
def insertAt (i : Fin s.capacity) : BitSet where
  capacity := s.capacity
  words := s.words.set (i / 64) (s.word i ||| bitMask i) (s.div_lt_size i.isLt)
  size_words := (Array.size_set _).trans s.size_words
  bitAt_of_le j hj := by
    rw [bitAt_set_or, mem, s.bitAt_of_le j hj, Bool.false_or]
    exact decide_eq_false (by omega)

/-- The set with a place removed. -/
def eraseAt (i : Fin s.capacity) : BitSet where
  capacity := s.capacity
  words := s.words.set (i / 64) (s.word i &&& ~~~bitMask i) (s.div_lt_size i.isLt)
  size_words := (Array.size_set _).trans s.size_words
  bitAt_of_le j hj := by rw [bitAt_set_and_not, mem, s.bitAt_of_le j hj, Bool.false_and]

/-- Whether a bit is a member. -/
def contains (bit : Nat) : Except Fault Bool := do
  let i ← s.checkBit bit
  return s.word i >>> UInt64.ofNat (i % 64) &&& 1 != 0

/-- Adds a bit and tells whether it was a member before. -/
def testAndSet (bit : Nat) : Except Fault (Bool × BitSet) := do
  let i ← s.checkBit bit
  return (s.word i &&& bitMask i != 0, s.insertAt i)

/-- Adds a bit. -/
def insert (bit : Nat) : Except Fault BitSet := do
  let (_, t) ← s.testAndSet bit
  return t

/-- Removes a bit. -/
def erase (bit : Nat) : Except Fault BitSet := do
  let i ← s.checkBit bit
  return s.eraseAt i

/-! ## All words -/

/-- Removes every bit. -/
def clear : BitSet where
  capacity := s.capacity
  words := .replicate s.words.size 0
  size_words := Array.size_replicate.trans s.size_words
  bitAt_of_le i _ := bitAt_of_zero (by simp) i

/-- The number of members. -/
def count : Nat := totalOf (s.words.toList.map popCount)

/-- The lowest bit that is one in the words of a row from word `k` on. -/
def lowest (k : Nat) : List UInt64 → Option Nat
  | [] => none
  | w :: ws => if w = 0 then lowest (k + 1) ws else some (64 * k + trailingZeros w)

/-- The least member that is not below `bit`. -/
def firstFrom (bit : Nat) : Option Nat :=
  if h : bit < s.capacity then
    let masked := s.word ⟨bit, h⟩ &&& bitsFrom bit
    if masked = 0 then lowest (bit / 64 + 1) (s.words.toList.drop (bit / 64 + 1))
    else some (64 * (bit / 64) + trailingZeros masked)
  else
    none

/-! ## The first member -/

/-- An answer is the least number from `b` on that passes a test, or that there is none. -/
def IsFirst (p : Nat → Bool) (b : Nat) : Option Nat → Prop
  | none => ∀ i, b ≤ i → p i = false
  | some i => b ≤ i ∧ p i = true ∧ ∀ j, b ≤ j → j < i → p j = false

/-- Numbers that fail the test can be skipped. -/
theorem IsFirst.of_le {p : Nat → Bool} {b c : Nat} {r : Option Nat} (hbc : b ≤ c) (h : IsFirst p c r)
    (hskip : ∀ i, b ≤ i → i < c → p i = false) : IsFirst p b r := by
  cases r with
  | none =>
    intro i hi
    by_cases hic : i < c
    · exact hskip i hi hic
    · exact h i (by omega)
  | some i =>
    obtain ⟨hci, hpi, hmin⟩ := h
    refine ⟨by omega, hpi, fun j hbj hji => ?_⟩
    by_cases hjc : j < c
    · exact hskip j hbj hjc
    · exact hmin j (by omega) hji

/-- The lowest one of a word of which only the bits from `b` on are left. -/
theorem isFirst_word {words : Array UInt64} {w : UInt64} {b k : Nat} (hk : k < words.size) (hb : 64 * k ≤ b)
    (hw : w ≠ 0)
    (hbits : ∀ j < 64, w.toBitVec.getLsbD j = (words[k].toBitVec.getLsbD j && decide (b ≤ 64 * k + j))) :
    IsFirst (bitAt words) b (some (64 * k + trailingZeros w)) := by
  obtain ⟨hlt, hone, hzeros⟩ := trailingZeros_spec hw
  rw [hbits _ hlt, Bool.and_eq_true, decide_eq_true_iff, ← bitAt_mul_add hk hlt] at hone
  refine ⟨hone.2, hone.1, fun j hbj hj => ?_⟩
  obtain ⟨r, rfl⟩ := Nat.exists_eq_add_of_le (Nat.le_trans hb hbj)
  have hr := hzeros r (by omega)
  rwa [hbits r (by omega), decide_eq_true hbj, Bool.and_true, ← bitAt_mul_add hk (by omega)] at hr

theorem isFirst_lowest {words : Array UInt64} {ws : List UInt64} {k : Nat} (h : words.toList.drop k = ws) :
    IsFirst (bitAt words) (64 * k) (lowest k ws) := by
  induction ws generalizing k with
  | nil =>
    intro i hi
    have hlen : words.size ≤ k := by simpa using h
    exact bitAt_of_size_le (by omega)
  | cons w ws ih =>
    have hk : k < words.size := by
      refine Nat.lt_of_not_le fun hle => ?_
      simp [List.drop_eq_nil_of_le, hle] at h
    rw [List.drop_eq_getElem_cons (by simpa using hk), List.cons.injEq, Array.getElem_toList] at h
    obtain ⟨rfl, hws⟩ := h
    unfold lowest
    split
    · next hzero =>
      refine (ih hws).of_le (by omega) fun i hi hik => ?_
      obtain ⟨r, rfl⟩ := Nat.exists_eq_add_of_le hi
      rw [bitAt_mul_add hk (by omega)]
      exact eq_zero_iff_bits.1 hzero r (by omega)
    · next hone => exact isFirst_word hk (Nat.le_refl _) hone fun j hj => by simp

/-- The search finds the least member that is not below a bound, whatever the bound. -/
theorem firstFrom_isFirst (b : Nat) : IsFirst s.mem b (s.firstFrom b) := by
  unfold firstFrom
  split
  · next h =>
    have hk := s.div_lt_size h
    have hbits (j : Nat) (hj : j < 64) : (s.word ⟨b, h⟩ &&& bitsFrom b).toBitVec.getLsbD j =
        (s.words[b / 64].toBitVec.getLsbD j && decide (b ≤ 64 * (b / 64) + j)) := by
      rw [UInt64.toBitVec_and, BitVec.getLsbD_and, getLsbD_bitsFrom hj]
      exact congrArg (s.words[b / 64].toBitVec.getLsbD j && ·) (decide_eq_decide.2 (by omega))
    dsimp only
    split
    · next hzero =>
      -- What is left of the word of `b` is zero, so nothing is skipped by going on behind it.
      refine (isFirst_lowest rfl).of_le (by omega) fun i hi hik => ?_
      have hbit := eq_zero_iff_bits.1 hzero (i % 64) (by omega)
      rw [hbits _ (by omega), decide_eq_true (by omega), Bool.and_true, ← bitAt_mul_add hk (by omega)] at hbit
      rwa [show i = 64 * (b / 64) + i % 64 by omega]
    · next hone => exact isFirst_word hk (by omega) hone hbits
  · next h => exact fun i hi => s.bitAt_of_le i (by omega)

theorem lt_of_mem {i : Nat} (h : s.mem i = true) : i < s.capacity := by
  refine Nat.lt_of_not_le fun hle => ?_
  rw [mem, s.bitAt_of_le i hle] at h
  cases h

theorem firstFrom_bounds {b i : Nat} (h : s.firstFrom b = some i) : b ≤ i ∧ i < s.capacity := by
  have hfirst := s.firstFrom_isFirst b
  rw [h] at hfirst
  exact ⟨hfirst.1, s.lt_of_mem hfirst.2.1⟩

/-- The members that are not below `bit`, each searched for behind the one before. -/
def membersFrom (bit : Nat) : List Nat :=
  match h : s.firstFrom bit with
  | none => []
  | some i => i :: membersFrom (i + 1)
termination_by s.capacity - bit
decreasing_by
  have := s.firstFrom_bounds h
  omega

/-- The members in ascending order. -/
def toList : List Nat := s.membersFrom 0

/-- The members in braces. -/
def render : String := Text.braced (s.toList.map toString)

end BitSet

end CnfSimp
