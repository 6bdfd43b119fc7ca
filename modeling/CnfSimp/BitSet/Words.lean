/-!
# Rows of bits

A row of 64-bit words is read as a row of bits: bit `i` of the row is bit `i % 64` of word `i / 64`.

* `bitAt`: the view. Behind the words there are only zeros.
* `bitMask`, `bitsFrom`: the words by which one bit, or the bits from one on, are singled out (`and_bitMask`,
  `getLsbD_bitsFrom`).
* `trailingZeros`: where the lowest one of a word is (`trailingZeros_spec`).
* `popCount`: the number of ones.
-/

namespace CnfSimp

/-- The word in which bit `i % 64` is the only one. -/
def bitMask (i : Nat) : UInt64 := 1 <<< UInt64.ofNat (i % 64)

/-- The word of the bits from `i % 64` on. -/
def bitsFrom (i : Nat) : UInt64 := ~~~0 <<< UInt64.ofNat (i % 64)

/-- How many zeros a word has below its lowest one. -/
def trailingZeros (w : UInt64) : Nat := w.toBitVec.ctz.toNat

/-- The number of ones of a word. -/
def popCount (w : UInt64) : Nat := w.toBitVec.cpop.toNat

/-- A bit of a row of words. -/
def bitAt (words : Array UInt64) (i : Nat) : Bool := (words.getD (i / 64) 0).toBitVec.getLsbD (i % 64)

variable {words : Array UInt64} {w : UInt64} {i j k : Nat}

/-! ## Bits of a word -/

theorem toNat_offset (i : Nat) : (UInt64.ofNat (i % 64)).toNat % 64 = i % 64 := by
  rw [UInt64.toNat_ofNat']
  omega

theorem getLsbD_shiftLeft_offset (hj : j < 64) : (w <<< UInt64.ofNat (i % 64)).toBitVec.getLsbD j =
    (decide (i % 64 ≤ j) && w.toBitVec.getLsbD (j - i % 64)) := by
  show (w <<< UInt64.ofNat (i % 64)).toNat.testBit j = (_ && w.toNat.testBit _)
  rw [UInt64.toNat_shiftLeft, toNat_offset, Nat.testBit_mod_two_pow, Nat.testBit_shiftLeft, decide_eq_true hj,
    Bool.true_and]

theorem getLsbD_bitMask (hj : j < 64) : (bitMask i).toBitVec.getLsbD j = decide (j = i % 64) := by
  have hone : (1 : UInt64).toBitVec.getLsbD (j - i % 64) = decide (j - i % 64 = 0) := BitVec.getLsbD_one
  rw [bitMask, getLsbD_shiftLeft_offset hj, hone, ← Bool.decide_and]
  exact decide_eq_decide.2 (by omega)

theorem getLsbD_bitsFrom (hj : j < 64) : (bitsFrom i).toBitVec.getLsbD j = decide (i % 64 ≤ j) := by
  have hones : (~~~(0 : UInt64)).toBitVec.getLsbD (j - i % 64) = true := by
    rw [UInt64.toBitVec_not, BitVec.getLsbD_not, decide_eq_true (by omega)]
    exact congrArg (!·) (BitVec.getLsbD_zero)
  rw [bitsFrom, getLsbD_shiftLeft_offset hj, hones, Bool.and_true]

/-- A word is zero if none of its bits is one. -/
theorem eq_zero_iff_bits : w = 0 ↔ ∀ j < 64, w.toBitVec.getLsbD j = false := by
  rw [← UInt64.toBitVec_inj]
  exact ⟨fun h j _ => by rw [h]; exact BitVec.getLsbD_zero,
    fun h => BitVec.eq_of_getLsbD_eq fun j hj => (h j hj).trans BitVec.getLsbD_zero.symm⟩

/-- A bit can be read by moving it to the lowest place. -/
theorem shiftRight_and_one (w : UInt64) (i : Nat) :
    (w >>> UInt64.ofNat (i % 64) &&& 1 != 0) = w.toBitVec.getLsbD (i % 64) := by
  show _ = (1 &&& w.toNat >>> (i % 64) != 0)
  rw [Bool.eq_iff_iff, bne_iff_ne, bne_iff_ne, ne_eq, ← UInt64.toNat_inj, UInt64.toNat_and, UInt64.toNat_shiftRight,
    toNat_offset, Nat.and_comm]
  rfl

/-- A bit can be read by masking the others. -/
theorem and_bitMask (w : UInt64) (i : Nat) : (w &&& bitMask i != 0) = w.toBitVec.getLsbD (i % 64) := by
  have hbits (j : Nat) (hj : j < 64) :
      (w &&& bitMask i).toBitVec.getLsbD j = (w.toBitVec.getLsbD j && decide (j = i % 64)) := by
    rw [UInt64.toBitVec_and, BitVec.getLsbD_and, getLsbD_bitMask hj]
  cases hbit : w.toBitVec.getLsbD (i % 64) with
  | true =>
    refine bne_iff_ne.2 fun h => ?_
    have hzero := eq_zero_iff_bits.1 h (i % 64) (by omega)
    rw [hbits _ (by omega), hbit] at hzero
    simp at hzero
  | false =>
    refine bne_eq_false_iff_eq.2 (eq_zero_iff_bits.2 fun j hj => ?_)
    rw [hbits j hj]
    by_cases h : j = i % 64 <;> simp [h, hbit]

/-- The lowest one of a word stands behind its trailing zeros. -/
theorem trailingZeros_spec (h : w ≠ 0) : trailingZeros w < 64 ∧ w.toBitVec.getLsbD (trailingZeros w) ∧
    ∀ j < trailingZeros w, w.toBitVec.getLsbD j = false := by
  have hw : w.toBitVec ≠ 0#64 := fun h' => h (UInt64.toBitVec_inj.1 h')
  have hlt : w.toBitVec.ctz < 64 := BitVec.ctz_lt_iff_ne_zero.2 hw
  exact ⟨hlt, BitVec.getLsbD_true_ctz_of_ne_zero hw, fun j hj => BitVec.getLsbD_false_of_lt_ctz hj⟩

/-- The ones of a word are counted bit by bit. -/
theorem popCount_eq (w : UInt64) : popCount w = (List.range 64).countP w.toBitVec.getLsbD := by
  have hrec (n acc : Nat) : w.toBitVec.cpopNatRec n acc = acc + (List.range n).countP w.toBitVec.getLsbD := by
    induction n generalizing acc with
    | zero => rfl
    | succ n ih =>
      rw [BitVec.cpopNatRec_succ, ih, List.range_succ, List.countP_append, List.countP_singleton]
      cases w.toBitVec.getLsbD n with
      | false => simp
      | true =>
        simp
        omega
  rw [popCount, BitVec.toNat_cpop, hrec, Nat.zero_add]

/-! ## Bits of a row -/

theorem bitAt_eq (h : i / 64 < words.size) : bitAt words i = words[i / 64].toBitVec.getLsbD (i % 64) := by
  rw [bitAt, ← Array.getElem_eq_getD]

theorem bitAt_of_size_le (h : words.size ≤ i / 64) : bitAt words i = false := by
  rw [bitAt, Array.getD_eq_getD_getElem?, Array.getElem?_eq_none h]
  exact BitVec.getLsbD_zero

theorem bitAt_of_zero (h : ∀ w ∈ words, w = 0) (i : Nat) : bitAt words i = false := by
  by_cases hi : i / 64 < words.size
  · rw [bitAt_eq hi, h _ (Array.getElem_mem hi)]
    exact BitVec.getLsbD_zero
  · exact bitAt_of_size_le (Nat.le_of_not_lt hi)

theorem bitAt_mul_add (h : k < words.size) (hj : j < 64) :
    bitAt words (64 * k + j) = words[k].toBitVec.getLsbD j := by
  have hdiv : (64 * k + j) / 64 = k := by omega
  have hmod : (64 * k + j) % 64 = j := by omega
  rw [bitAt_eq (by omega), hmod]
  simp only [hdiv]

/-- Replacing a word leaves the bits of the others alone. -/
theorem bitAt_set (h : k < words.size) :
    bitAt (words.set k w h) i = if i / 64 = k then w.toBitVec.getLsbD (i % 64) else bitAt words i := by
  unfold bitAt
  rw [Array.getD_eq_getD_getElem?, Array.getElem?_set, Array.getD_eq_getD_getElem?]
  by_cases hi : i / 64 = k
  · rw [if_pos hi.symm, if_pos hi, Option.getD_some]
  · rw [if_neg (Ne.symm hi), if_neg hi]

end CnfSimp
