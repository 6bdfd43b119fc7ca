import Mathlib
import CnfSimp.Proofs.Outcome
import CnfSimp.Restart.Luby

/-!
# The terms of the Luby sequence

* `luby`: the sequence by its rule (`luby_top`, `luby_repeats`).
* `lubyTerm_ok`: a term by its position is that of the sequence, at all positions that 63 bits can hold.
* `LubyRestart.lowBit_add`: below a power of two, a number has the lowest one-bit that it has in front of any multiple
  of that power. So the numbers that a trigger steps through in one block are those of all blocks before it, moved up
  (`LubyRestart.Block`, `LubyRestart.block_all`). They give the sequence (`LubyRestart.v_path`), and fit 63 bits for as
  many terms (`LubyRestart.path_lt`).
* `next_eq_luby`: a trigger without a limit gives the terms of the sequence one after another.
-/

namespace CnfSimp

/-! ## The sequence -/

/-- The term of the Luby sequence at a position, counted from 1: positions `2 ^ k - 1` end a block, the others are those
of the sequence again. -/
def luby (n : Nat) : Nat :=
  if n + 1 = 2 ^ (n.log2 + 1) then 2 ^ n.log2
  else if 1 < 2 ^ n.log2 then luby (n - (2 ^ n.log2 - 1))
  else 0
termination_by n
decreasing_by
  have hn : n ≠ 0 := by
    rintro rfl
    simp_all
  omega

variable {n m k : Nat}

/-- The terms at the ends of the blocks. -/
theorem luby_top (k : Nat) : luby (2 ^ (k + 1) - 1) = 2 ^ k := by
  have hpos := Nat.two_pow_pos k
  have hlog : (2 ^ (k + 1) - 1).log2 = k := (Nat.log2_eq_iff (by omega)).2 (by omega)
  rw [luby, hlog]
  exact if_pos (by omega)

/-- The other terms of a block. -/
theorem luby_repeats (h : 2 ^ k ≤ n) (hn : n < 2 ^ (k + 1) - 1) : luby n = luby (n - (2 ^ k - 1)) := by
  have hlog : n.log2 = k := (Nat.log2_eq_iff (by omega)).2 (by omega)
  rw [luby, hlog, if_neg (by omega), if_pos (by omega)]

/-- Every position has a term. -/
theorem luby_pos (h0 : n ≠ 0) : 0 < luby n := by
  fun_induction luby n with
  | case1 n _ => exact Nat.two_pow_pos _
  | case2 n _ hblock ih =>
    have := Nat.log2_self_le h0
    exact ih (by omega)
  | case3 n hne hone =>
    have := Nat.two_pow_pos n.log2
    have := Nat.lt_log2_self (n := n)
    rw [Nat.pow_succ] at this hne
    omega

/-- The exponent of a block is found. -/
theorem blockExponent_ok (h0 : n ≠ 0) (hn : n < 2 ^ 63) (hk : k ≤ n.log2 + 1) :
    blockExponent n k = .ok (n.log2 + 1) := by
  obtain ⟨hle, hlt⟩ := (Nat.log2_eq_iff h0).1 rfl
  have h63 : n.log2 < 63 := (Nat.pow_lt_pow_iff_right (by decide)).1 (Nat.lt_of_le_of_lt hle hn)
  fun_induction blockExponent n k with
  | case1 k _ _ ih =>
    apply ih
    by_contra hlast
    obtain rfl : k = n.log2 + 1 := by omega
    simp only [Nat.one_shiftLeft] at *
    omega
  | case2 k _ hstop =>
    rw [Nat.one_shiftLeft] at hstop
    by_contra hne
    have hk : k ≤ n.log2 := by
      refine Nat.le_of_lt_succ (Nat.lt_of_le_of_ne hk ?_)
      intro he
      exact hne (he ▸ rfl)
    have hpow : 2 ^ k ≤ 2 ^ n.log2 := Nat.pow_le_pow_right (by decide) hk
    omega
  | case3 k hk64 => omega

/-- The terms by their positions are those of the sequence. -/
theorem lubyTerm_ok (h0 : n ≠ 0) (hn : n < 2 ^ 63) : lubyTerm n = .ok (luby n) := by
  induction n using Nat.strong_induction_on with
  | h n ih =>
    obtain ⟨hle, hlt⟩ := (Nat.log2_eq_iff h0).1 rfl
    rw [lubyTerm, blockExponent_ok h0 hn (by omega), luby]
    simp only [Nat.one_shiftLeft, Nat.add_sub_cancel]
    by_cases htop : n + 1 = 2 ^ (n.log2 + 1)
    · rw [if_pos (by omega), if_pos htop]
    · have hblock : 1 < 2 ^ n.log2 := by
        by_contra hone
        omega
      rw [if_neg (by omega), if_neg htop, if_pos (by omega), if_pos hblock]
      exact ih _ (by omega) (by omega) (by omega)

namespace LubyRestart

/-! ## Lowest one-bits -/

theorem lowBit_two_mul (n : Nat) : lowBit (2 * n) = 2 * lowBit n := by
  have hand : 2 * n &&& (2 * n - 1) = 2 * (n &&& (n - 1)) := by
    apply Nat.eq_of_testBit_eq
    intro i
    cases i with
    | zero => simp
    | succ i =>
      have hhalf : (2 * n - 1) / 2 = n - 1 := by omega
      rw [Nat.testBit_and, Nat.testBit_succ, Nat.testBit_succ, Nat.testBit_succ, hhalf]
      simp
  rw [lowBit, hand, lowBit, Nat.mul_sub]

theorem lowBit_two_mul_add_one (n : Nat) : lowBit (2 * n + 1) = 1 := by
  have hand : 2 * n + 1 &&& 2 * n = 2 * n := by
    apply Nat.eq_of_testBit_eq
    intro i
    cases i with
    | zero => simp
    | succ i =>
      have hhalf : (2 * n + 1) / 2 = n := by omega
      rw [Nat.testBit_and, Nat.testBit_succ, Nat.testBit_succ, hhalf]
      simp
  rw [lowBit, Nat.add_sub_cancel, hand, Nat.add_sub_cancel_left]

theorem lowBit_two_pow (k : Nat) : lowBit (2 ^ k) = 2 ^ k := by
  induction k with
  | zero => rfl
  | succ k ih => rw [Nat.pow_succ, Nat.mul_comm, lowBit_two_mul, ih]

/-- A number below a power of two keeps its lowest one-bit when that power is added. -/
theorem lowBit_add {u : Nat} (hu : 0 < u) (hlt : u < 2 ^ k) : lowBit (2 ^ k + u) = lowBit u := by
  induction k generalizing u with
  | zero => omega
  | succ k ih =>
    have hpow : 2 ^ (k + 1) = 2 * 2 ^ k := Nat.pow_succ'
    obtain ⟨w, rfl | rfl⟩ : ∃ w, u = 2 * w ∨ u = 2 * w + 1 := ⟨u / 2, by omega⟩
    · rw [hpow, ← Nat.mul_add, lowBit_two_mul, lowBit_two_mul, ih (by omega) (by omega)]
    · rw [hpow, ← Nat.add_assoc, ← Nat.mul_add, lowBit_two_mul_add_one, lowBit_two_mul_add_one]

/-! ## Blocks -/

variable {r s : LubyRestart}

theorem advance_of_eq (h : lowBit r.u = r.v) : r.advance = { r with u := r.u + 1, v := 1 } := if_pos h

theorem advance_of_ne (h : lowBit r.u ≠ r.v) : r.advance = { r with v := 2 * r.v } := if_neg h

/-- The second trigger is at the same term as the first, `2 ^ k` runs later. -/
structure Ahead (k : Nat) (r s : LubyRestart) : Prop where
  u : s.u = 2 ^ k + r.u
  v : s.v = r.v

/-- Two such triggers move together up to the end of run `2 ^ k` of the first. -/
theorem Ahead.advance (h : Ahead k r s) (hu : 0 < r.u) (hle : r.u ≤ 2 ^ k) (hv : r.v ≤ 2 ^ k)
    (hlast : r.u = 2 ^ k → r.v ≠ 2 ^ k) : Ahead k r.advance s.advance := by
  have hsame : lowBit s.u = s.v ↔ lowBit r.u = r.v := by
    rw [h.u, h.v]
    rcases Nat.lt_or_eq_of_le hle with hlt | heq
    · rw [lowBit_add hu hlt]
    · -- Both runs go on: the last term of run `2 ^ k` is `2 ^ k`, and that of run `2 ^ (k + 1)` is greater still.
      have hpos := Nat.two_pow_pos k
      have hne := hlast heq
      rw [heq, ← Nat.two_mul, lowBit_two_mul, lowBit_two_pow]
      omega
  by_cases hr : lowBit r.u = r.v
  · rw [advance_of_eq hr, advance_of_eq (hsame.2 hr)]
    exact ⟨by rw [h.u, Nat.add_assoc], rfl⟩
  · rw [advance_of_ne hr, advance_of_ne (mt hsame.1 hr)]
    exact ⟨h.u, by rw [h.v]⟩

/-- The state of a trigger after a number of terms, as long as it is not reset. -/
def path (r : LubyRestart) (m : Nat) : LubyRestart := advance^[m] r

theorem path_succ (r : LubyRestart) (m : Nat) : r.path (m + 1) = (r.path m).advance :=
  Function.iterate_succ_apply' _ _ _

/-- What a trigger goes through in its first `2 ^ (k + 1) - 1` terms. Run `2 ^ k` is the last one, and the term `2 ^ k`
comes at the end of that run only. -/
structure Block (r : LubyRestart) (k : Nat) : Prop where
  pos : ∀ m < 2 ^ (k + 1) - 1, 0 < (r.path m).u
  le : ∀ m < 2 ^ (k + 1) - 1, (r.path m).u ≤ 2 ^ k ∧ (r.path m).v ≤ 2 ^ k
  before : ∀ m < 2 ^ (k + 1) - 2, (r.path m).u = 2 ^ k → (r.path m).v ≠ 2 ^ k
  last : (r.path (2 ^ (k + 1) - 2)).u = 2 ^ k ∧ (r.path (2 ^ (k + 1) - 2)).v = 2 ^ k
  term : ∀ m < 2 ^ (k + 1) - 1, (r.path m).v = luby (m + 1)

section Block

variable (hu : r.u = 1) (hv : r.v = 1)
include hu hv

theorem block_zero : r.Block 0 where
  pos m hm := by
    obtain rfl : m = 0 := by omega
    exact hu ▸ Nat.one_pos
  le m hm := by
    obtain rfl : m = 0 := by omega
    exact ⟨Nat.le_of_eq hu, Nat.le_of_eq hv⟩
  before m hm := by omega
  last := ⟨hu, hv⟩
  term m hm := by
    obtain rfl : m = 0 := by omega
    exact hv.trans (luby_top 0).symm

/-- Behind a block, the trigger goes through the same terms again. -/
theorem Block.again (h : r.Block k) (hm : m < 2 ^ (k + 1) - 1) : Ahead k (r.path m) (r.path (2 ^ (k + 1) - 1 + m)) := by
  have hpos := Nat.two_pow_pos k
  induction m with
  | zero =>
    obtain ⟨hlu, hlv⟩ := h.last
    have hnext : 2 ^ (k + 1) - 1 + 0 = 2 ^ (k + 1) - 2 + 1 := by omega
    rw [hnext, path_succ, advance_of_eq (by rw [hlu, hlv, lowBit_two_pow])]
    refine ⟨?_, hv.symm⟩
    show (r.path _).u + 1 = 2 ^ k + r.u
    rw [hlu, hu]
  | succ m ih =>
    obtain ⟨hle, hle'⟩ := h.le m (by omega)
    rw [← Nat.add_assoc, path_succ, path_succ]
    exact (ih (by omega)).advance (h.pos m (by omega)) hle hle' (h.before m (by omega))

/-- A block is twice the block before it and the next power of two. -/
theorem Block.succ (h : r.Block k) : r.Block (k + 1) := by
  have hpos := Nat.two_pow_pos k
  have hpow : 2 ^ (k + 1) = 2 * 2 ^ k := Nat.pow_succ'
  have hpow' : 2 ^ (k + 1 + 1) = 2 * 2 ^ (k + 1) := Nat.pow_succ'
  have hlast : (r.path (2 ^ (k + 1 + 1) - 2)).u = 2 ^ (k + 1) ∧ (r.path (2 ^ (k + 1 + 1) - 2)).v = 2 ^ (k + 1) := by
    have hahead := h.again hu hv (m := 2 ^ (k + 1) - 2) (by omega)
    obtain ⟨hlu, hlv⟩ := h.last
    have hsu := hahead.u
    have hsv := hahead.v
    rw [hlu, ← Nat.two_mul, ← hpow] at hsu
    rw [hlv] at hsv
    have hnext : 2 ^ (k + 1 + 1) - 2 = 2 ^ (k + 1) - 1 + (2 ^ (k + 1) - 2) + 1 := by omega
    rw [hnext, path_succ, advance_of_ne (by rw [hsu, hsv, lowBit_two_pow]; omega)]
    exact ⟨hsu, by rw [hsv, ← hpow]⟩
  -- A position is one of the first block, one of the block repeated, or the last one.
  have hcases (m : Nat) (hm : m < 2 ^ (k + 1 + 1) - 1) : m < 2 ^ (k + 1) - 1 ∨
      (∃ i < 2 ^ (k + 1) - 1, m = 2 ^ (k + 1) - 1 + i) ∨ m = 2 ^ (k + 1 + 1) - 2 := by
    rcases Nat.lt_or_ge m (2 ^ (k + 1) - 1) with hlt | hge
    · exact Or.inl hlt
    · rcases Nat.lt_or_ge m (2 ^ (k + 1 + 1) - 2) with hlt | hge'
      · exact Or.inr (Or.inl ⟨m - (2 ^ (k + 1) - 1), by omega, by omega⟩)
      · exact Or.inr (Or.inr (by omega))
  refine ⟨fun m hm => ?_, fun m hm => ?_, fun m hm hmu => ?_, hlast, fun m hm => ?_⟩
  · rcases hcases m hm with hlt | ⟨i, hi, rfl⟩ | rfl
    · exact h.pos m hlt
    · rw [(h.again hu hv hi).u]
      omega
    · omega
  · rcases hcases m hm with hlt | ⟨i, hi, rfl⟩ | rfl
    · have := h.le m hlt
      omega
    · have := h.le i hi
      rw [(h.again hu hv hi).u, (h.again hu hv hi).v]
      omega
    · omega
  · rcases hcases m (by omega) with hlt | ⟨i, hi, rfl⟩ | rfl
    · have := h.le m hlt
      omega
    · have := h.le i hi
      rw [(h.again hu hv hi).v]
      omega
    · omega
  · rcases hcases m hm with hlt | ⟨i, hi, rfl⟩ | rfl
    · exact h.term m hlt
    · have hrepeats := luby_repeats (k := k + 1) (n := 2 ^ (k + 1) - 1 + i + 1) (by omega) (by omega)
      rw [(h.again hu hv hi).v, h.term i hi, hrepeats]
      exact congrArg luby (by omega)
    · have hend : 2 ^ (k + 1 + 1) - 2 + 1 = 2 ^ (k + 1 + 1) - 1 := by omega
      rw [hlast.2, hend, luby_top]

theorem block_all (k : Nat) : r.Block k := by
  induction k with
  | zero => exact block_zero hu hv
  | succ k ih => exact ih.succ hu hv

/-- The terms that the trigger gives are those of the sequence. -/
theorem v_path (m : Nat) : (r.path m).v = luby (m + 1) := by
  have hlt : m < 2 ^ (m + 1) - 1 := by
    have := Nat.lt_two_pow_self (n := m)
    rw [Nat.pow_succ]
    omega
  exact (block_all hu hv m).term m hlt

end Block

/-! ## Terms one after another -/

/-- The trigger after a number of terms. -/
def after (r : LubyRestart) (m : Nat) : LubyRestart := (fun r => r.next.2)^[m] r

/-- The terms come from two of the numbers alone. -/
theorem advance_eq (r : LubyRestart) : r.advance = { r with u := r.advance.u, v := r.advance.v } := by
  unfold advance
  split <;> rfl

theorem path_eq (r : LubyRestart) (m : Nat) : r.path m = { r with u := (r.path m).u, v := (r.path m).v } := by
  induction m with
  | zero => rfl
  | succ m ih =>
    rw [path_succ]
    refine (advance_eq (r.path m)).trans ?_
    rw [ih]

theorem limit_path (r : LubyRestart) (m : Nat) : (r.path m).limit = r.limit := by
  rw [path_eq]

/-- A trigger is not reset as long as no term reaches the limit. -/
theorem after_eq_path (h : ∀ k, k < m → (r.path (k + 1)).limitReached = false) : r.after m = r.path m := by
  induction m with
  | zero => rfl
  | succ m ih =>
    have hnot := h m (Nat.lt_succ_self m)
    rw [path_succ] at hnot ⊢
    rw [after, Function.iterate_succ_apply', ← after, ih fun k hk => h k (Nat.lt_succ_of_lt hk)]
    simp [next, hnot]

/-- Without a limit a trigger is never reset. -/
theorem after_of_limit_zero (h : r.limit = 0) (m : Nat) : r.after m = r.path m :=
  after_eq_path fun k _ => by simp [limitReached, limit_path, h]

/-- The numbers that a trigger goes through fit 63 bits for as many terms. -/
theorem path_lt (hu : r.u = 1) (hv : r.v = 1) (hm : m < 2 ^ 63) : (r.path m).u < 2 ^ 63 ∧ (r.path m).v < 2 ^ 63 := by
  have hblock : r.Block 62 := block_all hu hv 62
  rcases Nat.lt_or_ge m (2 ^ 63 - 1) with hlt | hge
  · have := hblock.le m hlt
    omega
  · obtain rfl : m = 2 ^ 63 - 1 := by omega
    have hahead : Ahead 62 (r.path 0) (r.path (2 ^ 63 - 1)) := hblock.again hu hv (m := 0) (by decide)
    rw [hahead.u, hahead.v]
    show 2 ^ 62 + r.u < 2 ^ 63 ∧ r.v < 2 ^ 63
    rw [hu, hv]
    decide

end LubyRestart

open LubyRestart in
/-- At every position that 63 bits can hold, the term by its position is that of the sequence, and a trigger without a
limit gives it after as many terms as there are positions before. The numbers that the trigger keeps fit 63 bits all
along. The sequence is the one with `2 ^ k` at position `2 ^ (k + 1) - 1` that repeats itself in between. -/
theorem next_eq_luby {factor : Int} (hf : 0 < factor) {n : Nat} (hn : 1 ≤ n) (h63 : n < 2 ^ 63) :
    lubyTerm n = .ok (luby n) ∧
    (∃ r, init factor 0 = .ok r ∧ (r.after (n - 1)).next.1 = luby n ∧
      ∀ m ≤ n, (r.after m).u < 2 ^ 63 ∧ (r.after m).v < 2 ^ 63) ∧
    ∀ k, luby (2 ^ (k + 1) - 1) = 2 ^ k ∧
      ∀ i, 2 ^ k ≤ i → i < 2 ^ (k + 1) - 1 → luby i = luby (i - (2 ^ k - 1)) := by
  refine ⟨lubyTerm_ok (by omega) h63, ⟨start factor 0, if_pos hf, ?_, ?_⟩,
    fun k => ⟨luby_top k, fun i => luby_repeats⟩⟩
  · rw [after_of_limit_zero rfl]
    show ((start factor 0).path (n - 1)).v = luby n
    rw [v_path rfl rfl, Nat.sub_add_cancel hn]
  · intro m hm
    rw [after_of_limit_zero rfl]
    exact path_lt rfl rfl (by omega)

/-- The seventh term ends a block. -/
theorem next_eq_luby_seven : lubyTerm 7 = .ok 4 ∧ ∃ r, LubyRestart.init 100 0 = .ok r ∧ (r.after 6).next.1 = 4 := by
  have hfactor : (0 : Int) < 100 := by decide
  have hseventh : 1 ≤ 7 := by decide
  obtain ⟨hterm, ⟨r, hinit, hnext, _⟩, hrule⟩ := next_eq_luby hfactor hseventh (by decide)
  have hseven : luby 7 = 4 := (hrule 2).1
  rw [hseven] at hterm hnext
  exact ⟨hterm, r, hinit, hnext⟩

end CnfSimp
