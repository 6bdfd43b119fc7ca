import CnfSimp.Proofs.Outcome
import CnfSimp.Restart.Average

/-!
# Moving averages in exact arithmetic

What the updates of a moving average come to when its numbers are rational.

* `Average.after w xs`: the average for a window, behind a list of samples.
* `Average.Scheduled w n a`: the step, and the counters that decide when it is halved, in terms of the number of updates
  alone. Every update keeps it (`Average.Scheduled.update`), since a countdown that has just been reloaded runs out when
  the number of updates and one is the next power of two (`log2_succ`).
* `Average.between_after`: behind the first update the value stays between bounds on the samples.
* `average_exact`: all of this for every window and every list of samples.
-/

namespace CnfSimp

/-! ## Powers of two -/

section Powers

variable {n k : Nat}

theorem pow_log2_le (n : Nat) : 2 ^ (n + 1).log2 ≤ n + 1 ∧ n + 1 < 2 ^ ((n + 1).log2 + 1) :=
  (Nat.log2_eq_iff (Nat.succ_ne_zero n)).1 rfl

/-- The number of binary digits grows at the powers of two. -/
theorem log2_succ (n : Nat) : (n + 2).log2 =
    if n + 2 = 2 ^ ((n + 1).log2 + 1) then (n + 1).log2 + 1 else (n + 1).log2 := by
  have h := pow_log2_le n
  split
  · next he => exact (Nat.log2_eq_iff (by omega)).2 ⟨he.ge, by rw [Nat.pow_succ 2 (_ + 1)]; omega⟩
  · next hne => exact (Nat.log2_eq_iff (by omega)).2 (by omega)

theorem log2_mono (h : n ≤ k) : (n + 1).log2 ≤ (k + 1).log2 := by
  rw [Nat.log2_eq_log_two, Nat.log2_eq_log_two]
  exact Nat.log_mono_right (Nat.succ_le_succ h)

/-- The only power of two that a number's successor can be. -/
theorem exists_pow_iff : (∃ k, n + 2 = 2 ^ k) ↔ n + 2 = 2 ^ ((n + 1).log2 + 1) := by
  refine ⟨fun ⟨k, hk⟩ => ?_, fun h => ⟨_, h⟩⟩
  have h := pow_log2_le n
  have hlow : (n + 1).log2 < k := (Nat.pow_lt_pow_iff_right (by decide)).1 (show 2 ^ (n + 1).log2 < 2 ^ k by omega)
  have hhigh : k ≤ (n + 1).log2 + 1 :=
    (Nat.pow_le_pow_iff_right (by decide)).1 (show 2 ^ k ≤ 2 ^ ((n + 1).log2 + 1) by omega)
  rwa [show k = (n + 1).log2 + 1 by omega] at hk

end Powers

namespace Average

variable {a : Average ℚ} {w n : Nat} {x : ℚ} {xs : List ℚ}

theorem ofNat_eq (n : Nat) : (ofNat n : ℚ) = n := by
  show Rat.ofScientific n false 0 = n
  rw [Rat.ofScientific_false_def]
  simp

/-! ## One update -/

/-- The average with its value moved towards a sample. -/
def moved (a : Average ℚ) (x : ℚ) : Average ℚ := { a with value := a.value + a.step * (x - a.value) }

/-- Once the step is the least one, nothing but the value changes. -/
theorem update_of_le (h : a.step ≤ a.least) (x : ℚ) : a.update x = a.moved x := if_pos h

theorem update_of_ne (h : a.least < a.step) (hleft : a.countdown ≠ 0) (x : ℚ) :
    a.update x = { a.moved x with countdown := a.countdown - 1 } := by
  unfold update
  rw [if_neg (not_le_of_gt h), if_neg hleft]
  rfl

/-- The update that finds the countdown at its end halves the step and reloads the countdown. -/
theorem update_of_eq (h : a.least < a.step) (hleft : a.countdown = 0) (x : ℚ) : a.update x =
    { a.moved x with
      step := max (a.step / 2) a.least, period := 2 * a.period + 1, countdown := 2 * a.period + 1 } := by
  have hhalf : a.step * 0.5 = a.step / 2 := by ring
  unfold update
  rw [if_neg (not_le_of_gt h), if_pos hleft]
  simp only [halve, hhalf, max_def]
  rfl

/-- Every update moves the value by the step that it finds. -/
theorem value_update (a : Average ℚ) (x : ℚ) : (a.update x).value = a.value + a.step * (x - a.value) := by
  by_cases h : a.step ≤ a.least
  · rw [update_of_le h]
    rfl
  · by_cases hleft : a.countdown = 0
    · rw [update_of_eq (lt_of_not_ge h) hleft]
      rfl
    · rw [update_of_ne (lt_of_not_ge h) hleft]
      rfl

/-! ## The schedule -/

/-- The average for a window of `w` after `n` updates. The step is the inverse of the greatest power of two that `n + 1`
reaches, or that of the window if it is greater. As long as it is greater, the countdown is what is missing to the next
power of two. -/
structure Scheduled (w n : Nat) (a : Average ℚ) : Prop where
  least : a.least = 1 / w
  step : a.step = max (1 / (2 : ℚ) ^ (n + 1).log2) (1 / w)
  period : a.least < a.step → a.period = 2 ^ (n + 1).log2 - 1
  countdown : a.least < a.step → a.countdown = 2 ^ ((n + 1).log2 + 1) - (n + 2)
  bounds : 0 ≤ a.countdown ∧ a.countdown ≤ a.period ∧ a.period < 2 * w

theorem one_div_window_le (hw : 1 ≤ w) : (1 : ℚ) / w ≤ 1 := by
  rw [div_le_one (by positivity)]
  exact_mod_cast hw

theorem one_div_pow_log2_le {m : Nat} (h : n ≤ m) : (1 : ℚ) / 2 ^ (m + 1).log2 ≤ 1 / 2 ^ (n + 1).log2 :=
  one_div_le_one_div_of_le (by positivity) (pow_le_pow_right₀ (by norm_num) (log2_mono h))

theorem Scheduled.start (hw : 1 ≤ w) : Scheduled w 0 (start w) := by
  have hlog : (0 + 1).log2 = 0 := by decide
  refine ⟨?_, ?_, fun _ => rfl, fun _ => rfl, ?_⟩
  · simp [Average.start, ofNat_eq]
  · rw [hlog, pow_zero, div_one, max_eq_left (one_div_window_le hw)]
    simp [Average.start, ofNat_eq]
  · show (0 : Int) ≤ 0 ∧ (0 : Int) ≤ 0 ∧ (0 : Int) < 2 * w
    omega

namespace Scheduled

variable (h : Scheduled w n a)
include h

/-- While the step is above the least one, it is a power of one half. -/
theorem step_of_lt (hlt : a.least < a.step) : a.step = 1 / 2 ^ (n + 1).log2 ∧ 2 ^ (n + 1).log2 < w := by
  rw [h.step, h.least] at hlt
  have hstep : (1 : ℚ) / w < 1 / 2 ^ (n + 1).log2 := by
    rcases lt_max_iff.1 hlt with hlt | hlt
    · exact hlt
    · exact absurd hlt (lt_irrefl _)
  refine ⟨by rw [h.step, max_eq_left hstep.le], ?_⟩
  have hpos : 0 < w := by have := h.bounds; omega
  have hpow : (2 : ℚ) ^ (n + 1).log2 < w := lt_of_one_div_lt_one_div (by exact_mod_cast hpos) hstep
  exact_mod_cast hpow

/-- The countdown ends at the powers of two, less one. -/
theorem countdown_eq_zero_iff (hlt : a.least < a.step) : a.countdown = 0 ↔ n + 2 = 2 ^ ((n + 1).log2 + 1) := by
  have hcount := h.countdown hlt
  have hcast : n + 2 = 2 ^ ((n + 1).log2 + 1) ↔ (n + 2 : Int) = 2 ^ ((n + 1).log2 + 1) := by norm_cast
  rw [hcast]
  omega

/-- An update that finds the least step. -/
theorem update_least (hle : a.step ≤ a.least) (x : ℚ) : Scheduled w (n + 1) (a.update x) := by
  rw [update_of_le hle]
  have hstep := h.step
  have hnot : ¬a.least < a.step := not_lt_of_ge hle
  rw [h.least, hstep, max_le_iff] at hle
  have hsmall : (1 : ℚ) / 2 ^ (n + 2).log2 ≤ 1 / w := (one_div_pow_log2_le (Nat.le_succ n)).trans hle.1
  rw [max_eq_right hle.1] at hstep
  refine ⟨h.least, ?_, fun hlt => absurd hlt hnot, fun hlt => absurd hlt hnot, h.bounds⟩
  rw [max_eq_right hsmall]
  exact hstep

/-- An update that finds the countdown at its end. -/
theorem update_reload (hlt : a.least < a.step) (hzero : a.countdown = 0) (x : ℚ) :
    Scheduled w (n + 1) (a.update x) := by
  have hreach := (h.countdown_eq_zero_iff hlt).1 hzero
  have hlog : (n + 2).log2 = (n + 1).log2 + 1 := by rw [log2_succ, if_pos hreach]
  have hreach : (n + 2 : Int) = 2 ^ ((n + 1).log2 + 1) := by exact_mod_cast hreach
  obtain ⟨hstep, hpow⟩ := h.step_of_lt hlt
  have hpow : (2 : Int) ^ (n + 1).log2 < w := by exact_mod_cast hpow
  have hperiod : 2 * a.period + 1 = 2 ^ ((n + 1).log2 + 1) - 1 := by rw [h.period hlt, pow_succ]; omega
  have hbounds := h.bounds
  rw [update_of_eq hlt hzero]
  refine ⟨h.least, ?_, fun _ => ?_, fun _ => ?_, ?_⟩
  · show max (a.step / 2) a.least = _
    rw [hlog, hstep, h.least, div_div, ← pow_succ]
  · show 2 * a.period + 1 = _
    rw [hlog, hperiod]
  · show 2 * a.period + 1 = _
    rw [hlog, hperiod, pow_succ 2 (_ + 1)]
    omega
  · show 0 ≤ 2 * a.period + 1 ∧ 2 * a.period + 1 ≤ 2 * a.period + 1 ∧ 2 * a.period + 1 < 2 * w
    rw [pow_succ] at hperiod
    omega

/-- An update in between. -/
theorem update_count (hlt : a.least < a.step) (hleft : a.countdown ≠ 0) (x : ℚ) :
    Scheduled w (n + 1) (a.update x) := by
  have hlog : (n + 2).log2 = (n + 1).log2 := by
    rw [log2_succ, if_neg fun he => hleft ((h.countdown_eq_zero_iff hlt).2 he)]
  have hcount := h.countdown hlt
  have hbounds := h.bounds
  rw [update_of_ne hlt hleft]
  refine ⟨h.least, ?_, fun _ => ?_, fun _ => ?_, ?_⟩
  · rw [hlog]
    exact h.step
  · rw [hlog]
    exact h.period hlt
  · rw [hlog]
    show a.countdown - 1 = _
    omega
  · show 0 ≤ a.countdown - 1 ∧ a.countdown - 1 ≤ a.period ∧ a.period < 2 * w
    omega

/-- Every update keeps to the schedule. -/
theorem update (x : ℚ) : Scheduled w (n + 1) (a.update x) := by
  by_cases hle : a.step ≤ a.least
  · exact h.update_least hle x
  · by_cases hzero : a.countdown = 0
    · exact h.update_reload (lt_of_not_ge hle) hzero x
    · exact h.update_count (lt_of_not_ge hle) hzero x

/-- The share of a sample is positive, and at most all. -/
theorem step_mem (hw : 1 ≤ w) : 0 < a.step ∧ a.step ≤ 1 := by
  rw [h.step]
  refine ⟨lt_max_of_lt_left (by positivity), max_le ?_ (one_div_window_le hw)⟩
  rw [div_le_one (by positivity)]
  exact one_le_pow₀ (by norm_num)

end Scheduled

/-! ## All updates -/

/-- The average for a window, behind a list of samples. -/
def after (w : Nat) (xs : List ℚ) : Average ℚ := xs.foldl update (start w)

theorem after_concat (w : Nat) (xs : List ℚ) (x : ℚ) : after w (xs ++ [x]) = (after w xs).update x := by
  rw [after, List.foldl_append]
  rfl

theorem scheduled_after (hw : 1 ≤ w) (xs : List ℚ) : Scheduled w xs.length (after w xs) := by
  induction xs using List.reverseRecOn with
  | nil => exact .start hw
  | append_singleton xs x ih =>
    rw [after_concat, List.length_append]
    exact ih.update x

/-- A value between two bounds that moves towards a sample between them by at most all of the way stays between them. -/
theorem between_update {lo hi : ℚ} (hstep : 0 < a.step ∧ a.step ≤ 1) (hv : lo ≤ a.value ∧ a.value ≤ hi)
    (hx : lo ≤ x ∧ x ≤ hi) : lo ≤ (a.update x).value ∧ (a.update x).value ≤ hi := by
  have hmean : (a.update x).value = (1 - a.step) * a.value + a.step * x := by
    rw [value_update]
    ring
  have hrest : 0 ≤ 1 - a.step := sub_nonneg.2 hstep.2
  rw [hmean]
  constructor
  · calc lo = (1 - a.step) * lo + a.step * lo := by ring
      _ ≤ (1 - a.step) * a.value + a.step * x :=
        add_le_add (mul_le_mul_of_nonneg_left hv.1 hrest) (mul_le_mul_of_nonneg_left hx.1 hstep.1.le)
  · calc (1 - a.step) * a.value + a.step * x ≤ (1 - a.step) * hi + a.step * hi :=
        add_le_add (mul_le_mul_of_nonneg_left hv.2 hrest) (mul_le_mul_of_nonneg_left hx.2 hstep.1.le)
      _ = hi := by ring

/-- The first sample becomes the value. -/
theorem value_after_singleton (w : Nat) (x : ℚ) : (after w [x]).value = x := by
  show ((start w).update x).value = x
  rw [value_update]
  simp [start, ofNat_eq]

/-- The step behind any samples. -/
theorem step_after (hw : 1 ≤ w) (xs : List ℚ) :
    (after w xs).step = max (1 / (2 : ℚ) ^ (xs.length + 1).log2) (1 / w) := (scheduled_after hw xs).step

/-- The step is halved, but not below the least one, by the updates whose number is one less than a power of two. -/
theorem step_after_concat_of_pow (hw : 1 ≤ w) (hpow : ∃ k, xs.length + 2 = 2 ^ k) (x : ℚ) :
    (after w (xs ++ [x])).step = max ((after w xs).step / 2) (1 / w) := by
  have hlog : (xs.length + 1 + 1).log2 = (xs.length + 1).log2 + 1 := by rw [log2_succ, if_pos (exists_pow_iff.1 hpow)]
  have hleast : (1 : ℚ) / w / 2 ≤ 1 / w := half_le_self (by positivity)
  rw [step_after hw, step_after hw, List.length_append, List.length_singleton, hlog, ← max_div_div_right (by norm_num),
    max_assoc, max_eq_right hleast, div_div, ← pow_succ]

/-- All other updates leave it alone. -/
theorem step_after_concat_of_not_pow (hw : 1 ≤ w) (hpow : ¬∃ k, xs.length + 2 = 2 ^ k) (x : ℚ) :
    (after w (xs ++ [x])).step = (after w xs).step := by
  have hlog : (xs.length + 1 + 1).log2 = (xs.length + 1).log2 := by
    rw [log2_succ, if_neg fun he => hpow (exists_pow_iff.2 he)]
  rw [step_after hw, step_after hw, List.length_append, List.length_singleton, hlog]

/-- Once it is the least one, it stays. -/
theorem step_after_append (hw : 1 ≤ w) (hleast : (after w xs).step = 1 / w) (ys : List ℚ) :
    (after w (xs ++ ys)).step = 1 / w := by
  rw [step_after hw, max_eq_right_iff] at hleast ⊢
  exact (one_div_pow_log2_le (by simp)).trans hleast

/-- Behind the first update the value stays between bounds on the samples. -/
theorem between_after {lo hi : ℚ} (hw : 1 ≤ w) (hne : xs ≠ []) (h : ∀ x ∈ xs, lo ≤ x ∧ x ≤ hi) :
    lo ≤ (after w xs).value ∧ (after w xs).value ≤ hi := by
  induction xs using List.reverseRecOn with
  | nil => exact absurd rfl hne
  | append_singleton xs x ih =>
    have hx := h x (by simp)
    by_cases hxs : xs = []
    · rw [hxs, List.nil_append, value_after_singleton]
      exact hx
    · rw [after_concat]
      exact between_update ((scheduled_after hw xs).step_mem hw) (ih hxs fun y hy => h y (by simp [hy])) hx

end Average

open Average

variable {w : Nat}

/-- **The schedule of a moving average**, in exact arithmetic, for every window and every list of samples. The step that
the next update uses is `2 ^ -⌊log2 (n + 1)⌋` behind `n` updates, or the inverse of the window if that is greater: the
updates with the numbers 1, 3, 7, 15, … halve it, until it has come down to the inverse of the window, where it stays.
The counters behind the schedule stay below twice the window. Behind the first update the value lies between the least
and the greatest sample. -/
theorem average_exact (hw : 1 ≤ w) : ofWindow w = .ok (start w : Average ℚ) ∧ ∀ xs : List ℚ,
    (after w xs).step = max (1 / (2 : ℚ) ^ (xs.length + 1).log2) (1 / w) ∧
    (∀ x, (after w (xs ++ [x])).value = (after w xs).value + (after w xs).step * (x - (after w xs).value)) ∧
    ((∃ k, xs.length + 2 = 2 ^ k) →
      ∀ x, (after w (xs ++ [x])).step = max ((after w xs).step / 2) (1 / w)) ∧
    ((¬∃ k, xs.length + 2 = 2 ^ k) → ∀ x, (after w (xs ++ [x])).step = (after w xs).step) ∧
    ((after w xs).step = 1 / w → ∀ ys, (after w (xs ++ ys)).step = 1 / w) ∧
    (0 ≤ (after w xs).countdown ∧ (after w xs).countdown ≤ (after w xs).period ∧ (after w xs).period < 2 * w) ∧
    ∀ hne : xs ≠ [], xs.min hne ≤ (after w xs).value ∧ (after w xs).value ≤ xs.max hne := by
  refine ⟨if_neg (by omega), fun xs => ⟨step_after hw xs, fun x => ?_, step_after_concat_of_pow hw,
    step_after_concat_of_not_pow hw, step_after_append hw, (scheduled_after hw xs).bounds, fun hne => ?_⟩⟩
  · rw [after_concat, value_update]
  · exact between_after hw hne fun x hx => ⟨List.min_le_of_mem hx, List.le_max_of_mem hx⟩

/-- A window of five: the step behind eight samples, where it has come down to one fifth, and the value behind two. -/
theorem average_exact_window_five :
    (after 5 [1, 2, 3, 4, 5, 6, 7, 8]).step = 1 / 5 ∧ (∀ ys, (after 5 ([1, 2, 3, 4, 5, 6, 7, 8] ++ ys)).step = 1 / 5) ∧
      (after 5 [4, 8]).step = 1 / 2 ∧ 4 ≤ (after 5 [4, 8]).value ∧ (after 5 [4, 8]).value ≤ 8 := by
  obtain ⟨-, h⟩ := average_exact (w := 5) (by decide)
  obtain ⟨hlong, -, -, -, hstays, -, -⟩ := h [1, 2, 3, 4, 5, 6, 7, 8]
  obtain ⟨hshort, -, -, -, -, -, hbetween⟩ := h [4, 8]
  have hlog : (8 + 1).log2 = 3 ∧ (2 + 1).log2 = 1 := by decide
  have hleast : (after 5 [1, 2, 3, 4, 5, 6, 7, 8]).step = 1 / 5 := by
    refine hlong.trans ?_
    show max (1 / (2 : ℚ) ^ (8 + 1).log2) (1 / ((5 : Nat) : ℚ)) = 1 / 5
    rw [hlog.1]
    norm_num
  have hhalf : (after 5 [4, 8]).step = 1 / 2 := by
    refine hshort.trans ?_
    show max (1 / (2 : ℚ) ^ (2 + 1).log2) (1 / ((5 : Nat) : ℚ)) = 1 / 2
    rw [hlog.2]
    norm_num
  have hne : ([4, 8] : List ℚ) ≠ [] := List.cons_ne_nil _ _
  have hmin : ([4, 8] : List ℚ).min hne = 4 := min_eq_left (by norm_num)
  have hmax : ([4, 8] : List ℚ).max hne = 8 := max_eq_right (by norm_num)
  exact ⟨hleast, hstays hleast, hhalf, hmin ▸ (hbetween hne).1, hmax ▸ (hbetween hne).2⟩

end CnfSimp
