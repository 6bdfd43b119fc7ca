import CnfSimp.Options
import CnfSimp.Proofs.Outcome

/-!
# Ranges of options

* `Float.not_le_iff`: what is not at most another number is above it, or one of the two is no number.
* `checkInt_eq_ok_iff`, `checkReal_eq_ok_iff`: the values that lie in a range. Every range of reals lets a NaN pass.
* `RestartOptions.validate_eq_ok_iff`: the options of the restart triggers that are accepted.
-/

namespace CnfSimp

/-! ## Comparing reals -/

section Compare

open Float.Model (UnpackedFloat)

variable {a b c : UnpackedFloat}

/-- The other way round a comparison is reversed. -/
theorem compare_swap (a b : UnpackedFloat) : b.compare a = (a.compare b).map Ordering.swap := by
  cases a with
  | notANumber => cases b <;> rfl
  | infinity s =>
    rcases b with t | _ | t | ⟨t, _, _, _⟩
    · cases s <;> cases t <;> rfl
    · rfl
    · cases s <;> rfl
    · cases s <;> cases t <;> rfl
  | zero s =>
    rcases b with t | _ | t | ⟨t, _, _, _⟩
    · cases t <;> rfl
    · rfl
    · rfl
    · cases t <;> rfl
  | finite s m e _ =>
    rcases b with t | _ | t | ⟨t, m', e', _⟩
    · cases s <;> cases t <;> rfl
    · rfl
    · cases s <;> rfl
    · -- Of two numbers of one sign the exponents are compared first, and then the mantissas.
      cases s <;> cases t <;>
        simp only [UnpackedFloat.compare, Option.map_some, Ordering.swap_then, Int.compare_swap, Nat.compare_swap,
          Ordering.swap_lt, Ordering.swap_gt]

/-- Exactly NaNs cannot be compared. -/
theorem compare_eq_none_iff : a.compare b = none ↔ a.isNaN ∨ b.isNaN := by
  fun_cases UnpackedFloat.compare a b <;> simp_all [UnpackedFloat.isNaN]

/-- What is not at most another number is above it, or one of the two is no number. -/
theorem not_le_iff : ¬a.le b ↔ a.isNaN ∨ b.isNaN ∨ b.lt a := by
  rw [← or_assoc, ← compare_eq_none_iff]
  unfold UnpackedFloat.le UnpackedFloat.lt
  rw [compare_swap a b]
  rcases a.compare b with _ | _ | _ | _ <;> simp

/-- What lies between two others is finite. -/
theorem isFinite_of_lt_of_lt (h : a.lt b) (h' : b.lt c) : b.isFinite := by
  cases b with
  | notANumber => cases a <;> cases h
  | infinity t =>
    cases t with
    | positive => rcases c with s | _ | s | _ <;> first | cases h' | (cases s <;> cases h')
    | negative => rcases a with s | _ | s | _ <;> first | cases h | (cases s <;> cases h)
  | zero t => rfl
  | finite t m e _ => rfl

end Compare

namespace Float

variable {x y z : Float}

theorem eq_nan_iff : x = Float.nan ↔ x.toModel.unpack.isNaN := by
  rw [← decide_eq_true_iff (p := x = _), ← Float.isNaN_eq_decide_eq_nan]
  rfl

theorem le_iff : x ≤ y ↔ x.toModel.unpack.le y.toModel.unpack := decide_eq_true_iff

theorem lt_iff : x < y ↔ x.toModel.unpack.lt y.toModel.unpack := decide_eq_true_iff

theorem not_le_iff : ¬x ≤ y ↔ x = Float.nan ∨ y = Float.nan ∨ y < x := by
  rw [le_iff, CnfSimp.not_le_iff, eq_nan_iff, eq_nan_iff, lt_iff]

theorem isFinite_of_lt_of_lt (h : x < y) (h' : y < z) : y.isFinite :=
  CnfSimp.isFinite_of_lt_of_lt (lt_iff.1 h) (lt_iff.1 h')

/-- A finite number is not a NaN. -/
theorem ne_nan_of_isFinite (h : x.isFinite) : x ≠ Float.nan := by
  rintro rfl
  cases h

end Float

/-! ## Ranges -/

/-- Two checks are passed if both are. -/
theorem checks_eq_ok_iff {ε : Type} {x y : Except ε Unit} : (x >>= fun _ => y) = .ok () ↔ x = .ok () ∧ y = .ok () := by
  rw [bind_eq_ok_iff]
  exact ⟨fun ⟨_, h⟩ => h, fun h => ⟨(), h⟩⟩

theorem checkInt_eq_ok_iff {name : String} {i low high : Int} :
    checkInt name i low high = .ok () ↔ low ≤ i ∧ i ≤ high := by
  unfold checkInt
  constructor
  · intro h
    split at h
    · cases h
    · split at h
      · cases h
      · omega
  · rintro ⟨hlow, hhigh⟩
    rw [if_neg (by omega), if_neg (by omega)]

/-- A range of reals has open ends, and NaNs pass. -/
theorem checkReal_eq_ok_iff {name : String} {x low high : Float} (hlow : low ≠ Float.nan) (hhigh : high ≠ Float.nan) :
    checkReal name x low high = .ok () ↔ x = Float.nan ∨ low < x ∧ x < high := by
  have hupper : ¬high ≤ x ↔ x = Float.nan ∨ x < high := by rw [Float.not_le_iff, or_iff_right hhigh]
  have hlower : ¬x ≤ low ↔ x = Float.nan ∨ low < x := by rw [Float.not_le_iff, or_iff_right hlow]
  have hok : checkReal name x low high = .ok () ↔ ¬high ≤ x ∧ ¬x ≤ low := by
    unfold checkReal
    split
    · simp [*]
    · split <;> simp [*]
  rw [hok, hupper, hlower, ← or_and_left, and_comm]

/-- The options of the restart triggers are accepted if the integers lie in their ranges and the rate is between 0 and
10 or a NaN. -/
theorem RestartOptions.validate_eq_ok_iff {o : RestartOptions} : o.validate = .ok () ↔
    (1 ≤ o.fastWindow ∧ o.fastWindow ≤ maxInt32) ∧ (1 ≤ o.slowWindow ∧ o.slowWindow ≤ maxInt32) ∧
      (o.rate = Float.nan ∨ 0 < o.rate ∧ o.rate < 10) ∧ (1 ≤ o.lubyFactor ∧ o.lubyFactor ≤ maxInt32) ∧
      (0 ≤ o.lubyLimit ∧ o.lubyLimit ≤ 0x7FFFFFFFFFFFFFFF) := by
  have hrate : checkReal "lbd-rate" o.rate 0 10 = .ok () ↔ o.rate = Float.nan ∨ 0 < o.rate ∧ o.rate < 10 :=
    checkReal_eq_ok_iff (by decide) (by decide)
  unfold RestartOptions.validate
  simp only [checks_eq_ok_iff, checkInt_eq_ok_iff, hrate]

end CnfSimp
