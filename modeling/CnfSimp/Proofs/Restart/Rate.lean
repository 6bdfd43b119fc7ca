import CnfSimp.Proofs.Options
import CnfSimp.Restart.Trigger

/-!
# The rate of the averages

* `Comparable`, `comparable_iff`: comparing the two averages means something exactly under a finite rate.
* `LbdRestart.due_of_nan`: under a NaN no restart is ever due.
* `restart_options_accepted_iff`: the options that are accepted, and which of them set a rate that is none.
-/

namespace CnfSimp

/-! ## Products -/

section Products

open Float.Model (UnpackedFloat Format)
open Float.Model.UnpackedFloat (pack unpack unpackExponent unpackMantissa packedInfinity mul roundWithAccuracy)

variable {spec : Format} {a b : UnpackedFloat}

theorem isNaN_unpack (v : BitVec spec.numBits) :
    (unpack spec v).isNaN ↔ unpackExponent v = -1#_ ∧ unpackMantissa v ≠ 0#_ := by
  unfold unpack
  dsimp only
  split
  · split <;> simp [UnpackedFloat.isNaN, *]
  · next hexp =>
    split
    · split <;> simp [UnpackedFloat.isNaN, hexp]
    · simp [UnpackedFloat.isNaN, hexp]

/-- Packing a number makes no NaN of it, also if its exponent is too large. -/
theorem isNaN_unpack_pack : (unpack spec (pack spec a)).isNaN ↔ a.isNaN := by
  cases a with
  | notANumber => simp [pack]
  | zero s => simp [pack]
  | infinity s =>
    rw [isNaN_unpack]
    simp [pack, packedInfinity]
  | finite s m e h =>
    rw [isNaN_unpack]
    unfold pack
    dsimp only
    generalize (e + spec.exponentBias + spec.mantissaBitsWithoutImplicit).toNat = exponent
    split
    · simp [packedInfinity]
    · next hexp =>
      have hne : BitVec.ofNat spec.exponentBits exponent ≠ -1#_ := by
        rw [BitVec.neg_one_eq_allOnes, Ne, ← BitVec.toNat_inj, BitVec.toNat_ofNat, BitVec.toNat_allOnes,
          Nat.mod_eq_of_lt (by omega)]
        omega
      split
      · simp [hne]
      · simp [Nat.pos_iff_ne_zero.1 spec.he]

/-- The product of finite numbers is a number. -/
theorem isNaN_mul_of_isFinite (ha : a.isFinite) (hb : b.isFinite) : ¬(mul spec a b).isNaN := by
  cases a with
  | notANumber => cases ha
  | infinity s => cases ha
  | zero s =>
    cases b with
    | notANumber => cases hb
    | infinity t => cases hb
    | zero t => exact Bool.false_ne_true
    | finite t m e _ => exact Bool.false_ne_true
  | finite s m e _ =>
    cases b with
    | notANumber => cases hb
    | infinity t => cases hb
    | zero t => exact Bool.false_ne_true
    | finite t m' e' _ =>
      rw [mul, roundWithAccuracy]
      dsimp only
      split <;> exact Bool.false_ne_true

/-- Scaling by what is not finite makes a NaN of zero. -/
theorem isNaN_mul_zero (ha : ¬a.isFinite) (s : UnpackedFloat.Sign) : (mul spec a (.zero s)).isNaN := by
  cases a with
  | notANumber => rfl
  | infinity t => rfl
  | zero t => exact absurd rfl ha
  | finite t m e _ => exact absurd rfl ha

end Products

namespace Float

variable {x y : Float}

theorem mul_eq_nan_iff :
    x * y = Float.nan ↔ (Float.Model.UnpackedFloat.mul .binary64 x.toModel.unpack y.toModel.unpack).isNaN :=
  eq_nan_iff.trans isNaN_unpack_pack

theorem mul_ne_nan (hx : x.isFinite) (hy : y.isFinite) : x * y ≠ Float.nan := fun h =>
  isNaN_mul_of_isFinite hx hy (mul_eq_nan_iff.1 h)

theorem mul_zero_eq_nan (hx : ¬x.isFinite) : x * 0 = Float.nan := mul_eq_nan_iff.2 (isNaN_mul_zero hx .positive)

theorem nan_mul (y : Float) : Float.nan * y = Float.nan := mul_eq_nan_iff.2 rfl

/-- What is above zero differs from it, and so does a NaN. -/
theorem bne_zero (h : x = Float.nan ∨ 0 < x) : x != 0 := by
  show (!(x == 0)) = true
  cases heq : x == 0 with
  | false => rfl
  | true =>
    obtain ⟨hnan, _, hzero⟩ := Float.beq_iff_ne_nan_and_eq.1 heq
    have hlt := h.resolve_left hnan
    rcases hzero with rfl | ⟨rfl, _⟩ | ⟨rfl, _⟩ <;> exact absurd hlt (by decide)

end Float

/-! ## Rates -/

/-- Whatever finite average is scaled by the rate, another average is either below it or at least as large. -/
def Comparable (rate : Float) : Prop :=
  ∀ slow fast : Float, slow.isFinite → fast ≠ Float.nan → rate * slow ≤ fast ∨ fast < rate * slow

/-- Exactly finite rates are comparable. -/
theorem comparable_iff {rate : Float} : Comparable rate ↔ rate.isFinite := by
  refine ⟨fun h => ?_, fun h slow fast hslow hfast => ?_⟩
  · by_contra hrate
    have hnan := Float.mul_zero_eq_nan hrate
    rcases h 0 0 (by decide) (by decide) with hle | hlt
    · rw [hnan] at hle
      exact Float.not_le_iff.2 (Or.inl rfl) hle
    · rw [hnan] at hlt
      exact absurd hlt (by decide)
  · by_cases hle : rate * slow ≤ fast
    · exact Or.inl hle
    · rcases Float.not_le_iff.1 hle with hnan | hnan | hlt
      · exact absurd hnan (Float.mul_ne_nan h hslow)
      · exact absurd hnan hfast
      · exact Or.inr hlt

namespace LbdRestart

variable {r : LbdRestart}

/-- Samples leave the rate alone. -/
theorem rate_foldl_update (r : LbdRestart) (samples : List Float) : (samples.foldl update r).rate = r.rate := by
  induction samples generalizing r with
  | nil => rfl
  | cons x samples ih => exact ih (r.update x)

/-- Under a NaN no restart is due, whatever the samples are. -/
theorem due_of_nan (h : r.rate = Float.nan) (samples : List Float) : (samples.foldl update r).due = false := by
  unfold due
  rw [rate_foldl_update, h, Float.nan_mul]
  exact decide_eq_false (Float.not_le_iff.2 (Or.inl rfl))

end LbdRestart

/-- The averages start anew where the rate is not zero and the windows are not empty. -/
theorem LbdRestart.reset_ok {r : LbdRestart} (hrate : r.rate != 0) (hfast : 0 < r.fastWindow)
    (hslow : 0 < r.slowWindow) : r.reset = .ok r.restarted := by
  refine if_pos ?_
  simp only [hrate, hfast, hslow, decide_true, Bool.and_self]

section Options

variable {o : RestartOptions}

/-- Options within their ranges pass the checks of both kinds of triggers. -/
theorem RestartOptions.checks_ok (h : o.validate = .ok ()) :
    o.rate != 0 ∧ 0 < o.fastWindow.toNat ∧ 0 < o.slowWindow.toNat ∧ 0 < o.lubyFactor := by
  obtain ⟨⟨hfast, _⟩, ⟨hslow, _⟩, hrate, ⟨hfactor, _⟩, _⟩ := RestartOptions.validate_eq_ok_iff.1 h
  exact ⟨Float.bne_zero (hrate.imp_right And.left), by omega, by omega, by omega⟩

/-- Options within their ranges have a trigger, with the rate and the windows that they set. -/
theorem Restarts.ofOptions_averages {r : LbdRestart} (h : ofOptions o = .ok (.averages r)) :
    o.validate = .ok () ∧ r = (LbdRestart.idle.init o.rate o.fastWindow.toNat o.slowWindow.toNat).restarted := by
  obtain ⟨_, hvalid, h⟩ := bind_eq_ok_iff.1 h
  have hvalid := mapError_eq_ok_iff.1 hvalid
  obtain ⟨hrate, hfast, hslow, _⟩ := RestartOptions.checks_ok hvalid
  refine ⟨hvalid, ?_⟩
  cases hpolicy : o.policy with
  | averages =>
    rw [hpolicy] at h
    obtain ⟨r', hreset, h⟩ := bind_eq_ok_iff.1 h
    cases h
    exact Except.ok.inj ((mapError_eq_ok_iff.1 hreset).symm.trans (LbdRestart.reset_ok hrate hfast hslow))
  | luby =>
    rw [hpolicy] at h
    obtain ⟨r', _, h⟩ := bind_eq_ok_iff.1 h
    cases h

/-- A trigger is made for exactly the options within their ranges. -/
theorem Restarts.exists_ofOptions_iff : (∃ r, ofOptions o = .ok r) ↔ o.validate = .ok () := by
  constructor
  · rintro ⟨r, h⟩
    exact mapError_eq_ok_iff.1 (bind_eq_ok_iff.1 h).choose_spec.1
  · intro h
    obtain ⟨hrate, hfast, hslow, hfactor⟩ := RestartOptions.checks_ok h
    cases hpolicy : o.policy with
    | averages =>
      refine ⟨.averages (LbdRestart.idle.init o.rate o.fastWindow.toNat o.slowWindow.toNat).restarted,
        bind_eq_ok_iff.2 ⟨(), mapError_eq_ok_iff.2 h, ?_⟩⟩
      rw [hpolicy]
      exact bind_eq_ok_iff.2 ⟨_, mapError_eq_ok_iff.2 (LbdRestart.reset_ok hrate hfast hslow), rfl⟩
    | luby =>
      refine ⟨.luby (.start o.lubyFactor o.lubyLimit), bind_eq_ok_iff.2 ⟨(), mapError_eq_ok_iff.2 h, ?_⟩⟩
      rw [hpolicy]
      exact bind_eq_ok_iff.2 ⟨_, mapError_eq_ok_iff.2 (if_pos hfactor), rfl⟩

end Options

/-- **Accepted options.** The options of the restart triggers are accepted, and a trigger is made for them, exactly if
the integers lie in their ranges and the rate is between 0 and 10 or a NaN. The check of the trigger before its first
use is passed in both cases. A rate between 0 and 10 is comparable; a NaN is not, and no restart is ever due under
it. -/
theorem restart_options_accepted_iff (o : RestartOptions) :
    (o.validate = .ok () ↔
      (1 ≤ o.fastWindow ∧ o.fastWindow ≤ maxInt32) ∧ (1 ≤ o.slowWindow ∧ o.slowWindow ≤ maxInt32) ∧
        (o.rate = Float.nan ∨ 0 < o.rate ∧ o.rate < 10) ∧ (1 ≤ o.lubyFactor ∧ o.lubyFactor ≤ maxInt32) ∧
        (0 ≤ o.lubyLimit ∧ o.lubyLimit ≤ 0x7FFFFFFFFFFFFFFF)) ∧
      ((∃ r, Restarts.ofOptions o = .ok r) ↔ o.validate = .ok ()) ∧
      ∀ r, Restarts.ofOptions o = .ok (.averages r) →
        (∃ r', r.reset = .ok r') ∧ (Comparable r.rate ↔ 0 < o.rate ∧ o.rate < 10) ∧
        (o.rate = Float.nan → ∀ samples : List Float, (samples.foldl LbdRestart.update r).due = false) := by
  refine ⟨RestartOptions.validate_eq_ok_iff, Restarts.exists_ofOptions_iff, fun r hr => ?_⟩
  obtain ⟨hvalid, rfl⟩ := Restarts.ofOptions_averages hr
  obtain ⟨_, _, hrange, _⟩ := RestartOptions.validate_eq_ok_iff.1 hvalid
  obtain ⟨hrate, hfast, hslow, _⟩ := RestartOptions.checks_ok hvalid
  refine ⟨⟨_, LbdRestart.reset_ok hrate hfast hslow⟩, ?_, fun hnan => LbdRestart.due_of_nan hnan⟩
  show Comparable o.rate ↔ _
  rw [comparable_iff]
  refine ⟨fun h => hrange.resolve_left (Float.ne_nan_of_isFinite h), fun ⟨hlow, hhigh⟩ => ?_⟩
  exact Float.isFinite_of_lt_of_lt hlow hhigh

/-- The default options, and the same with a rate that is none. -/
theorem restart_options_accepted_iff_nan :
    (∃ r, Restarts.ofOptions {} = .ok (.averages r) ∧ Comparable r.rate) ∧
      ∃ r, Restarts.ofOptions { rate := Float.nan } = .ok (.averages r) ∧ ¬Comparable r.rate ∧
        ∀ samples : List Float, (samples.foldl LbdRestart.update r).due = false := by
  have hok : ∃ r, Restarts.ofOptions {} = .ok (.averages r) := ⟨_, rfl⟩
  have hnan : ∃ r, Restarts.ofOptions { rate := Float.nan } = .ok (.averages r) := ⟨_, rfl⟩
  obtain ⟨r, hr⟩ := hok
  obtain ⟨r', hr'⟩ := hnan
  refine ⟨⟨r, hr, ?_⟩, r', hr', ?_, ?_⟩
  · exact ((restart_options_accepted_iff _).2.2 r hr).2.1.2 ⟨by decide, by decide⟩
  · intro h
    exact absurd (((restart_options_accepted_iff _).2.2 r' hr').2.1.1 h).1 (by decide)
  · exact ((restart_options_accepted_iff _).2.2 r' hr').2.2 rfl

/-- A rate that is no number is accepted. -/
theorem nan_rate_accepted :
    RestartOptions.validate { rate := Float.nan } = .ok () ∧ ¬(0 < Float.nan ∧ Float.nan < 10) := by
  decide

end CnfSimp
