import CnfSimp.Proofs.Restart.Luby

/-!
# Luby restarts with a limit

A trigger with a limit starts the sequence over as soon as the next term has reached it. The terms are powers of two, so
the first one to do so is the least power of two that is not below the limit, and it ends a block.

* `LubyRestart.path_v_le`: in front of the end of a block there is no term above the half of its last one.
* `LubyRestart.after_period`: after all terms of the block but the last one the trigger is as it was at the start, and
  so it goes through the same states again and again (`LubyRestart.after_mod`).
* `next_periodic`: the terms of a trigger with a limit.
-/

namespace CnfSimp

namespace LubyRestart

variable {r : LubyRestart} {k m : Nat}

/-- A block has terms in front of its last one. -/
theorem period_pos (k : Nat) : 0 < 2 ^ (k + 1 + 1) - 2 := by
  have hpos := Nat.two_pow_pos k
  rw [Nat.pow_succ, Nat.pow_succ]
  omega

theorem reset_of_start (hu : r.u = 1) (hv : r.v = 1) : r.reset = r := by
  cases r
  cases hu
  cases hv
  rfl

theorem reset_path (r : LubyRestart) (m : Nat) : (r.path m).reset = r.reset := by
  rw [path_eq]
  rfl

section Limit

variable (hu : r.u = 1) (hv : r.v = 1)
include hu hv

/-- The terms between the first one and the end of a block are those of the block before, twice. -/
theorem path_v_le (hm : m < 2 ^ (k + 1 + 1) - 2) : (r.path m).v ≤ 2 ^ k := by
  have hblock : r.Block k := block_all hu hv k
  rcases Nat.lt_or_ge m (2 ^ (k + 1) - 1) with hlt | hge
  · exact (hblock.le m hlt).2
  · obtain ⟨i, rfl⟩ := Nat.exists_eq_add_of_le hge
    have hi : i < 2 ^ (k + 1) - 1 := by
      rw [Nat.pow_succ _ (k + 1)] at hm
      omega
    rw [(hblock.again hu hv hi).v]
    exact (hblock.le i hi).2

variable (hlow : (2 ^ k : Nat) < r.limit) (hhigh : r.limit ≤ (2 ^ (k + 1) : Nat))

include hlow in
theorem limitReached_path_of_lt (hm : m < 2 ^ (k + 1 + 1) - 2) : (r.path m).limitReached = false := by
  have hle := path_v_le hu hv hm
  have hlt : ((r.path m).v : Int) < r.limit := Int.lt_of_le_of_lt (Int.ofNat_le.2 hle) hlow
  rw [limitReached, limit_path, decide_eq_false (Int.not_le.2 hlt), Bool.and_false]

include hlow in
/-- The trigger is not reset in front of the last term of the block. -/
theorem after_eq_path_of_lt (hm : m < 2 ^ (k + 1 + 1) - 2) : r.after m = r.path m :=
  after_eq_path fun i hi => limitReached_path_of_lt hu hv hlow (by omega)

include hhigh in
theorem limitReached_path_period (hlow : 0 < r.limit) : (r.path (2 ^ (k + 1 + 1) - 2)).limitReached = true := by
  have hlast := (block_all hu hv (k + 1)).last.2
  rw [limitReached, limit_path, hlast, decide_eq_true hlow, decide_eq_true hhigh, Bool.and_true]

include hlow hhigh

/-- In front of the last term of the block the trigger is reset. -/
theorem after_period : r.after (2 ^ (k + 1 + 1) - 2) = r := by
  obtain ⟨p, hp⟩ := Nat.exists_eq_succ_of_ne_zero (period_pos k).ne'
  have hreached := limitReached_path_period hu hv hhigh (by omega)
  rw [hp, path_succ] at hreached
  rw [hp, after, Function.iterate_succ_apply', ← after, after_eq_path_of_lt hu hv hlow (by omega)]
  show (if (r.path p).advance.limitReached then (r.path p).advance.reset else _) = r
  rw [if_pos hreached, ← path_succ, reset_path, reset_of_start hu hv]

/-- The states of the trigger recur. -/
theorem after_mod (m : Nat) : r.after (m % (2 ^ (k + 1 + 1) - 2)) = r.after m :=
  Function.IsPeriodicPt.iterate_mod_apply (after_period hu hv hlow hhigh) m

/-- Every state is one of the block in front of its last term. -/
theorem after_eq_path_mod (m : Nat) : r.after m = r.path (m % (2 ^ (k + 1 + 1) - 2)) := by
  rw [← after_mod hu hv hlow hhigh, after_eq_path_of_lt hu hv hlow (Nat.mod_lt m (period_pos k))]

end Limit

end LubyRestart

open LubyRestart in
/-- Let `2 ^ j` be the least power of two that is not below a limit. A trigger with this limit gives the first
`2 ^ (j + 1) - 2` terms of the sequence again and again. All of them are below the limit, and in front of none of them
the limit has been reached. The numbers that the trigger keeps do not exceed `2 ^ 62`, also before it is reset. -/
theorem next_periodic {factor limit : Int} {j : Nat} (hf : 0 < factor) (h2 : 2 ≤ limit) (h62 : limit ≤ 2 ^ 62)
    (hj : limit ≤ 2 ^ j) (hleast : ∀ i : Nat, limit ≤ 2 ^ i → j ≤ i) :
    ∃ r, init factor limit = .ok r ∧
      (∀ i, 1 ≤ i → lubyTerm ((i - 1) % (2 ^ (j + 1) - 2) + 1) = .ok (r.after (i - 1)).next.1 ∧
        ((r.after (i - 1)).next.1 : Int) < limit) ∧
      ∀ i, (r.after i).limitReached = false ∧ (r.after i).advance.u ≤ 2 ^ 62 ∧ (r.after i).advance.v ≤ 2 ^ 62 := by
  have hle : j ≤ 62 := hleast 62 h62
  obtain ⟨k, rfl⟩ : ∃ k, j = k + 1 := by
    cases j with
    | zero => omega
    | succ k => exact ⟨k, rfl⟩
  have hlow : ((2 ^ k : Nat) : Int) < limit := by
    by_contra hk
    have := hleast k (by push_cast at hk; omega)
    omega
  have hhigh : limit ≤ ((2 ^ (k + 1) : Nat) : Int) := by
    push_cast
    exact hj
  have hpow : 2 ^ (k + 1 + 1) = 2 * 2 ^ (k + 1) := Nat.pow_succ'
  have hpow62 : 2 ^ (k + 1) ≤ 2 ^ 62 := Nat.pow_le_pow_right (by decide) hle
  have hblock : (start factor limit).Block (k + 1) := block_all rfl rfl (k + 1)
  have hafter := after_eq_path_mod (r := start factor limit) rfl rfl hlow hhigh
  refine ⟨start factor limit, if_pos hf, fun i hi => ?_, fun i => ?_⟩
  · have hm : (i - 1) % (2 ^ (k + 1 + 1) - 2) < 2 ^ (k + 1 + 1) - 2 := Nat.mod_lt _ (period_pos k)
    rw [hafter]
    show lubyTerm _ = .ok ((start factor limit).path _).v ∧ (((start factor limit).path _).v : Int) < limit
    rw [hblock.term _ (by omega)]
    refine ⟨lubyTerm_ok (Nat.succ_ne_zero _) (by omega), ?_⟩
    rw [← hblock.term _ (by omega)]
    exact Int.lt_of_le_of_lt (Int.ofNat_le.2 (path_v_le rfl rfl hm)) hlow
  · have hm : i % (2 ^ (k + 1 + 1) - 2) < 2 ^ (k + 1 + 1) - 2 := Nat.mod_lt _ (period_pos k)
    have hnext := hblock.le (i % (2 ^ (k + 1 + 1) - 2) + 1) (by omega)
    rw [path_succ] at hnext
    rw [hafter]
    exact ⟨limitReached_path_of_lt rfl rfl hlow hm, by omega, by omega⟩

/-- With the limit 5 the first 14 terms recur, and call 21 gives term 7. -/
theorem next_periodic_limit_five : ∃ r, LubyRestart.init 100 5 = .ok r ∧ (r.after 20).next.1 = 4 ∧
    (r.after 21).limitReached = false := by
  have hleast (i : Nat) (hi : (5 : Int) ≤ 2 ^ i) : 3 ≤ i := by
    by_contra hlt
    have hsmall : i = 0 ∨ i = 1 ∨ i = 2 := by omega
    rcases hsmall with rfl | rfl | rfl <;> revert hi <;> decide
  have hfactor : (0 : Int) < 100 := by decide
  obtain ⟨r, hinit, hterms, hnever⟩ := next_periodic hfactor (by decide) (by decide) (by decide) hleast
  have hterm := (hterms 21 (by decide)).1
  have hseven : lubyTerm 7 = .ok 4 := (lubyTerm_ok (by decide) (by decide)).trans (congrArg Except.ok (luby_top 2))
  exact ⟨r, hinit, Except.ok.inj (hterm.symm.trans hseven), (hnever 21).1⟩

end CnfSimp
