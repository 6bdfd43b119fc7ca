import CnfSimp.Proofs.Simplifier.Dimacs

/-!
# Which simplifications answer

* `Simplifier.Rounds`: the states in which the rounds of a phase begin. Each has fewer literals than the one before
  (`Simplifier.phase_rounds`).
* `Simplifier.Simplifiable`: the clauses and options that a simplification is for.
* `run_answers_iff`: a run over such clauses answers after a bounded number of rounds, or else the list of unit literals
  was full. The latter occurs only for the two greatest numbers of variables, where the capacity of that list wraps
  around (`Simplifier.units_le_capacity`).
-/

namespace CnfSimp

namespace Arena

variable {a : Arena} {f g : List Lit → Nat} {n : Nat}

theorem total_mono (h : ∀ c, f c ≤ g c) (a : Arena) : a.total f ≤ a.total g := by
  unfold total
  induction a.bodies with
  | nil => exact Nat.le_refl _
  | cons c cs ih =>
    rw [List.map_cons, List.map_cons, List.sum_cons, List.sum_cons]
    exact Nat.add_le_add (h c) ih

theorem mass_le_two_mul (a : Arena) : a.mass ≤ 2 * a.bodies.length := by
  refine Nat.le_trans (total_mono weight_le_two a) (Nat.le_of_eq ?_)
  simp [total, Nat.mul_comm]

theorem slack_le_volume (a : Arena) : a.slack ≤ volume a.bodies := by
  refine total_mono (fun c => ?_) a
  have := Nat.mul_le_mul_right c.length (Nat.sub_le_sub_right (weight_le_two c) 1)
  omega

theorem bulk_le_two_mul (a : Arena) : a.bulk ≤ 2 * volume a.bodies := by
  have := a.bulk_eq
  have := a.slack_le_volume
  omega

/-- There are no more variables than literals. -/
theorem spread_le_add (a : Arena) (n : Nat) : a.spread n ≤ volume a.bodies + a.bodies.length := by
  have hoccurs : ((List.range n).map fun x => (a.occurs x).toNat).sum ≤ volume a.bodies := by
    have hcount (xs : List Nat) : (xs.map fun x => (a.occurs x).toNat).sum = (xs.filter a.occurs).length := by
      induction xs with
      | nil => rfl
      | cons x xs ih =>
        rw [List.map_cons, List.sum_cons, ih, List.filter_cons]
        cases a.occurs x with
        | false => simp
        | true => simp [Nat.add_comm]
    have hsub : (List.range n).filter a.occurs ⊆ a.bodies.flatten.map Lit.var := fun x hx => by
      obtain ⟨c, hc, l, hl, hv⟩ := occurs_iff.1 (List.mem_filter.1 hx).2
      exact List.mem_map.2 ⟨l, List.mem_flatten.2 ⟨c, hc, hl⟩, hv⟩
    have hle := (List.subperm_of_subset (List.nodup_range.filter _) hsub).length_le
    rw [List.length_map, List.length_flatten] at hle
    rw [hcount]
    exact hle
  have hweight : a.total (fun c => weight c - 1) ≤ a.bodies.length := by
    refine Nat.le_trans (total_mono (fun c => Nat.sub_le_sub_right (weight_le_two c) 1) a) (Nat.le_of_eq ?_)
    simp [total]
  exact Nat.add_le_add hoccurs hweight

end Arena

/-! ## Rounds of a phase -/

namespace Simplifier

variable {E : Fault → Prop} {s t u : Simplifier} {a : Arena} {o : Options} {starts : List Simplifier} {ran : Bool}
  {clauses : List (List Int)} {n k : Nat}

/-- The states in which the rounds of a phase begin. -/
inductive Rounds : Simplifier → List Simplifier → Bool → Simplifier → Prop
  | last {s t : Simplifier} {ran : Bool} : s.roundAndCompact = .ok (ran, t) → Rounds s [s] ran t
  | again {s t u : Simplifier} {ran : Bool} {starts : List Simplifier} :
      s.roundAndCompact = .ok (true, t) → Rounds t starts ran u → Rounds s (s :: starts) ran u

/-- Every round of a phase begins with fewer literals than the one before. -/
theorem phase_rounds (hn : n ≤ 2 ^ 31) (h : s.Wf n) (hc : s.Counted) (hrun : s.phase = .ok (ran, t)) :
    ∃ starts, Rounds s starts ran t ∧
      starts.Pairwise fun s t => volume t.arena.bodies < volume s.arena.bodies := by
  suffices hall : ∃ starts, Rounds s starts ran t ∧
      (starts.Pairwise fun s t => volume t.arena.bodies < volume s.arena.bodies) ∧
      ∀ u ∈ starts, volume u.arena.bodies ≤ volume s.arena.bodies from
    hall.imp fun _ ⟨hrounds, hdesc, _⟩ => ⟨hrounds, hdesc⟩
  fun_induction phase s with
  | case1 s f hround => cases hrun
  | case2 s t' hround =>
    cases hrun
    exact ⟨[s], .last hround, List.pairwise_singleton _ _, by simp⟩
  | case3 s t' hround hstop =>
    cases hrun
    exact ⟨[s], .last hround, List.pairwise_singleton _ _, by simp⟩
  | case4 s t' hround hagain ih =>
    obtain ⟨hrefines, hcounted, _⟩ := (roundAndCompact_ends (E := fun _ => True) hn (Or.inl fun _ => trivial)
      (Or.inl fun _ => trivial) h hc).of_ok hround
    have hless := hc.volume_lt hcounted hagain
    obtain ⟨starts, hrounds, hdesc, hle⟩ := ih hrefines.wf hcounted hrun
    refine ⟨s :: starts, .again hround hrounds, List.pairwise_cons.2 ⟨fun u hu => ?_, hdesc⟩, fun u hu => ?_⟩
    · exact Nat.lt_of_le_of_lt (hle u hu) hless
    · rcases List.mem_cons.1 hu with rfl | hu
      · exact Nat.le_refl _
      · exact Nat.le_of_lt (Nat.lt_of_le_of_lt (hle u hu) hless)

/-! ## Inputs -/

/-- The inputs of a simplification over the first `n` variables. -/
structure Simplifiable (n : Nat) (o : Options) (clauses : List (List Int)) : Prop where
  validate : o.validate = .ok ()
  length : clauses.length < 2 ^ 30
  lits : (clauses.map List.length).sum < 2 ^ 30
  vars : ∀ c ∈ clauses, ∀ i ∈ c, IsLit n i

/-- Options that are in range ask for so many phases at most. -/
theorem phases_lt (h : o.validate = .ok ()) : o.phases.toNat < 2 ^ 31 := by
  simp only [Options.validate, checks_eq_ok_iff, checkInt_eq_ok_iff, maxInt32] at h
  obtain ⟨_, _, hphases, _⟩ := h
  omega

/-- Over such inputs no counter but that of the unit literals can overflow. -/
theorem Simplifiable.fits (h : Simplifiable n o clauses) (hb : a.bodies = clauses.map clauseOfInts) :
    (start o a n).Fits n ∧ (start o a n).Lasts o.phases.toNat ∧ a.bulk ≤ 2 * (clauses.map List.length).sum := by
  have hclauses : a.bodies.length = clauses.length := by rw [hb, List.length_map]
  have hlits : volume a.bodies ≤ (clauses.map List.length).sum := hb ▸ sum_length_clauseOfInts_le clauses
  have hmass := a.mass_le_two_mul
  have hbulk := a.bulk_le_two_mul
  have hspread := a.spread_le_add n
  have hlength := h.length
  have hsum := h.lits
  have hphases := phases_lt h.validate
  refine ⟨⟨?_, ?_, ?_, ?_⟩, ⟨?_, ?_⟩, by omega⟩
  · show 2 * a.mass < _
    omega
  · show 0 + a.bulk < _
    omega
  · show 0 + a.mass < _
    omega
  · show 0 + a.spread n < _
    omega
  · show 0 + a.bulk + o.phases.toNat < _
    omega
  · show 0 + a.bulk + o.phases.toNat < _
    omega

/-- A run over such inputs. -/
theorem Simplifiable.run_ends (h : Simplifiable n o clauses) (hn : n ≤ 2 ^ 31)
    (hE : E .unitListOverflow ∨ n < 2 ^ 31 - 1) :
    ∃ a, Arena.ofDimacs clauses = .ok a ∧ ofArena o a n = .ok (start o a n) ∧ (start o a n).Wf n ∧
      a.bodies = clauses.map clauseOfInts ∧ Ends E (start o a n).run fun t => t.Wf n ∧
        t.report.rounds ≤ o.phases.toNat + 2 * (clauses.map List.length).sum := by
  have hlength := h.length
  have hsum := h.lits
  obtain ⟨a, ha, hwf, hord, hwithin, hbodies⟩ := (Arena.ofDimacs_ends (E := fun _ => False) hn h.vars
    (Or.inr ⟨by omega, by omega⟩)).exists_ok fun _ => id
  obtain ⟨hfits, hlasts, hbulk⟩ := h.fits hbodies
  have hphases := phases_lt h.validate
  have hstart := wf_start hwf hord hwithin o
  refine ⟨a, ha, ofArena_ok hwf hwithin o, hstart, hbodies, ?_⟩
  have hroom : 0 + o.phases.toNat < 2 ^ 32 := by omega
  have hrun := Simplifier.run_ends hn (Or.inr ⟨hE, hfits⟩) rfl (Or.inr ⟨hlasts, hroom, hroom⟩) hstart
  refine hrun.imp fun t hfin => ⟨hfin.wf, ?_⟩
  have hrounds : t.report.rounds + t.arena.bulk ≤ 0 + a.bulk + o.phases.toNat := hfin.rounds
  omega

/-- With room for every unit literal there is an answer. -/
theorem Simplifiable.answers (h : Simplifiable n o clauses) (hn : n < 2 ^ 31 - 1) :
    ∃ a s t, Arena.ofDimacs clauses = .ok a ∧ ofArena o a n = .ok s ∧ s.run = .ok t := by
  obtain ⟨a, ha, hs, _, _, hends⟩ := h.run_ends (E := fun _ => False) (by omega) (Or.inr hn)
  obtain ⟨t, ht, _⟩ := hends.exists_ok fun _ => id
  exact ⟨a, _, t, ha, hs, ht⟩

/-! ## Unit literals -/

/-- The capacity for unit literals wraps around for the two greatest numbers of variables. -/
theorem units_le_capacity (h : s.Wf n) (hn : n ≤ 2 ^ 31) (hge : 2 ^ 31 - 1 ≤ n) : s.work.units.contents.length ≤ 2 := by
  have hle := Bounded.length_contents_le h.work.units
  rw [h.sized.units] at hle
  have hcap : (UInt32.ofNat (litSlots n)).toNat = 2 * (n + 1) % 2 ^ 32 := rfl
  omega

/-- A run without phases finds the unit literal of every unit clause. -/
theorem units_of_run (hn : n ≤ 2 ^ 31) (hwf : s.Wf n) (hphases : s.options.phases.toNat = 0) (hrun : s.run = .ok t)
    {l : Lit} (hl : [l] ∈ s.arena.bodies) : l ∈ t.work.units.contents := by
  obtain ⟨u, a, w, hst⟩ := run_stages hn hwf hrun
  obtain ⟨s₁, hcount, hbefore⟩ := bind_eq_ok_iff.1 hst.before
  obtain ⟨tally, _, hs₁⟩ := bind_eq_ok_iff.1 hcount
  cases hs₁
  simp only [hphases, runPhases] at hbefore
  cases hbefore
  rw [hst.work]
  exact hst.units l hl

/-- Three unit clauses are too many where the capacity has wrapped around. -/
theorem three_units_fault (hn : n ≤ 2 ^ 31) (hge : 2 ^ 31 - 1 ≤ n) :
    Simplifiable n { phases := 0 } [[1], [2], [3]] ∧ ∃ a s, Arena.ofDimacs [[1], [2], [3]] = .ok a ∧
      ofArena { phases := 0 } a n = .ok s ∧ s.run = .error .unitListOverflow := by
  have h : Simplifiable n { phases := 0 } [[1], [2], [3]] := by
    refine ⟨rfl, by decide, by decide, fun c hc i hi => ?_⟩
    have hi : i = 1 ∨ i = 2 ∨ i = 3 := by
      simp only [List.mem_cons, List.not_mem_nil, or_false] at hc
      rcases hc with rfl | rfl | rfl <;> simp_all
    unfold IsLit
    omega
  obtain ⟨a, ha, hs, hwf, hbodies, hends⟩ := h.run_ends (E := (· = .unitListOverflow)) hn (Or.inl rfl)
  refine ⟨h, a, _, ha, hs, ?_⟩
  cases hrun : (start { phases := 0 } a n).run with
  | error f => exact congrArg Except.error (hends.of_error hrun)
  | ok t =>
    have hsub : [⟨0⟩, ⟨2⟩, ⟨4⟩] ⊆ t.work.units.contents := fun l hl => by
      refine units_of_run hn hwf rfl hrun ?_
      rw [show (start { phases := 0 } a n).arena.bodies = [[⟨0⟩], [⟨2⟩], [⟨4⟩]] from hbodies]
      simpa using hl
    have hlength : 3 ≤ t.work.units.contents.length := (List.subperm_of_subset (by decide) hsub).length_le
    have := units_le_capacity (hends.of_ok hrun).1 hn hge
    omega

end Simplifier

open Simplifier in
/-- Over clauses and options in range, a run answers, with at most one round for each phase and two for each literal of
the clauses, unless the list of unit literals is full. There are such clauses and options for which it is full if and
only if there are at least `2 ^ 31 - 1` variables. In every phase the rounds begin with fewer and fewer literals. -/
theorem run_answers_iff {n : Nat} (hn : n ≤ 2 ^ 31) :
    (∀ o clauses, Simplifiable n o clauses → ∃ a s, Arena.ofDimacs clauses = .ok a ∧ ofArena o a n = .ok s ∧
      ((∃ t, s.run = .ok t ∧ t.report.rounds ≤ o.phases.toNat + 2 * (clauses.map List.length).sum) ∨
        s.run = .error .unitListOverflow)) ∧
    ((∃ o clauses, Simplifiable n o clauses ∧ ∃ a s, Arena.ofDimacs clauses = .ok a ∧ ofArena o a n = .ok s ∧
      s.run = .error .unitListOverflow) ↔ 2 ^ 31 - 1 ≤ n) ∧
    ∀ s ran t, s.Wf n → s.Counted → s.phase = .ok (ran, t) → ∃ starts, Rounds s starts ran t ∧
      starts.Pairwise fun s t => volume t.arena.bodies < volume s.arena.bodies := by
  refine ⟨fun o clauses h => ?_, ⟨?_, fun hge => ⟨_, _, three_units_fault hn hge⟩⟩,
    fun s ran t h hc hrun => phase_rounds hn h hc hrun⟩
  · obtain ⟨a, ha, hs, _, _, hends⟩ := h.run_ends (E := (· = .unitListOverflow)) hn (Or.inl rfl)
    refine ⟨a, _, ha, hs, ?_⟩
    cases hrun : (start o a n).run with
    | ok t => exact Or.inl ⟨t, rfl, (hends.of_ok hrun).2⟩
    | error f => exact Or.inr (congrArg Except.error (hends.of_error hrun))
  · rintro ⟨o, clauses, h, a, s, ha, hs, hrun⟩
    refine Nat.le_of_not_lt fun hlt => ?_
    obtain ⟨a', ha', hs', _, _, hends⟩ := h.run_ends (E := fun _ => False) hn (Or.inr hlt)
    rw [ha', Except.ok.injEq] at ha
    subst ha
    rw [hs', Except.ok.injEq] at hs
    subst hs
    exact hends.of_error hrun

open Simplifier in
/-- Two clauses over three variables. -/
theorem run_answers_iff_two_clauses : ∃ a s t, Arena.ofDimacs [[1, 2], [-1, 3]] = .ok a ∧ ofArena {} a 3 = .ok s ∧
    s.run = .ok t ∧ t.report.rounds ≤ 10 := by
  have h : Simplifiable 3 {} [[1, 2], [-1, 3]] := ⟨rfl, by decide, by decide, by decide⟩
  have hall := run_answers_iff (show 3 ≤ 2 ^ 31 by decide)
  obtain ⟨a, s, ha, hs, hrun | hrun⟩ := hall.1 _ _ h
  · obtain ⟨t, ht, hrounds⟩ := hrun
    exact ⟨a, s, t, ha, hs, ht, hrounds⟩
  · exact absurd (hall.2.1.1 ⟨_, _, h, a, s, ha, hs, hrun⟩) (by decide)

open Simplifier in
/-- Three unit clauses over `2 ^ 31 - 1` variables. -/
theorem run_faults_on_units : Simplifiable (2 ^ 31 - 1) { phases := 0 } [[1], [2], [3]] ∧ ∃ a s,
    Arena.ofDimacs [[1], [2], [3]] = .ok a ∧ ofArena { phases := 0 } a (2 ^ 31 - 1) = .ok s ∧
      s.run = .error .unitListOverflow :=
  three_units_fault (by decide) (by decide)

end CnfSimp
