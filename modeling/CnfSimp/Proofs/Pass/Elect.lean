import CnfSimp.Pass.Elect
import CnfSimp.Proofs.Options
import CnfSimp.Proofs.Pass.Greedy
import CnfSimp.Proofs.Score
import CnfSimp.Proofs.Tally

/-!
# Electing variables

* `freezeAround_ok`: an elected variable freezes all that share a live clause with it. So the frozen variables are those
  that the elected ones meet (`Freezes`).
* `electFrom_ok`, `elect_ok`: the election is the greedy choice by the order of the scores.
* `elect_ends`: so no two elected variables share a live clause. None is elected twice.
* `elect_greedy`: the election with its bounds, which double with every phase and do not overflow.
-/

namespace CnfSimp

variable {E : Fault → Prop} {a : Arena} {t : Occurrences} {w : WorkingSet} {frozen : BitSet} {crefs : List Nat}
  {scores : List Score} {taken : List Nat} {n x y posLimit negLimit : Nat}

/-! ## Freezing -/

/-- Freezing the variables of the live ones of some clauses. -/
theorem freezeClauses_ok (ha : a.Readable) (ho : a.Below n) (hcap : frozen.capacity = n)
    (hcrefs : ∀ i ∈ crefs, i < a.len) :
    ∃ frozen', freezeClauses a frozen crefs = .ok frozen' ∧ frozen'.capacity = n ∧
      ∀ x, frozen'.mem x ↔ frozen.mem x ∨ ∃ i ∈ crefs, ∃ c, a.body i = some c ∧ ∃ l ∈ c, l.var = x := by
  unfold freezeClauses
  induction crefs generalizing frozen with
  | nil => exact ⟨frozen, rfl, hcap, by simp⟩
  | cons i crefs ih =>
    have hi := hcrefs i List.mem_cons_self
    have hrest := fun j hj => hcrefs j (List.mem_cons_of_mem _ hj)
    rw [List.foldlM_cons, Arena.clause_ok hi, ok_bind, ha.status.isLive_clauseAt hi, ok_bind]
    cases hal : a.alive i with
    | false =>
      obtain ⟨frozen', hrun, hcap', hmem⟩ := ih hcap hrest
      exact ⟨frozen', hrun, hcap', fun x => by simp [hmem, Arena.body_eq_none_iff.2 hal]⟩
    | true =>
      have hb := Arena.body_eq_some_iff.2 ⟨hal, rfl⟩
      obtain ⟨frozen₁, hrun₁, hcap₁, hmem₁⟩ :=
        BitSet.insertVars_ok (s := frozen) fun l hl => hcap.symm ▸ ho _ (Arena.mem_bodies.2 ⟨i, hb⟩) l hl
      obtain ⟨frozen', hrun, hcap', hmem⟩ := ih (hcap₁.trans hcap) hrest
      rw [if_pos rfl, ha.lits_clauseAt hal, ok_bind, hrun₁]
      exact ⟨frozen', hrun, hcap', fun x => by simp [hmem, hmem₁, hb, or_assoc]⟩

namespace Occurrences.Exact

variable (ht : t.Exact a)
include ht

/-- The variables of the clauses listed for a literal. -/
theorem exists_listed_iff (l : Lit) (y : Nat) :
    (∃ i ∈ t.listAt l.index, ∃ c, a.body i = some c ∧ ∃ k ∈ c, k.var = y) ↔
      ∃ c ∈ a.bodies, l ∈ c ∧ ∃ k ∈ c, k.var = y := by
  simp only [ht.listAt_index, Arena.mem_slotsWith, Arena.mem_bodies]
  constructor
  · rintro ⟨i, ⟨c, hc, hl⟩, d, hd, hk⟩
    rw [hc, Option.some.injEq] at hd
    exact ⟨c, ⟨i, hc⟩, hl, hd ▸ hk⟩
  · rintro ⟨c, ⟨i, hc⟩, hl, hk⟩
    exact ⟨i, ⟨c, hc, hl⟩, c, hc, hk⟩

end Occurrences.Exact

/-- The frozen variables are those taken and those that share a live clause with one of them. -/
def Freezes (a : Arena) (frozen : BitSet) (taken : List Nat) : Prop :=
  ∀ y, frozen.mem y ↔ y ∈ taken ∨ ∃ x ∈ taken, ¬a.Apart x y

/-- An eligible variable is free if it shares no live clause with those taken. -/
theorem Freezes.free_iff (h : Freezes a frozen taken) (he : a.Eligible posLimit negLimit y) (hy : y < 2 ^ 31) :
    frozen.mem y = false ↔ ∀ x ∈ taken, a.Apart x y := by
  rw [← Bool.not_eq_true, h, not_or]
  constructor
  · rintro ⟨_, hnot⟩ x hx
    by_contra hmeet
    exact hnot ⟨x, hx, hmeet⟩
  · intro hall
    refine ⟨fun hmem => he.not_apart hy (hall y hmem), ?_⟩
    rintro ⟨x, hx, hmeet⟩
    exact hmeet (hall x hx)

section Exact

variable (ha : a.Readable) (ho : a.Below n) (ht : t.Exact a) (hnum : t.numVars = n) (hn : n ≤ 2 ^ 31)
include ha ho ht hnum hn

/-- Freezing a variable and all that share a live clause with it. -/
theorem freezeAround_ok (hx : x < n) (hcap : frozen.capacity = n) :
    ∃ frozen', freezeAround a t frozen x = .ok frozen' ∧ frozen'.capacity = n ∧
      ∀ y, frozen'.mem y ↔ frozen.mem y ∨ y = x ∨ ¬a.Apart x y := by
  have hs := ht.sound
  have hx2 : x < 2 ^ 31 := Nat.lt_of_lt_of_le hx hn
  have hp := Lit.var_positive hx2
  have hm := Lit.var_negative hx2
  obtain ⟨frozen₁, hins, hcap₁, hmem₁⟩ := BitSet.insert_ok (s := frozen) (hcap.symm ▸ hx)
  obtain ⟨frozen₂, hrun₂, hcap₂, hmem₂⟩ := freezeClauses_ok ha ho (hcap₁.trans hcap) (hs.lt (Lit.positive x).index)
  obtain ⟨frozen₃, hrun₃, hcap₃, hmem₃⟩ := freezeClauses_ok ha ho hcap₂ (hs.lt (Lit.negative x).index)
  refine ⟨frozen₃, ?_, hcap₃, fun y => ?_⟩
  · unfold freezeAround
    rw [hins, ok_bind, hs.wf.occurs_ok (ht.index_lt (by rwa [hp, hnum])), ok_bind, hrun₂, ok_bind,
      hs.wf.occurs_ok (ht.index_lt (by rwa [hm, hnum])), ok_bind, hrun₃]
  have hmeets : ¬a.Apart x y ↔ (∃ c ∈ a.bodies, .positive x ∈ c ∧ ∃ k ∈ c, k.var = y) ∨
      ∃ c ∈ a.bodies, .negative x ∈ c ∧ ∃ k ∈ c, k.var = y := by
    rw [Arena.not_apart_iff]
    constructor
    · rintro ⟨c, hc, l, hl, k, hk, hlx, hky⟩
      rcases (Lit.var_eq_iff_positive_or_negative hx2).1 hlx with rfl | rfl
      · exact Or.inl ⟨c, hc, hl, k, hk, hky⟩
      · exact Or.inr ⟨c, hc, hl, k, hk, hky⟩
    · rintro (⟨c, hc, hl, k, hk, hky⟩ | ⟨c, hc, hl, k, hk, hky⟩)
      · exact ⟨c, hc, _, hl, k, hk, hp, hky⟩
      · exact ⟨c, hc, _, hl, k, hk, hm, hky⟩
  rw [hmem₃, hmem₂, ht.exists_listed_iff, ht.exists_listed_iff, hmem₁, Bool.or_eq_true, decide_eq_true_iff, hmeets]
  simp only [or_assoc]

/-! ## Electing -/

/-- The walk over the scores is the greedy choice. -/
theorem electFrom_ok (hcap : frozen.capacity = n) (hfreezes : Freezes a frozen taken)
    (hscores : ∀ s ∈ scores, s.var < n) : electFrom a t posLimit negLimit frozen scores =
      .ok (a.greedy posLimit negLimit taken (scores.map Score.var)) := by
  induction scores generalizing frozen taken with
  | nil => rfl
  | cons s scores ih =>
    have hs := ht.sound
    have hx := hscores s List.mem_cons_self
    have hx2 : s.var < 2 ^ 31 := Nat.lt_of_lt_of_le hx hn
    have hrest := fun s hs => hscores s (List.mem_cons_of_mem _ hs)
    have hlen {l : Lit} (hl : l.var = s.var) : t.len l = .ok (a.clausesWith l).length :=
      ht.len_ok (by rwa [hl, hnum])
    unfold electFrom
    simp only [hlen (Lit.var_positive hx2), hlen (Lit.var_negative hx2), ok_bind]
    rw [List.map_cons, Arena.greedy]
    by_cases he : a.Eligible posLimit negLimit s.var
    · rw [if_neg fun h => Arena.not_eligible_iff.2 h he, BitSet.contains_ok (hcap.symm ▸ hx), ok_bind]
      cases hmem : frozen.mem s.var with
      | true =>
        rw [if_pos rfl, if_neg]
        · exact ih hcap hfreezes hrest
        · intro hfree
          rw [(hfreezes.free_iff he hx2).2 hfree.2] at hmem
          cases hmem
      | false =>
        obtain ⟨frozen', hrun, hcap', hmem'⟩ := freezeAround_ok ha ho ht hnum hn hx hcap
        -- Freezing adds to the frozen variables exactly what taking this one adds to those that are met.
        have hfreezes' : Freezes a frozen' (s.var :: taken) := by
          intro y
          rw [hmem', hfreezes]
          simp only [List.mem_cons, exists_eq_or_imp]
          exact or_or_or_comm.trans (or_congr or_comm or_comm)
        rw [if_neg Bool.false_ne_true, hrun, ok_bind, ih hcap' hfreezes' hrest, if_pos]
        · rfl
        · exact ⟨he, (hfreezes.free_iff he hx2).1 hmem⟩
    · rw [if_pos (Arena.not_eligible_iff.1 he), if_neg fun h => he h.1]
      exact ih hcap hfreezes hrest

/-- An election takes the greedy choice by the order of the scores. -/
theorem elect_ok {o : Options} (hw : w.Wf) (hsized : w.Sized n) (hscores : ∀ s ∈ w.scores, s.var < n)
    (hpos : min (temperature o.posTemperature w.heat) (toWord o.posOccursLimit) = posLimit)
    (hneg : min (temperature o.negTemperature w.heat) (toWord o.negOccursLimit) = negLimit) :
    ∃ xs w', xs = a.greedy posLimit negLimit [] (w.scores.map Score.var) ∧ xs.Nodup ∧ (∀ x ∈ xs, x < n) ∧
      xs.length ≤ n ∧ elect o a t w = .ok (xs.length, w') ∧ w.Elects w' xs := by
  have hcap : (BitSet.empty w.numVars).capacity = n := hsized.seen
  have hfreezes : Freezes a (BitSet.empty w.numVars) [] := fun y => by simp [BitSet.mem_empty]
  have hvars : ∀ x ∈ w.scores.map Score.var, x < n := by
    intro x hx
    obtain ⟨s, hs, rfl⟩ := List.mem_map.1 hx
    exact hscores s hs
  obtain ⟨xs, hxs⟩ : ∃ xs, xs = a.greedy posLimit negLimit [] (w.scores.map Score.var) := ⟨_, rfl⟩
  have hrun : electFrom a t posLimit negLimit (.empty w.numVars) w.scores = .ok xs :=
    hxs ▸ electFrom_ok ha ho ht hnum hn hcap hfreezes hscores
  have hlt : ∀ x ∈ xs, x < n := fun x hx => hvars x ((a.greedy_sublist _ _ _ _).subset (hxs ▸ hx))
  have hnodup : xs.Nodup := hxs ▸ a.nodup_greedy _ _ _ fun x hx => Nat.lt_of_lt_of_le (hvars x hx) hn
  have hlen : xs.length ≤ n := by
    have := (List.subperm_of_subset hnodup fun x hx => List.mem_range.2 (hlt x hx)).length_le
    rwa [List.length_range] at this
  have hroom : xs.length ≤ w.candidates.window.cap.toNat := by
    rwa [hsized.cap_eq (by omega)]
  obtain ⟨⟨_, w'⟩, hset, helects⟩ := (WorkingSet.setCandidates_ends (E := fun _ => False) hw
    (Or.inr ⟨fun x hx => hsized.elected.symm ▸ hlt x hx, hroom⟩)).exists_ok fun _ => id
  refine ⟨xs, w', hxs, hnodup, hlt, hlen, ?_, helects⟩
  simp only [elect, hpos, hneg, hrun, ok_bind, hset]
  rfl

end Exact

/-- What an election leads to: variables of which no two are the same or share a live clause. -/
theorem elect_ends {o : Options} (ha : a.Wf) (ho : a.Within n) (ht : t.Exact a) (hnum : t.numVars = n) (hn : n ≤ 2 ^ 31)
    (hw : w.Wf) (hsized : w.Sized n) (hscores : (w.scores.map Score.var).Perm (List.range n)) :
    Ends E (elect o a t w) fun r => ∃ xs, r.1 = xs.length ∧ w.Elects r.2 xs ∧ xs.Nodup ∧ (∀ x ∈ xs, x < n) ∧
      ∀ x ∈ xs, ∀ y ∈ xs, x ≠ y → a.Apart x y := by
  have hlt : ∀ s ∈ w.scores, s.var < n := fun s hs =>
    List.mem_range.1 (hscores.mem_iff.1 (List.mem_map_of_mem hs))
  obtain ⟨xs, w', hxs, hnodup, hx, _, hrun, helects⟩ :=
    elect_ok (o := o) ha.readable ho.below ht hnum hn hw hsized hlt rfl rfl
  have hpair : xs.Pairwise a.Apart := hxs ▸ a.pairwise_greedy _ _ _ _
  have : Std.Symm a.Apart := ⟨fun _ _ h => h.symm⟩
  exact Ends.of_eq hrun ⟨xs, rfl, helects, hnodup, hx, fun x hx y hy hne => hpair.forall hx hy hne⟩

/-! ## Bounds on occurrences -/

/-- Doubling a bound up to the largest 64-bit number is doubling it, as far as the other bound can tell. -/
theorem min_temperature {mu bound : Int} (hmu : 10 ≤ mu ∧ mu ≤ maxInt32) (hb : 1 ≤ bound ∧ bound ≤ maxInt32)
    (heat : Nat) : min (temperature mu heat) (toWord bound) = min (mu.toNat * 2 ^ heat) bound.toNat := by
  unfold maxInt32 at hmu hb
  have hmu' : toWord mu = mu.toNat := by
    unfold toWord
    omega
  have hb' : toWord bound = bound.toNat := by
    unfold toWord
    omega
  have hlt : bound.toNat < 2 ^ 31 := by omega
  have hpos : 1 ≤ mu.toNat := by omega
  unfold temperature
  rw [hmu', hb', Nat.shiftLeft_eq, Nat.min_assoc, Nat.min_eq_right (Nat.le_trans (Nat.le_of_lt hlt) (by decide))]
  rcases Nat.le_total heat 63 with h | h
  · rw [Nat.min_eq_left h]
  · -- From here on both products are beyond the other bound.
    have hle {k : Nat} (hk : 63 ≤ k) : bound.toNat ≤ mu.toNat * 2 ^ k :=
      calc bound.toNat ≤ 2 ^ 31 := Nat.le_of_lt hlt
        _ ≤ 2 ^ k := Nat.pow_le_pow_right (by decide) (Nat.le_trans (by decide) hk)
        _ ≤ mu.toNat * 2 ^ k := Nat.le_mul_of_pos_left _ hpos
    rw [Nat.min_eq_right h, Nat.min_eq_right (hle (Nat.le_refl 63)), Nat.min_eq_right (hle h)]

namespace Options

variable (o : Options) (heat : Nat)

/-- The most clauses that a candidate may occur in positively, after so many raises. -/
def posBound : Nat := min (o.posTemperature.toNat * 2 ^ heat) o.posOccursLimit.toNat

/-- The most clauses that a candidate may occur in negatively, after so many raises. -/
def negBound : Nat := min (o.negTemperature.toNat * 2 ^ heat) o.negOccursLimit.toNat

variable {o}

/-- Options in range lead to these bounds. -/
theorem bounds_of_validate (h : o.validate = .ok ()) :
    min (temperature o.posTemperature heat) (toWord o.posOccursLimit) = o.posBound heat ∧
      min (temperature o.negTemperature heat) (toWord o.negOccursLimit) = o.negBound heat := by
  simp only [validate, checks_eq_ok_iff, checkInt_eq_ok_iff] at h
  obtain ⟨hpos, hneg, _, _, hpos', hneg', _⟩ := h
  exact ⟨min_temperature hpos hpos' heat, min_temperature hneg hneg' heat⟩

end Options

/-- An election takes the greedy choice by the order of the scores. So no two elected variables share a live clause, and
each candidate that was not elected shares one with a variable that was. No count leaves its width. -/
theorem elect_greedy {o : Options} {t₀ : Occurrences} (ha : a.Listable) (ho : a.Below n) (hn : n ≤ 2 ^ 31)
    (ht : t₀.build a = .ok t) (hnum : t.numVars = n) (hw : w.Wf) (hsized : w.Sized n)
    (hscores : ∀ s ∈ w.scores, s.var < n) (hvalid : o.validate = .ok ()) :
    ∃ xs w', xs = a.greedy (o.posBound w.heat) (o.negBound w.heat) [] (w.scores.map Score.var) ∧
      elect o a t w = .ok (xs.length, w') ∧ w'.candidateVars = .ok xs ∧ w'.numCandidates = xs.length ∧
      (∀ x < n, w'.isElected x = .ok (decide (x ∈ xs))) ∧ xs.Nodup ∧ xs.Pairwise a.Apart ∧
      (∀ s ∈ w.scores, a.Eligible (o.posBound w.heat) (o.negBound w.heat) s.var → s.var ∉ xs →
        ∃ y ∈ xs, ¬a.Apart y s.var) ∧
      xs.length < 2 ^ 32 ∧ ∀ x,
        (a.clausesWith (.positive x)).length + (a.clausesWith (.negative x)).length < 2 ^ 64 := by
  have hexact := ((Occurrences.build_ends_of_listable (E := fun _ => True) ha (Or.inl fun _ => trivial)).of_ok ht).1
  obtain ⟨hpos, hneg⟩ := Options.bounds_of_validate w.heat hvalid
  obtain ⟨xs, w', hxs, hnodup, _, hlen, hrun, helects⟩ :=
    elect_ok ha.toReadable ho hexact hnum hn hw hsized hscores hpos hneg
  refine ⟨xs, w', hxs, hrun, ?_, ?_, ?_, hnodup, hxs ▸ a.pairwise_greedy _ _ _ _, ?_, by omega, ?_⟩
  · rw [WorkingSet.candidateVars_ok helects.wf, helects.contents]
  · rw [helects.same]
  · intro x hx
    unfold WorkingSet.isElected
    rw [BitSet.contains_ok ((helects.sized n hsized).elected.symm ▸ hx)]
    exact congrArg _ (Bool.eq_iff_iff.2 ((helects.elected x).trans decide_eq_true_iff.symm))
  · intro s hs he hnot
    rw [hxs] at hnot
    obtain ⟨y, hy, hmeet⟩ := Arena.exists_not_apart (List.mem_map_of_mem hs) he hnot
    exact ⟨y, hxs ▸ hy.resolve_left List.not_mem_nil, hmeet⟩
  · intro x
    have h₁ := ha.length_clausesWith_lt (.positive x)
    have h₂ := ha.length_clausesWith_lt (.negative x)
    omega

/-- In the order `x₁`, `x₀`, `x₂`, `x₃`: the first shares clauses with the next two, one of them a tautology. -/
theorem elect_greedy_four_variables : ∃ a t w w', Arena.ofDimacs [[1, 2], [2, -2, 3], [4]] = .ok a ∧
    (Occurrences.empty 4).build a = .ok t ∧ w.scores.map Score.var = [1, 0, 2, 3] ∧
    elect {} a t w = .ok (2, w') ∧ w'.candidateVars = .ok [1, 3] ∧
    ∀ x < 4, w'.isElected x = .ok (decide (x ∈ [1, 3])) := by
  obtain ⟨⟨a, t⟩, hset⟩ := exists_ok_of_isOk (x := do
    let a ← Arena.ofDimacs [[1, 2], [2, -2, 3], [4]]
    return (a, ← (Occurrences.empty 4).build a)) (by decide +kernel)
  simp only [bind_eq_ok_iff, pure, Except.pure, Except.ok.injEq, Prod.mk.injEq] at hset
  obtain ⟨a, hset, t, hbuild, rfl, rfl⟩ := hset
  obtain ⟨ha, _, hwithin, _⟩ := (Arena.ofDimacs_ends (E := fun _ => True) (n := 4) (by decide) (by decide)
    (Or.inl fun _ => trivial)).of_ok hset
  have hnum := ((Occurrences.build_ends (E := fun _ => True) ha (Or.inl fun _ => trivial)).of_ok hbuild).2
  have hw := WorkingSet.wf_empty 4
  have hs := WorkingSet.sized_empty 4
  obtain ⟨xs, w', hxs, hrun, hvars, _, helected, _⟩ := elect_greedy (o := {})
    (w := { WorkingSet.empty 4 with scores := [⟨1, 2, 1⟩, ⟨0, 1, 0⟩, ⟨2, 1, 0⟩, ⟨3, 1, 0⟩] }) ha.listable hwithin.below
    (by decide) hbuild hnum ⟨hw.candidates, hw.units, hw.nodup, hw.marked⟩
    ⟨hs.candidates, hs.units, hs.unitMarks, hs.elected, hs.seen, hs.below⟩ (by decide) (by decide)
  have hgreedy : (Arena.ofDimacs [[1, 2], [2, -2, 3], [4]]).map (fun a => a.greedy 32 32 [] [1, 0, 2, 3]) =
      .ok [1, 3] := by decide +kernel
  rw [hset] at hgreedy
  have hxs : xs = [1, 3] := hxs.trans (Except.ok.inj hgreedy)
  subst hxs
  exact ⟨a, t, _, w', hset, hbuild, rfl, hrun, hvars, helected⟩

end CnfSimp
