import CnfSimp.Pass.Eliminate
import CnfSimp.Proofs.Assignment

/-!
# Resolution

* `resolve_eq_none_iff`, `mem_of_resolve`, `pairwise_of_resolve`: the resolvent of two ascending clauses is the
  ascending clause of their literals without the pivots, and there is none exactly if these contain two complementary
  ones.
* `resolve_exact`: both in terms of the set of these literals (`joined`).
* `holds_of_resolve`: a resolvent follows from its parents.
* `exists_resolve_of_both`, `both_of_mem_resolve`: a resolvent contains the variable of its pivot exactly if one parent
  has both literals of it and the other has one.
* `holds_repairAll_of_resolvents`: where all resolvents of some clauses hold, repairing for these clauses makes all of
  them true.
-/

namespace CnfSimp

variable {v : Assignment} {l k : Lit} {p n r lits : List Lit}

/-! ## Merging -/

section Merging

variable {α : Type} {le : α → α → Bool} (total : ∀ x y, le x y || le y x)
  (trans : ∀ x y z, le x y → le y z → le x z)
include total trans

/-- A step of a merge is sorted if the merged rest is, and `x` is first in its list. -/
theorem pairwise_mergeStep {x : α} {xs : List α} {rest : List α → List α} (hx : ∀ z ∈ xs, le x z)
    (hperm : ∀ ys, (rest ys).Perm (xs ++ ys))
    (hrest : ∀ ys : List α, ys.Pairwise (le · ·) → (rest ys).Pairwise (le · ·)) {ys : List α}
    (hys : ys.Pairwise (le · ·)) : (mergeStep le x rest ys).Pairwise (le · ·) := by
  induction ys with
  | nil =>
    refine List.pairwise_cons.2 ⟨fun z hz => ?_, hrest [] hys⟩
    exact hx z (by simpa using (hperm []).mem_iff.1 hz)
  | cons y ys ih =>
    obtain ⟨hy, hys'⟩ := List.pairwise_cons.1 hys
    rw [mergeStep]
    split
    · next hxy =>
      refine List.pairwise_cons.2 ⟨fun z hz => ?_, hrest _ hys⟩
      rcases List.mem_append.1 ((hperm _).mem_iff.1 hz) with hz | hz
      · exact hx z hz
      · rcases List.mem_cons.1 hz with rfl | hz
        · exact hxy
        · exact trans x y z hxy (hy z hz)
    · next hxy =>
      have hyx : le y x := by simpa [hxy] using total x y
      refine List.pairwise_cons.2 ⟨fun z hz => ?_, ih hys'⟩
      rcases List.mem_append.1 ((mergeStep_perm x hperm ys).mem_iff.1 hz) with hz | hz
      · rcases List.mem_cons.1 hz with rfl | hz
        · exact hyx
        · exact trans y x z hyx (hx z hz)
      · exact hy z hz

/-- Merging sorted lists gives a sorted list. -/
theorem pairwise_mergeBy {xs ys : List α} (hxs : xs.Pairwise (le · ·)) (hys : ys.Pairwise (le · ·)) :
    (mergeBy le xs ys).Pairwise (le · ·) := by
  induction xs generalizing ys with
  | nil => exact hys
  | cons x xs ih =>
    obtain ⟨hx, hxs⟩ := List.pairwise_cons.1 hxs
    exact pairwise_mergeStep total trans hx (mergeBy_perm le xs) (fun ys hys => ih hxs hys) hys

end Merging

/-! ## Tautologies -/

/-- A tautology has two complementary literals, wherever they stand. -/
theorem tautology_congr {lits lits' : List Lit} (h : ∀ k, k ∈ lits ↔ k ∈ lits') : Tautology lits ↔ Tautology lits' := by
  unfold Tautology
  simp only [h]

/-- In an ascending clause two literals of one variable are neighbours. -/
theorem allAdjacent_var_iff (h : lits.Pairwise (· < ·)) :
    allAdjacent (fun l k => l.var != k.var) lits ↔ lits.Pairwise fun l k => l.var ≠ k.var := by
  fun_induction allAdjacent (fun l k : Lit => l.var != k.var) lits with
  | case1 x y xs ih =>
    obtain ⟨hx, h⟩ := List.pairwise_cons.1 h
    rw [Bool.and_eq_true, ih h, bne_iff_ne]
    constructor
    · rintro ⟨hne, hpair⟩
      refine List.pairwise_cons.2 ⟨fun z hz => ?_, hpair⟩
      rcases List.mem_cons.1 hz with rfl | hz
      · exact hne
      · -- The code of `z` is above those of `x` and `y`, so it cannot be a third one of the variable of `x`.
        have hxy := Lit.lt_iff.1 (hx y List.mem_cons_self)
        have hyz := Lit.lt_iff.1 ((List.pairwise_cons.1 h).1 z hz)
        have := x.index_eq
        have := y.index_eq
        have := z.index_eq
        have := Bool.toNat_lt x.isNeg
        have := Bool.toNat_lt y.isNeg
        have := Bool.toNat_lt z.isNeg
        omega
    · intro hpair
      obtain ⟨hne, hpair⟩ := List.pairwise_cons.1 hpair
      exact ⟨hne y List.mem_cons_self, hpair⟩
  | case2 xs h' =>
    rcases xs with _ | ⟨x, _ | ⟨y, xs⟩⟩
    · simp
    · simp
    · exact absurd rfl (h' x y xs)

/-- An ascending clause is no tautology if no neighbours are of one variable. -/
theorem allAdjacent_var_iff_not_tautology (h : lits.Pairwise (· < ·)) :
    allAdjacent (fun l k => l.var != k.var) lits ↔ ¬Tautology lits := by
  rw [allAdjacent_var_iff h]
  constructor
  · rintro hpair ⟨l, hl, hn⟩
    have : Std.Symm fun l k : Lit => l.var ≠ k.var := ⟨fun _ _ hne => Ne.symm hne⟩
    exact hpair.forall hl hn (Lit.ne_not l) (Lit.var_not l).symm
  · intro ht
    refine h.imp_of_mem fun {l k} hl hk hlt he => ?_
    rcases Lit.var_eq_iff.1 he with rfl | rfl
    · exact Lit.lt_irrefl _ hlt
    · exact ht ⟨k, hk, hl⟩

/-! ## Resolvents -/

/-- The literals of two clauses without the pivots, in order. -/
def unresolved (p n : List Lit) (pivot : Lit) : List Lit :=
  dedupAdjacent (mergeBy (fun l k => l ≤ k) (p.filter fun l => l ≠ pivot) (n.filter fun l => l ≠ pivot.not))

theorem mem_unresolved : k ∈ unresolved p n l ↔ k ∈ p ∧ k ≠ l ∨ k ∈ n ∧ k ≠ l.not := by
  unfold unresolved
  rw [mem_dedupAdjacent, (mergeBy_perm _ _ _).mem_iff]
  simp

/-- The literals of one clause without the pivot, and those of the other without its negation. -/
def joined (p n : List Lit) (pivot : Lit) : Set Lit := {k | k ∈ p ∧ k ≠ pivot} ∪ {k | k ∈ n ∧ k ≠ pivot.not}

theorem mem_unresolved_iff_joined : k ∈ unresolved p n l ↔ k ∈ joined p n l := mem_unresolved

theorem pairwise_unresolved (hp : p.Pairwise (· < ·)) (hn : n.Pairwise (· < ·)) (l : Lit) :
    (unresolved p n l).Pairwise (· < ·) := by
  have hle {lits : List Lit} (h : lits.Pairwise (· < ·)) (q : Lit → Bool) :
      (lits.filter q).Pairwise (fun l k => decide (l ≤ k)) :=
    (h.filter q).imp fun hlt => decide_eq_true (Nat.le_of_lt (Lit.lt_iff.1 hlt))
  have h := pairwise_mergeBy (fun l k => by simpa using Lit.le_total l k) (fun l k m => by simpa using Lit.le_trans)
    (hle hp fun k => k ≠ l) (hle hn fun k => k ≠ l.not)
  exact pairwise_dedupAdjacent (h.imp of_decide_eq_true)

/-- The resolvent of ascending clauses, and when there is none. -/
theorem resolve_eq (hp : p.Pairwise (· < ·)) (hn : n.Pairwise (· < ·)) (l : Lit) :
    resolve p n l = if Tautology (unresolved p n l) then none else some (unresolved p n l) := by
  unfold resolve
  show (if allAdjacent (fun l k => l.var != k.var) (unresolved p n l) = true then _ else _) = _
  by_cases h : Tautology (unresolved p n l)
  · rw [if_pos h, if_neg fun ha => (allAdjacent_var_iff_not_tautology (pairwise_unresolved hp hn l)).1 ha h]
  · rw [if_neg h, if_pos ((allAdjacent_var_iff_not_tautology (pairwise_unresolved hp hn l)).2 h)]
    rfl

section Resolve

variable (hp : p.Pairwise (· < ·)) (hn : n.Pairwise (· < ·))
include hp hn

/-- There is no resolvent if the literals without the pivots contain two complementary ones. -/
theorem resolve_eq_none_iff : resolve p n l = none ↔ Tautology (unresolved p n l) := by
  rw [resolve_eq hp hn]
  split <;> simp [*]

theorem resolve_eq_some_iff : resolve p n l = some r ↔ ¬Tautology (unresolved p n l) ∧ unresolved p n l = r := by
  rw [resolve_eq hp hn]
  split <;> simp [*]

/-- The literals of a resolvent. -/
theorem mem_of_resolve (h : resolve p n l = some r) : k ∈ r ↔ k ∈ p ∧ k ≠ l ∨ k ∈ n ∧ k ≠ l.not := by
  rw [← ((resolve_eq_some_iff hp hn).1 h).2, mem_unresolved]

/-- A resolvent is ascending. -/
theorem pairwise_of_resolve (h : resolve p n l = some r) : r.Pairwise (· < ·) := by
  rw [← ((resolve_eq_some_iff hp hn).1 h).2]
  exact pairwise_unresolved hp hn l

/-- A resolvent is no tautology. -/
theorem not_tautology_of_resolve (h : resolve p n l = some r) : ¬Tautology r := by
  obtain ⟨ht, rfl⟩ := (resolve_eq_some_iff hp hn).1 h
  exact ht

/-- **What resolution computes.** There is no resolvent exactly if the literals without the pivots contain a literal
and its negation, and otherwise it is the ascending list of them. -/
theorem resolve_exact (pivot : Lit) :
    (resolve p n pivot = none ↔ ∃ k ∈ joined p n pivot, k.not ∈ joined p n pivot) ∧
      ∀ r, resolve p n pivot = some r ↔ (¬∃ k ∈ joined p n pivot, k.not ∈ joined p n pivot) ∧
        r.Pairwise (· < ·) ∧ ∀ k, k ∈ r ↔ k ∈ joined p n pivot := by
  have htaut : Tautology (unresolved p n pivot) ↔ ∃ k ∈ joined p n pivot, k.not ∈ joined p n pivot := by
    simp only [Tautology, mem_unresolved_iff_joined]
  refine ⟨by rw [resolve_eq_none_iff hp hn, htaut], fun r => ?_⟩
  rw [resolve_eq_some_iff hp hn, htaut]
  refine and_congr_right fun _ => ⟨?_, fun ⟨hr, hmem⟩ => ?_⟩
  · rintro rfl
    exact ⟨pairwise_unresolved hp hn pivot, fun k => mem_unresolved_iff_joined⟩
  · refine (pairwise_unresolved hp hn pivot).eq_of_mem_iff hr fun k => ?_
    rw [mem_unresolved_iff_joined, hmem]

omit hp hn in
/-- Both clauses may have both literals of the pivot, which leaves a tautology, or just one of them, which leaves the
pivot's negation in the resolvent. -/
theorem resolve_exact_both_polarities :
    (resolve [.positive 0, .negative 0, .positive 1] [.positive 0, .negative 0, .negative 2] (.positive 0) = none ↔
      ∃ k ∈ joined [.positive 0, .negative 0, .positive 1] [.positive 0, .negative 0, .negative 2] (.positive 0),
        k.not ∈ joined [.positive 0, .negative 0, .positive 1] [.positive 0, .negative 0, .negative 2]
          (.positive 0)) ∧
      resolve [.positive 0, .negative 0, .positive 1] [.positive 0, .negative 0, .negative 2] (.positive 0) = none ∧
      resolve [.positive 0, .negative 0, .positive 1] [.negative 0, .negative 2] (.positive 0) =
        some [.negative 0, .positive 1, .negative 2] ∧
      ∀ k, k ∈ [Lit.negative 0, .positive 1, .negative 2] ↔
        k ∈ joined [.positive 0, .negative 0, .positive 1] [.negative 0, .negative 2] (.positive 0) := by
  have hp : [Lit.positive 0, .negative 0, .positive 1].Pairwise (· < ·) := by decide
  have hn : [Lit.positive 0, .negative 0, .negative 2].Pairwise (· < ·) := by decide
  have hn' : [Lit.negative 0, .negative 2].Pairwise (· < ·) := by decide
  have hsome : resolve [.positive 0, .negative 0, .positive 1] [.negative 0, .negative 2] (.positive 0) =
      some [.negative 0, .positive 1, .negative 2] := by decide
  exact ⟨(resolve_exact hp hn _).1, by decide, hsome, (((resolve_exact hp hn' _).2 _).1 hsome).2.2⟩

/-- A resolvent follows from its parents. -/
theorem holds_of_resolve (h : resolve p n l = some r) (hvp : Holds v p) (hvn : Holds v n) : Holds v r := by
  obtain ⟨k, hk, hvk⟩ := hvp
  obtain ⟨m, hm, hvm⟩ := hvn
  by_cases hkl : k = l
  · subst hkl
    refine ⟨m, (mem_of_resolve hp hn h).2 (Or.inr ⟨hm, ?_⟩), hvm⟩
    rintro rfl
    exact Lit.holds_not.1 hvm hvk
  · exact ⟨k, (mem_of_resolve hp hn h).2 (Or.inl ⟨hk, hkl⟩), hvk⟩

/-- Where the resolvent holds but a parent does not, the other parent holds through another literal than the pivot's
negation, also under assignments that agree up to the pivot. -/
theorem exists_holds_of_not_holds {v' : Assignment} (hl : l ∈ p) (hv : ¬Holds v p)
    (hagree : ∀ x, x ≠ l.var → v x = v' x) (hres : ∀ r, resolve p n l = some r → Holds v' r) :
    ∃ k ∈ n, k ≠ l.not ∧ (k = l ∨ k.var ≠ l.var ∧ k.Holds v) := by
  -- A literal of `p` is false, so a true one among the unresolved literals comes from `n`.
  have hsplit : ∀ k, k ∈ n → k ≠ l.not → (k.var ≠ l.var → k.Holds v) →
      ∃ k ∈ n, k ≠ l.not ∧ (k = l ∨ k.var ≠ l.var ∧ k.Holds v) := by
    intro k hk hne hvk
    by_cases hvar : k.var = l.var
    · exact ⟨k, hk, hne, Or.inl ((Lit.var_eq_iff.1 hvar).resolve_right hne)⟩
    · exact ⟨k, hk, hne, Or.inr ⟨hvar, hvk hvar⟩⟩
  have hpn : l.not ∉ p := fun hn => hv (Tautology.holds ⟨l, hl, hn⟩ v)
  by_cases ht : Tautology (unresolved p n l)
  · obtain ⟨k, hk, hv'⟩ := ht.holds v
    rcases mem_unresolved.1 hk with ⟨hkp, _⟩ | ⟨hkn, hne⟩
    · exact absurd ⟨k, hkp, hv'⟩ hv
    · exact hsplit k hkn hne fun _ => hv'
  · obtain ⟨k, hk, hvk⟩ := hres _ ((resolve_eq_some_iff hp hn).2 ⟨ht, rfl⟩)
    have hkv : k.var ≠ l.var → k.Holds v := fun hvar => by rwa [Lit.Holds, hagree _ hvar]
    rcases mem_unresolved.1 hk with ⟨hkp, hne⟩ | ⟨hkn, hne⟩
    · have hvar : k.var ≠ l.var := fun he =>
        (Lit.var_eq_iff.1 he).elim hne fun he => hpn (he ▸ hkp)
      exact absurd ⟨k, hkp, hkv hvar⟩ hv
    · exact hsplit k hkn hne hkv

end Resolve

/-! ## Pivots in resolvents -/

/-- A clause with both literals of a variable and one with just one of them have a resolvent on it that contains the
variable, unless their other literals make it a tautology. -/
theorem exists_resolve_of_both {x : Nat} {c d : List Lit} {l : Lit} (hx : x < 2 ^ 31) (hc : c.Pairwise (· < ·))
    (hd : d.Pairwise (· < ·)) (hl : l.var = x) (hlc : l ∈ c) (hnc : l.not ∈ c) (hld : l ∈ d) (hnd : l.not ∉ d)
    (ht : ¬Tautology ((c ++ d).filter fun k => k ≠ l.not)) :
    ∃ p n r, (p = c ∧ n = d ∨ p = d ∧ n = c) ∧ Lit.positive x ∈ p ∧ Lit.negative x ∈ n ∧
      resolve p n (.positive x) = some r ∧ l ∈ r := by
  have hnot : (Lit.positive x).not = Lit.negative x := Lit.not_positive hx
  rcases (Lit.var_eq_iff_positive_or_negative hx).1 hl with rfl | rfl
  · have hmem (k : Lit) : k ∈ unresolved d c (.positive x) ↔
        k ∈ (c ++ d).filter fun k => k ≠ (Lit.positive x).not := by
      rw [mem_unresolved, List.mem_filter, List.mem_append, decide_eq_true_iff]
      constructor
      · rintro (⟨hk, _⟩ | ⟨hk, hne⟩)
        · exact ⟨Or.inr hk, fun h => hnd (h ▸ hk)⟩
        · exact ⟨Or.inl hk, hne⟩
      · rintro ⟨hk | hk, hne⟩
        · exact Or.inr ⟨hk, hne⟩
        · by_cases h : k = Lit.positive x
          · exact Or.inr ⟨h ▸ hlc, hne⟩
          · exact Or.inl ⟨hk, h⟩
    refine ⟨d, c, _, Or.inr ⟨rfl, rfl⟩, hld, hnot ▸ hnc, (resolve_eq_some_iff hd hc).2 ⟨?_, rfl⟩, ?_⟩
    · rwa [tautology_congr hmem]
    · exact (hmem _).2 (List.mem_filter.2 ⟨List.mem_append_left _ hlc, by simpa using Lit.ne_not _⟩)
  · rw [Lit.not_negative hx] at hnc hnd ht
    have hmem (k : Lit) : k ∈ unresolved c d (.positive x) ↔ k ∈ (c ++ d).filter fun k => k ≠ Lit.positive x := by
      rw [mem_unresolved, List.mem_filter, List.mem_append, decide_eq_true_iff, hnot]
      constructor
      · rintro (⟨hk, hne⟩ | ⟨hk, _⟩)
        · exact ⟨Or.inl hk, hne⟩
        · exact ⟨Or.inr hk, fun h => hnd (h ▸ hk)⟩
      · rintro ⟨hk | hk, hne⟩
        · exact Or.inl ⟨hk, hne⟩
        · by_cases h : k = Lit.negative x
          · exact Or.inl ⟨h ▸ hlc, hne⟩
          · exact Or.inr ⟨hk, h⟩
    refine ⟨c, d, _, Or.inl ⟨rfl, rfl⟩, hnc, hld, (resolve_eq_some_iff hc hd).2 ⟨?_, rfl⟩, ?_⟩
    · rwa [tautology_congr hmem]
    · exact (hmem _).2 (List.mem_filter.2 ⟨List.mem_append_left _ hlc, by simpa [← hnot] using Lit.not_ne _⟩)

/-- A resolvent that contains the pivot's variable has a parent with both of its literals. -/
theorem both_of_mem_resolve {x : Nat} {p n r : List Lit} {l : Lit} (hx : x < 2 ^ 31) (hp : p.Pairwise (· < ·))
    (hn : n.Pairwise (· < ·)) (hxp : Lit.positive x ∈ p) (hxn : Lit.negative x ∈ n)
    (hr : resolve p n (.positive x) = some r) (hlr : l ∈ r) (hl : l.var = x) :
    ∃ c d, (c = p ∧ d = n ∨ c = n ∧ d = p) ∧ l ∈ c ∧ l.not ∈ c ∧ l ∈ d ∧ l.not ∉ d ∧
      ¬Tautology ((c ++ d).filter fun k => k ≠ l.not) := by
  have hnot : (Lit.positive x).not = Lit.negative x := Lit.not_positive hx
  have hne : Lit.positive x ≠ Lit.negative x := hnot ▸ Lit.ne_not _
  obtain ⟨ht, rfl⟩ := (resolve_eq_some_iff hp hn).1 hr
  have hln : l.not ∉ unresolved p n (.positive x) := fun h => ht ⟨l, hlr, h⟩
  simp only [mem_unresolved, hnot, not_or, not_and, not_not] at hlr hln
  rcases (Lit.var_eq_iff_positive_or_negative hx).1 hl with rfl | rfl
  · rw [hnot] at hln ⊢
    have hxn' : Lit.positive x ∈ n := by
      rcases hlr with ⟨_, h⟩ | ⟨h, _⟩
      · exact absurd rfl h
      · exact h
    have hxp' : Lit.negative x ∉ p := fun h => hne (hln.1 h).symm
    refine ⟨n, p, Or.inr ⟨rfl, rfl⟩, hxn', hxn, hxp, hxp', fun htaut => ht ((tautology_congr fun k => ?_).1 htaut)⟩
    rw [mem_unresolved, List.mem_filter, List.mem_append, decide_eq_true_iff, hnot]
    constructor
    · rintro ⟨hk | hk, hkn⟩
      · exact Or.inr ⟨hk, hkn⟩
      · by_cases h : k = Lit.positive x
        · exact Or.inr ⟨h ▸ hxn', hkn⟩
        · exact Or.inl ⟨hk, h⟩
    · rintro (⟨hk, _⟩ | ⟨hk, hkn⟩)
      · exact ⟨Or.inr hk, fun h => hxp' (h ▸ hk)⟩
      · exact ⟨Or.inl hk, hkn⟩
  · rw [Lit.not_negative hx] at hln ⊢
    have hxp' : Lit.negative x ∈ p := by
      rcases hlr with ⟨h, _⟩ | ⟨_, h⟩
      · exact h
      · exact absurd rfl h
    have hxn' : Lit.positive x ∉ n := fun h => hne (hln.2 h)
    refine ⟨p, n, Or.inl ⟨rfl, rfl⟩, hxp', hxp, hxn, hxn', fun htaut => ht ((tautology_congr fun k => ?_).1 htaut)⟩
    rw [mem_unresolved, List.mem_filter, List.mem_append, decide_eq_true_iff, hnot]
    constructor
    · rintro ⟨hk | hk, hkn⟩
      · exact Or.inl ⟨hk, hkn⟩
      · by_cases h : k = Lit.negative x
        · exact Or.inl ⟨h ▸ hxp', hkn⟩
        · exact Or.inr ⟨hk, h⟩
    · rintro (⟨hk, hkn⟩ | ⟨hk, _⟩)
      · exact ⟨Or.inl hk, hkn⟩
      · exact ⟨Or.inr hk, fun h => hxn' (h ▸ hk)⟩

/-! ## Reconstruction -/

/-- Repairs for clauses with a literal and then for those with its negation change its variable only. -/
theorem repairAll_map_append_of_ne {pos neg : List (List Lit)} {x : Nat} (hx : x ≠ l.var) :
    repairAll (pos.map (Removal.mk l) ++ neg.map (Removal.mk l.not)) v x = v x := by
  apply repairAll_of_ne
  intro g hg
  rcases List.mem_append.1 hg with hg | hg
  · obtain ⟨c, _, rfl⟩ := List.mem_map.1 hg
    exact Ne.symm hx
  · obtain ⟨c, _, rfl⟩ := List.mem_map.1 hg
    rw [Lit.var_not]
    exact Ne.symm hx

/-- Where all resolvents of the clauses with a literal and those with its negation hold, repairing for these clauses
makes all of them true. -/
theorem holds_repairAll_of_resolvents {pos neg : List (List Lit)}
    (hpos : ∀ c ∈ pos, l ∈ c ∧ c.Pairwise (· < ·)) (hneg : ∀ d ∈ neg, l.not ∈ d ∧ d.Pairwise (· < ·))
    (hres : ∀ c ∈ pos, ∀ d ∈ neg, ∀ r, resolve c d l = some r → Holds v r) {c : List Lit} (hc : c ∈ pos ∨ c ∈ neg) :
    Holds (repairAll (pos.map (Removal.mk l) ++ neg.map (Removal.mk l.not)) v) c := by
  rw [repairAll_append]
  rcases hc with hc | hc
  · exact holds_repairAll_map (fun d hd => (hpos d hd).1) hc
  have hc₁ : Holds (repairAll (neg.map (Removal.mk l.not)) v) c :=
    holds_repairAll_map (fun d hd => (hneg d hd).1) hc
  have hagree : ∀ x, x ≠ l.var → repairAll (neg.map (Removal.mk l.not)) v x = v x := fun x hx => by
    have h : repairAll ([].map (Removal.mk l) ++ neg.map (Removal.mk l.not)) v x = v x := repairAll_map_append_of_ne hx
    simpa using h
  rw [repairAll_map fun d hd => (hpos d hd).1]
  split
  · exact hc₁
  · next hall =>
    -- Some clause with the literal fails, so the witness is flipped; its resolvent with `c` keeps `c` true.
    obtain ⟨d, hd, hvd⟩ : ∃ d ∈ pos, ¬Holds (repairAll (neg.map (Removal.mk l.not)) v) d := by
      simpa only [not_forall, exists_prop] using hall
    obtain ⟨k, hk, _, hv⟩ := exists_holds_of_not_holds (hpos d hd).2 (hneg c hc).2 (hpos d hd).1 hvd hagree
      (hres d hd c hc)
    exact ⟨k, hk, holds_make.2 hv⟩

end CnfSimp
