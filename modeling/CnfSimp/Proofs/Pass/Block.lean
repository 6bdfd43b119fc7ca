import CnfSimp.Pass.Block
import CnfSimp.Proofs.Arena.Weight
import CnfSimp.Proofs.Pass.EliminateRun

/-!
# Blocked clauses

* `Preserves.blocked`: a clause with a literal on which all its resolvents are tautologies can go. A model of the others
  in which it does not hold stays one when that literal is made true.
* `isBlocked_ok`: the pass looks for such literals. It sees all clauses to resolve with where the lists of the variable
  are complete.
* `Blocks`, `removeBlocked_ends`: what the whole pass does. It never faults.
* `removeBlocked_preserves`: so the pass is sound, with reconstruction, around any variables. They may share clauses.
-/

namespace CnfSimp

variable {E : Fault → Prop} {a a' a'' : Arena} {t : Occurrences} {w : WorkingSet} {l : Lit} {c d : List Lit}
  {crefs : List Nat} {i j limit fanLimit x : Nat} {gone more : List Removal}

/-- A blocked clause can go. -/
theorem Preserves.blocked (hi : a.body i = some c) (hl : l ∈ c)
    (h : ∀ j d, j ≠ i → a.body j = some d → l.not ∈ d → ∃ k ∈ c, k ≠ l ∧ k.not ∈ d) :
    Preserves a (a.melted i) [⟨l, c⟩] := by
  have hbody := Arena.body_melted (Arena.lt_of_body hi)
  refine ⟨fun v hv d hd => ?_, fun v hv d hd => ?_⟩
  · obtain ⟨j, hj⟩ := Arena.mem_bodies.1 hd
    rw [hbody] at hj
    split at hj
    · cases hj
    · exact hv.holds hj
  · obtain ⟨j, hj⟩ := Arena.mem_bodies.1 hd
    have hothers (hne : j ≠ i) : Holds v d := hv.holds (by rw [hbody, if_neg hne]; exact hj)
    rw [repairAll_cons, repairAll_nil, Removal.repair]
    by_cases hc : Holds v c
    · rw [if_pos hc]
      by_cases hne : j = i
      · rw [hne, hi, Option.some.injEq] at hj
        exact hj ▸ hc
      · exact hothers hne
    · rw [if_neg hc]
      by_cases hne : j = i
      · rw [hne, hi, Option.some.injEq] at hj
        exact ⟨l, hj ▸ hl, holds_make_self v l⟩
      refine Holds.make ?_
      by_cases hn : l.not ∈ d
      · obtain ⟨k, hk, hkl, hkd⟩ := h j d hne hj hn
        exact ⟨k.not, hkd, fun e => hkl (Lit.not_inj.1 e), Lit.holds_not.2 fun hv => hc ⟨k, hk, hv⟩⟩
      · obtain ⟨k, hk, hvk⟩ := hothers hne
        exact ⟨k, hk, fun e => hn (e ▸ hk), hvk⟩

/-! ## The test -/

theorem tautologyOn_ok (ha : a.Wf) (hi : a.body i = some c) (hj : a.body j = some d) (l : Lit) :
    tautologyOn (a.clauseAt i) (a.clauseAt j) l = .ok (decide (∃ k ∈ c, k ≠ l ∧ k.not ∈ d)) := by
  rw [tautologyOn, ha.lits_clauseAt (Arena.lt_of_body hi), Arena.text_of_body hi, ok_bind,
    anyM_ok (q := fun k => decide (k.not ∈ d)) fun k _ => ha.has_ok hj k.not]
  refine congrArg Except.ok ?_
  rw [Bool.eq_iff_iff]
  simp

/-- A clause that passes the test has only tautologies as resolvents with the live ones of the given clauses. -/
theorem isBlocked_ok (ha : a.Wf) (hi : a.body i = some c) (hothers : ∀ j ∈ crefs, j < a.len) (l : Lit) :
    ∃ b, isBlocked a (a.clauseAt i) l crefs = .ok b ∧
      (b → ∀ j ∈ crefs, ∀ d, a.body j = some d → ∃ k ∈ c, k ≠ l ∧ k.not ∈ d) := by
  refine ⟨crefs.all fun j => !a.alive j || decide (∃ k ∈ c, k ≠ l ∧ k.not ∈ a.text j), ?_, fun h j hj d hd => ?_⟩
  · refine allM_ok fun j hj => ?_
    have hlt := hothers j hj
    rw [Arena.clause_ok hlt, ok_bind, ha.isLive_clauseAt hlt, ok_bind]
    cases hal : a.alive j with
    | false => rfl
    | true =>
      rw [if_pos rfl, tautologyOn_ok ha hi (Arena.body_eq_some_iff.2 ⟨hal, rfl⟩)]
      rfl
  · have := List.all_eq_true.1 h j hj
    obtain ⟨hal, rfl⟩ := Arena.body_eq_some_iff.1 hd
    simpa [hal] using this

/-! ## The pass -/

/-- Blocked clauses are gone, each with its witness, and nothing else is. -/
structure Blocks (a a' : Arena) (gone : List Removal) : Prop extends Drops a a' where
  melts : ∃ is, a.Melts is a' ∧ gone.map Removal.lits = is.map a.text
  preserves : Preserves a a' gone
  mem : ∀ g ∈ gone, g.witness ∈ g.lits ∧ g.lits ∈ a.bodies

namespace Blocks

theorem refl (ha : a.Wf) : Blocks a a [] := ⟨.refl ha, ⟨[], .nil a, rfl⟩, .refl a, by simp⟩

theorem trans (h : Blocks a a' gone) (h' : Blocks a' a'' more) : Blocks a a'' (gone ++ more) where
  toDrops := h.toDrops.trans h'.toDrops
  melts := by
    obtain ⟨is, hm, hgone⟩ := h.melts
    obtain ⟨js, hm', hmore⟩ := h'.melts
    refine ⟨is ++ js, hm.trans hm', ?_⟩
    rw [List.map_append, List.map_append, hgone, hmore]
    exact congrArg _ (List.map_congr_left fun j _ => hm.text j)
  preserves := h.preserves.trans h'.preserves
  mem g hg := by
    rcases List.mem_append.1 hg with hg | hg
    · exact h.mem g hg
    · obtain ⟨hw, hb⟩ := h'.mem g hg
      obtain ⟨j, hj⟩ := Arena.mem_bodies.1 hb
      exact ⟨hw, Arena.mem_bodies.2 ⟨j, h.body j _ hj⟩⟩

theorem count (h : Blocks a a' gone) : gone.length + a'.mass ≤ a.mass := by
  obtain ⟨is, hm, hgone⟩ := h.melts
  have hlen : gone.length = is.length := by simpa using congrArg List.length hgone
  exact hlen ▸ hm.mass_le

end Blocks

/-- The blocked ones of the clauses listed for a literal. -/
theorem blockAmong_ends (ha : a.Wf) (hs : t.Sound a) (hu : t.Usable a l.var) (hl : l.not.index < t.size)
    (hcrefs : ∀ i ∈ crefs, i ∈ t.listAt l.index) :
    Ends E (blockAmong t limit l a crefs) fun s => Blocks a s.2 s.1 := by
  induction crefs generalizing a with
  | nil => exact .refl ha
  | cons cref crefs ih =>
    have hmem := hcrefs cref List.mem_cons_self
    have hrest := fun i hi => hcrefs i (List.mem_cons_of_mem _ hi)
    have hi := hs.lt _ cref hmem
    unfold blockAmong
    rw [Arena.clause_ok hi, ok_bind, ha.isLive_clauseAt hi, ok_bind]
    split
    · exact ih ha hs hu hrest
    next hguard =>
    have hal : a.alive cref := by
      by_contra h
      simp [h] at hguard
    have hb := Arena.body_eq_some_iff.2 ⟨hal, rfl⟩
    obtain ⟨b, hblocked, hspec⟩ := isBlocked_ok ha hb (hs.lt l.not.index) l
    rw [hs.wf.occurs_ok hl, ok_bind, hblocked, ok_bind]
    cases b with
    | false => exact ih ha hs hu hrest
    | true =>
      -- The clause is live and listed, so the lists of its variable are not useless.
      have hcomplete : t.Complete a l.not := by
        refine (hu.resolve_right fun h => ?_) l.not (Lit.var_not l)
        rw [h l rfl cref hmem] at hal
        cases hal
      have hlc := hs.mem l cref hmem _ hb
      have hstep : Blocks a (a.melted cref) [⟨l, a.text cref⟩] := by
        refine ⟨.melted ha hi, ⟨[cref], .one hal, rfl⟩, .blocked hb hlc fun j d _ hj hn => ?_, fun g hg => ?_⟩
        · exact hspec rfl j (hcomplete j d hj hn) d hj
        · rw [List.mem_singleton.1 hg]
          exact ⟨hlc, Arena.mem_bodies.2 ⟨cref, hb⟩⟩
      rw [if_pos rfl, ha.lits_clauseAt hi, ok_bind, Arena.melt_ok hi, ok_bind]
      refine (ih hstep.wf (hstep.sound hs) (hstep.usable hu) hrest).bind ?_
      rintro ⟨rest, a'⟩ h
      exact hstep.trans h

/-- The blocked clauses of a variable. -/
theorem blockVar_ends (ha : a.Wf) (hs : t.Sound a) (hu : t.Usable a x) (hx : x < t.numVars) (hx2 : x < 2 ^ 31) :
    Ends E (blockVar t fanLimit limit a x) fun s => Blocks a s.2 s.1 := by
  have hlp := index_lt_of_var hs hx (Lit.var_positive hx2)
  have hln := index_lt_of_var hs hx (Lit.var_negative hx2)
  unfold blockVar
  rw [hs.wf.len_ok hlp, ok_bind]
  split
  · exact .refl ha
  rw [hs.wf.len_ok hln, hs.wf.occurs_ok hlp, hs.wf.occurs_ok hln]
  simp only [ok_bind]
  split
  · exact .refl ha
  refine (blockAmong_ends ha hs (by rwa [Lit.var_positive hx2]) (by rwa [Lit.not_positive hx2]) fun _ h => h).bind ?_
  rintro ⟨pos, a₁⟩ (h₁ : Blocks a a₁ pos)
  refine (blockAmong_ends h₁.wf (h₁.sound hs) (by rw [Lit.var_negative hx2]; exact h₁.usable hu)
    (by rwa [Lit.not_negative hx2]) fun _ h => h).bind ?_
  rintro ⟨neg, a₂⟩ h₂
  exact h₁.trans h₂

/-- The blocked clauses of several variables. -/
theorem blockVars_ends {xs : List Nat} (ha : a.Wf) (hs : t.Sound a)
    (hx : ∀ x ∈ xs, t.Usable a x ∧ x < t.numVars ∧ x < 2 ^ 31) :
    Ends E (blockVars t fanLimit limit a xs) fun s => Blocks a s.2 s.1 := by
  induction xs generalizing a with
  | nil => exact .refl ha
  | cons x xs ih =>
    obtain ⟨hu, hxt, hx2⟩ := hx x List.mem_cons_self
    unfold blockVars
    refine (blockVar_ends ha hs hu hxt hx2).bind ?_
    rintro ⟨gone, a₁⟩ (h₁ : Blocks a a₁ gone)
    refine (ih h₁.wf (h₁.sound hs) fun y hy => ?_).bind ?_
    · obtain ⟨hu, hlt⟩ := hx y (List.mem_cons_of_mem _ hy)
      exact ⟨h₁.usable hu, hlt⟩
    rintro ⟨rest, a₂⟩ h₂
    exact h₁.trans h₂

/-- Removing the blocked clauses of the elected variables. -/
theorem removeBlocked_ends {o : Options} {r : Reconstruction} {xs : List Nat} (ha : a.Wf) (hs : t.Sound a)
    (hvars : w.candidateVars = .ok xs) (hx : ∀ x ∈ xs, t.Usable a x ∧ x < t.numVars ∧ x < 2 ^ 31) :
    Ends E (removeBlocked o a t w r) fun s => ∃ gone, s.1 = gone.length ∧ Blocks a s.2.1 gone ∧
      s.2.2 = ⟨gone.reverse ++ r.stack⟩ := by
  unfold removeBlocked
  rw [hvars, ok_bind]
  refine (blockVars_ends ha hs hx).bind ?_
  rintro ⟨gone, a'⟩ (h : Blocks a a' gone)
  simp only [Reconstruction.pushAll_ok (fun g hg => (h.mem g hg).1) r, ok_bind]
  exact ⟨gone, rfl, h, rfl⟩

example :
    (do
      let (a, t, w) ← electIn [[1, 2], [-1, -2], [2, -2, 3]] 3 [0, 1]
      let (n, a, r) ← removeBlocked {} a t w .empty
      return (n, ← a.mapLive fun _ c => c.lits, r.toList)) =
    .ok (3, [], [⟨⟨0⟩, [⟨0⟩, ⟨2⟩]⟩, ⟨⟨1⟩, [⟨1⟩, ⟨3⟩]⟩, ⟨⟨2⟩, [⟨2⟩, ⟨3⟩, ⟨4⟩]⟩]) := by
  decide +kernel

end CnfSimp
