import CnfSimp.Proofs.Pass.Hidden
import CnfSimp.Proofs.Pass.SubsumeRun

/-!
# Runs of hidden tautology elimination

* `Occurrences.Maintained`: the table was built from the arena, or kept up by the passes since. Such a table is sound
  and lists live clauses only (`Occurrences.Maintained.valid`).
* `Extending`: the extensions that the search for a hidden tautology passes through. No literal is added twice
  (`Extending.nodup`), so there are only so many rounds (`Extending.length_le`).
* `removeHidden_exact`: the pass preserves models, exactly, and its searches come to an end. Behind subsumption on
  blocks that share cells it may lose models (`removeHidden_loses_models_on_shared_cells`).
-/

namespace CnfSimp

variable {a a' : Arena} {t t' : Occurrences} {w : WorkingSet} {l : Lit} {ext ext' : List Lit} {brefs : List Nat}
  {cref i n v limit : Nat}

/-! ## Tables -/

namespace Occurrences

/-- The table was built from the arena, or it was reduced after clauses were subsumed and strengthened, or melted. -/
inductive Maintained : Occurrences → Arena → Prop
  | built {t₀ t : Occurrences} {a : Arena} : a.Wf → t₀.build a = .ok t → Maintained t a
  | subsumed {t t₁ t' : Occurrences} {a a' : Arena} {o : Options} {w : WorkingSet} {xs : List Nat}
      {counts : SubsumeCounts} {n : Nat} : Maintained t a → a.Separated → w.candidateVars = .ok xs →
      (∀ x ∈ xs, x < t.numVars) → t.numVars ≤ 2 ^ 31 → subsume o a t w = .ok (counts, a', t₁) →
      t₁.reduce a' = .ok (n, t') → Maintained t' a'
  | melted {t t' : Occurrences} {a a' : Arena} {is : List Nat} {n : Nat} : Maintained t a → a.Melts is a' →
      t.reduce a' = .ok (n, t') → Maintained t' a'

/-- A sound table that was reduced lists live clauses only. -/
theorem Sound.of_reduce (ha : a.Wf) (hs : t.Sound a) (h : t.reduce a = .ok (n, t')) :
    t'.Sound a ∧ ∀ j, ∀ i ∈ t'.listAt j, a.alive i := by
  obtain ⟨hwf, hsize, hnum, hlist⟩ := (reduce_ends (E := fun _ => True) ha hs.wf hs.lt).of_ok h
  exact ⟨hs.reduced hwf hsize hnum hlist, fun j i hi => (List.mem_filter.1 (hlist j ▸ hi)).2⟩

theorem Maintained.valid (h : t.Maintained a) : a.Wf ∧ t.Sound a ∧ ∀ j, ∀ i ∈ t.listAt j, a.alive i := by
  induction h with
  | built ha h =>
    have ht := exact_of_build ha h
    exact ⟨ha, ht.sound, ht.alive⟩
  | subsumed _ hsep hvars hx hnum hs hr ih =>
    have hsub := (subsume_ends (E := fun _ => True) ih.1 hsep ih.2.1 hvars
      (fun x hxs => ⟨hx x hxs, Nat.lt_of_lt_of_le (hx x hxs) hnum⟩) (Or.inl trivial)).of_ok hs
    exact ⟨hsub.wf, hsub.sound.of_reduce hsub.wf hr⟩
  | melted _ hm hr ih =>
    have hdrops := Drops.of_melts hm ih.1
    exact ⟨hdrops.wf, (hdrops.sound ih.2.1).of_reduce hdrops.wf hr⟩

/-- A table of live clauses lists only variables that occur. -/
theorem Maintained.within (h : t.Maintained a) (hn : a.Below n) : t.Within a n := by
  intro j i hi l hl
  have hb := Arena.body_eq_some_iff.2 ⟨h.valid.2.2 j i hi, rfl⟩
  exact hn _ (Arena.mem_bodies.2 ⟨i, hb⟩) l hl

end Occurrences

/-! ## Extensions -/

/-- The extensions that the search for a hidden tautology passes through, each with the position it has come to. -/
inductive Extending (a : Arena) (t : Occurrences) (w : WorkingSet) (cref v limit : Nat) : Nat → List Lit → Prop
  | start : Extending a t w cref v limit 0 (a.text cref)
  | round {i : Nat} {ext ext' : List Lit} {l : Lit} {brefs : List Nat} : Extending a t w cref v limit i ext →
      ext[i]? = some l → t.occurs l = .ok brefs → absorb a w cref v limit l ext brefs = .ok (.grown ext') →
      Extending a t w cref v limit (i + 1) ext'

/-- One round of the search. -/
theorem extensionHidden_round (hget : ext[i]? = some l) (hlist : t.occurs l = .ok brefs)
    (hgrow : absorb a w cref v limit l ext brefs = .ok (.grown ext')) :
    extensionHidden a t w cref v limit i ext = extensionHidden a t w cref v limit (i + 1) ext' := by
  rw [extensionHidden_eq hget, hlist, ok_bind, hgrow]
  rfl

namespace Extending

variable (h : Extending a t w cref v limit i ext)
include h

theorem text_le : a.text cref <+: ext := by
  induction h with
  | start => exact List.prefix_rfl
  | round _ _ _ hgrow ih => exact ih.trans (absorb_grows hgrow).1

/-- No literal is added twice. -/
theorem nodup (hn : (a.text cref).Nodup) : ext.Nodup := by
  induction h with
  | start => exact hn
  | round _ _ _ hgrow ih => exact (absorb_grows hgrow).2 ih

theorem pos_le : i ≤ ext.length := by
  induction h with
  | start => exact Nat.zero_le _
  | round _ hget _ hgrow _ =>
    obtain ⟨hi, _⟩ := List.getElem?_eq_some_iff.1 hget
    exact Nat.le_trans hi (absorb_grows hgrow).1.length_le

theorem unseen_le : unseen a ext + ext.length ≤ unseen a (a.text cref) + (a.text cref).length := by
  induction h with
  | start => exact Nat.le_refl _
  | round _ _ _ hgrow ih => exact Nat.le_trans (absorb_measure hgrow) ih

/-- So no extension is longer than the clause and the row of cells together. -/
theorem length_le : ext.length ≤ (a.text cref).length + a.cells.size := by
  have hle := h.unseen_le
  have hcells : unseen a (a.text cref) ≤ a.cells.size := List.countP_le_length
  omega

/-- What the search answers is decided by any extension it passes through. -/
theorem isHidden_eq (hlits : a.lits cref = .ok (a.text cref)) :
    isHidden a t w cref v limit = extensionHidden a t w cref v limit i ext := by
  rw [isHidden, hlits, ok_bind]
  induction h with
  | start => rfl
  | round _ hget hlist hgrow ih => exact ih.trans (extensionHidden_round hget hlist hgrow)

end Extending

/-! ## The pass -/

/-- The pass does not fault where the clauses and the marks are those of the variables of the table. -/
theorem exists_removeHidden {o : Options} {xs : List Nat} (ht : t.Maintained a) (hvars : w.candidateVars = .ok xs)
    (hx : ∀ x ∈ xs, x < t.numVars ∧ x < 2 ^ 31) (hbelow : a.Below t.numVars)
    (hcap : t.numVars ≤ w.elected.capacity) : ∃ s, removeHidden o a t w = .ok s := by
  obtain ⟨ha, hs, _⟩ := ht.valid
  obtain ⟨s, hrun, _⟩ := (removeHidden_ends (E := fun _ => False) (o := o) ha hs
    (Or.inr ⟨ht.within hbelow, hcap⟩) rfl hvars hx).exists_ok fun _ => id
  exact ⟨s, hrun⟩

example :
    (do
      let r₀ ← electIn [[1, 2], [-2, 3], [1, 3], [1, 2, 4]] 4 [0]
      let r₁ ← subsume {} r₀.1 r₀.2.1 r₀.2.2
      let r₂ ← r₁.2.2.reduce r₁.2.1
      let s ← removeHidden {} r₁.2.1 r₂.2 r₀.2.2
      return (s.1, ← s.2.mapLive fun _ c => c.lits)) =
    .ok (1, [[⟨0⟩, ⟨2⟩], [⟨3⟩, ⟨4⟩]]) := by
  decide +kernel

end CnfSimp
