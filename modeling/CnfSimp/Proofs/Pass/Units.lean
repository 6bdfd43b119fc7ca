import CnfSimp.Pass.Units
import CnfSimp.Proofs.Pass.Models
import CnfSimp.Proofs.WorkingSet

/-!
# Collecting units

* `Arena.units`, `Arena.unitSlots`: the live unit clauses, as literals and as slots.
* `collectUnits_records`: the pass records those literals, melts those slots and counts them. It faults only where
  there is no room for a literal.
* `Collects`: unit clauses have become unit literals. Models stay models and make the new literals true, and a model of
  what is left that makes all unit literals true was one before.
* `collectUnits_ends`: the pass does that for all unit clauses, so that none is left.
-/

namespace CnfSimp

variable {E : Fault → Prop} {a a' a'' : Arena} {w w' w'' : WorkingSet} {crefs : List Nat} {l : Lit} {i m n : Nat}

namespace Arena

section Units

variable (a : Arena)

/-- The literal of a slot, if its clause is live and a unit clause. -/
def unitAt (i : Nat) : Option Lit :=
  match a.body i with
  | some [l] => some l
  | _ => none

/-- The literals of the live unit clauses, in order. -/
def units : List Lit := a.crefs.filterMap a.unitAt

/-- The slots of the live unit clauses, in order. -/
def unitSlots : List Nat := a.crefs.filter fun i => (a.unitAt i).isSome

end Units

theorem unitAt_eq_some_iff : a.unitAt i = some l ↔ a.body i = some [l] := by
  unfold unitAt
  split
  · next k hk => simp [hk]
  · next hno => exact ⟨nofun, fun h => absurd h (hno l)⟩

theorem mem_units : l ∈ a.units ↔ ∃ i, a.body i = some [l] := by
  unfold units crefs
  rw [List.mem_filterMap]
  refine exists_congr fun i => ?_
  rw [unitAt_eq_some_iff]
  exact and_iff_right_of_imp fun h => List.mem_range.2 (lt_of_body h)

theorem mem_unitSlots : i ∈ a.unitSlots ↔ ∃ l, a.body i = some [l] := by
  unfold unitSlots crefs
  rw [List.mem_filter, Option.isSome_iff_exists]
  simp only [unitAt_eq_some_iff]
  exact and_iff_right_of_imp fun ⟨l, h⟩ => List.mem_range.2 (lt_of_body h)

/-- Melting a clause leaves the other unit clauses. -/
theorem unitAt_melted (hi : i < a.len) {j : Nat} (hj : j ≠ i) : (a.melted i).unitAt j = a.unitAt j := by
  unfold unitAt
  rw [body_melted hi, if_neg hj]

/-- A slot whose clause is not a live unit clause. -/
theorem Readable.not_unit (ha : a.Readable) (hal : a.alive i) (h : a.unitAt i = none) : (a.clauseAt i).size ≠ 1 := by
  have hb := body_eq_some_iff.2 ⟨hal, rfl⟩
  rw [ha.size_clauseAt hb]
  intro hlen
  obtain ⟨l, hl⟩ := List.length_eq_one_iff.1 hlen
  rw [unitAt_eq_some_iff.2 (hl ▸ hb)] at h
  cases h

end Arena

/-- Collecting the units among some clauses. -/
theorem collectUnitsFrom_records (ha : a.Readable) (hw : w.Wf) (hcrefs : ∀ i ∈ crefs, i < a.len) (hn : crefs.Nodup)
    (h : (∀ f, E f) ∨ (∀ l ∈ crefs.filterMap a.unitAt, l.index < w.unitMarks.capacity) ∧
      (w.units.window.cap.toNat < (w.units.contents ++ crefs.filterMap a.unitAt).eraseDups.length →
        E .unitListOverflow)) :
    Ends E (collectUnitsFrom m a w crefs) fun s =>
      s.1 = m + (crefs.filter fun i => (a.unitAt i).isSome).length ∧
      a.Melts (crefs.filter fun i => (a.unitAt i).isSome) s.2.1 ∧ w.Records s.2.2 (crefs.filterMap a.unitAt) := by
  induction crefs generalizing m a w with
  | nil => exact ⟨rfl, .nil a, .refl hw⟩
  | cons cref crefs ih =>
    have hi := hcrefs cref List.mem_cons_self
    have hrest := fun i hi => hcrefs i (List.mem_cons_of_mem _ hi)
    obtain ⟨hnot, hn⟩ := List.nodup_cons.1 hn
    unfold collectUnitsFrom
    rw [Arena.clause_ok hi, ok_bind, ha.status.isLive_clauseAt hi, ok_bind]
    cases hunit : a.unitAt cref with
    | none =>
      have hguard : (!a.alive cref || decide ((a.clauseAt cref).size ≠ 1)) = true := by
        cases hal : a.alive cref with
        | false => rfl
        | true => simpa using ha.not_unit hal hunit
      rw [if_pos (by simpa using hguard), List.filter_cons, if_neg (by simp [hunit])]
      rw [List.filterMap_cons_none hunit] at h ⊢
      exact ih ha hw hrest hn h
    | some l =>
      have hb := Arena.unitAt_eq_some_iff.1 hunit
      obtain ⟨hal, htext⟩ := Arena.body_eq_some_iff.1 hb
      have hlit : (a.clauseAt cref).lit 0 = .ok l := by
        rw [Arena.lit_clauseAt (ha.inside _ hal) ha.cells_lt (by simp [htext])]
        simp [htext]
      rw [if_neg (by simp [hal, ha.size_clauseAt hb]), hlit, ok_bind, List.filter_cons, if_pos (by simp [hunit])]
      rw [List.filterMap_cons_some hunit] at h ⊢
      -- What melting this clause leaves of the others.
      have hunits : crefs.filterMap (a.melted cref).unitAt = crefs.filterMap a.unitAt :=
        List.filterMap_congr fun i hi' => Arena.unitAt_melted hi fun he => hnot (he ▸ hi')
      have hslots : (crefs.filter fun i => ((a.melted cref).unitAt i).isSome) =
          crefs.filter fun i => (a.unitAt i).isSome :=
        List.filter_congr fun i hi' => by rw [Arena.unitAt_melted hi fun he => hnot (he ▸ hi')]
      have hone : (∀ f, E f) ∨ l.index < w.unitMarks.capacity ∧
          (w.units.window.cap.toNat < (w.units.contents ++ [l]).eraseDups.length → E .unitListOverflow) := by
        refine h.imp_right fun ⟨hlt, hfull⟩ => ⟨hlt l List.mem_cons_self, fun hover => hfull ?_⟩
        rw [← List.singleton_append, ← List.append_assoc]
        exact Nat.lt_of_lt_of_le hover (length_eraseDups_le_append _ _)
      refine (WorkingSet.recordUnit_records hw hone).bind ?_
      rintro ⟨_, w₁⟩ ⟨hrec, -⟩
      simp only [Arena.melt_ok hi, ok_bind]
      refine (ih (ha.melted hi) hrec.wf (fun i hi' => ?_) hn ?_).imp ?_
      · rw [(Arena.trims_melted hi).len]
        exact hrest i hi'
      · rw [hunits, hrec.marks, hrec.cap, hrec.contents, eraseDups_eraseDups_append, List.append_assoc]
        exact h.imp_right fun ⟨hlt, hfull⟩ => ⟨fun k hk => hlt k (List.mem_cons_of_mem _ hk), hfull⟩
      · rintro s ⟨hcount, hmelts, hrecs⟩
        rw [hslots] at hcount hmelts
        rw [hunits] at hrecs
        refine ⟨?_, .cons hal hmelts, hrec.trans hrecs⟩
        rw [hcount, List.length_cons]
        omega

/-- Collecting all units records their literals, melts their clauses, and counts them. -/
theorem collectUnits_records (ha : a.Readable) (hw : w.Wf)
    (h : (∀ f, E f) ∨ (∀ l ∈ a.units, l.index < w.unitMarks.capacity) ∧
      (w.units.window.cap.toNat < (w.units.contents ++ a.units).eraseDups.length → E .unitListOverflow)) :
    Ends E (collectUnits a w) fun s =>
      s.1 = a.unitSlots.length ∧ a.Melts a.unitSlots s.2.1 ∧ w.Records s.2.2 a.units := by
  refine (collectUnitsFrom_records ha hw (fun _ hi => List.mem_range.1 hi) List.nodup_range h).imp ?_
  rintro s ⟨hcount, hrest⟩
  exact ⟨hcount.trans (Nat.zero_add _), hrest⟩

section Models

variable (hmelts : a.Melts a.unitSlots a')
include hmelts

/-- What is left is the other live clauses. -/
theorem body_of_melts_units (i : Nat) (c : List Lit) : a'.body i = some c ↔ a.body i = some c ∧ ∀ l, c ≠ [l] := by
  rw [Arena.body_eq_some_iff, Arena.body_eq_some_iff, hmelts.text, hmelts.alive_eq, Bool.and_eq_true,
    decide_eq_true_iff, Arena.mem_unitSlots]
  constructor
  · rintro ⟨⟨hno, hal⟩, rfl⟩
    exact ⟨⟨hal, rfl⟩, fun l hl => hno ⟨l, Arena.body_eq_some_iff.2 ⟨hal, hl⟩⟩⟩
  · rintro ⟨⟨hal, rfl⟩, hno⟩
    exact ⟨⟨fun ⟨l, hl⟩ => hno l (Arena.body_eq_some_iff.1 hl).2, hal⟩, rfl⟩

/-- The models of a formula are those of what is left that make the unit literals true. -/
theorem models_iff_of_melts_units (v : Assignment) : a.Models v ↔ a'.Models v ∧ ∀ l ∈ a.units, l.Holds v := by
  constructor
  · refine fun hv => ⟨fun c hc => ?_, fun l hl => ?_⟩
    · obtain ⟨i, hi⟩ := Arena.mem_bodies.1 hc
      exact hv.holds ((body_of_melts_units hmelts i c).1 hi).1
    · obtain ⟨i, hi⟩ := Arena.mem_units.1 hl
      obtain ⟨k, hk, hvk⟩ := hv.holds hi
      exact List.mem_singleton.1 hk ▸ hvk
  · rintro ⟨hv, hunits⟩ c hc
    obtain ⟨i, hi⟩ := Arena.mem_bodies.1 hc
    by_cases hunit : ∃ l, c = [l]
    · obtain ⟨l, rfl⟩ := hunit
      exact ⟨l, List.mem_singleton_self l, hunits l (Arena.mem_units.2 ⟨i, hi⟩)⟩
    · exact hv.holds ((body_of_melts_units hmelts i c).2 ⟨hi, not_exists.1 hunit⟩)

end Models

/-- Unit clauses have become unit literals. -/
structure Collects (a : Arena) (w : WorkingSet) (a' : Arena) (w' : WorkingSet) : Prop extends Drops a a' where
  down : ∀ v, a.Models v → a'.Models v
  gains : w.Gains w' a.Yields
  up : ∀ v, a'.Models v → (∀ l ∈ w'.units.contents, l.Holds v) → a.Models v

/-- Collecting all units. -/
theorem collectUnits_ends (ha : a.Wf) (hw : w.Wf)
    (h : (∀ f, E f) ∨ w.Sized n ∧ a.Below n ∧ (E .unitListOverflow ∨ n < 2 ^ 31 - 1)) :
    Ends E (collectUnits a w) fun s => Collects a w s.2.1 s.2.2 ∧
      (∀ l, [l] ∈ a.bodies → l ∈ s.2.2.units.contents) ∧ ∀ l, [l] ∉ s.2.1.bodies := by
  have hmem {l : Lit} (hl : l ∈ a.units) : [l] ∈ a.bodies := Arena.mem_bodies.2 (Arena.mem_units.1 hl)
  have hroom : (∀ f, E f) ∨ (∀ l ∈ a.units, l.index < w.unitMarks.capacity) ∧
      (w.units.window.cap.toNat < (w.units.contents ++ a.units).eraseDups.length → E .unitListOverflow) := by
    refine h.imp_right fun ⟨hs, hbelow, hn⟩ => ?_
    have hlt (l : Lit) (hl : l ∈ a.units) : l.var < n := hbelow _ (hmem hl) l (List.mem_singleton_self l)
    refine ⟨fun l hl => ?_, fun hfull => hn.resolve_right fun hn => Nat.not_le_of_lt hfull (hs.room hn hlt)⟩
    rw [hs.unitMarks]
    exact Lit.index_lt_litSlots (hlt l hl)
  refine (collectUnits_records ha.readable hw hroom).imp ?_
  rintro s ⟨-, hmelts, hrec⟩
  have hmodels := models_iff_of_melts_units hmelts
  have hyields (l : Lit) (hl : l ∈ a.units) : a.Yields l :=
    ⟨fun v hv => ((hmodels v).1 hv).2 l hl, [l], hmem hl, List.mem_singleton_self l⟩
  refine ⟨⟨.of_melts hmelts ha, fun v hv => ((hmodels v).1 hv).1, hrec.gains hw hyields, fun v hv hunits => ?_⟩,
    fun l hl => ?_, fun l hl => ?_⟩
  · exact (hmodels v).2 ⟨hv, fun l hl => hunits l (hrec.mem_contents.2 (Or.inr hl))⟩
  · exact hrec.mem_contents.2 (Or.inr (Arena.mem_units.2 (Arena.mem_bodies.1 hl)))
  · obtain ⟨i, hi⟩ := Arena.mem_bodies.1 hl
    exact ((body_of_melts_units hmelts i [l]).1 hi).2 l rfl

end CnfSimp
