import CnfSimp.Proofs.Arena.Dimacs
import CnfSimp.Proofs.Pass.Units

/-!
# Recording units over a run

Unit literals are recorded one by one, or collected from the unit clauses of an arena, in any order and with any
repetitions. Their list has room for all literals unless there are `2 ^ 31 - 1` variables or more: then its capacity,
which is twice their number and two more, does not fit into 32 bits.

* `UnitCall`: a literal is recorded, or the unit clauses of an arena are collected. `recorded`: the literals that some
  calls record, one after another.
* `runUnits_ends`: what a run of calls leads to, by induction over the calls.
* `units_exact`: the list holds every literal recorded once, in the order of their first occurrence, and a call that
  has no room for one more is the only fault.
-/

namespace CnfSimp

/-- What records unit literals. -/
inductive UnitCall where
  | record (l : Lit)
  | collect (a : Arena)

namespace UnitCall

/-- The literals that a call records, one after another. -/
def lits : UnitCall → List Lit
  | record l => [l]
  | collect a => a.units

/-- What a call makes of the working set. -/
def run (w : WorkingSet) : UnitCall → Except Fault WorkingSet
  | record l => do
    let (_, w) ← (WorkingSet.recordUnit l).run? w
    return w
  | collect a => do
    let (_, _, w) ← collectUnits a w
    return w

/-- The literals have codes for `n` variables, and the arena can be read. -/
def Valid (n : Nat) : UnitCall → Prop
  | record l => l.index < litSlots n
  | collect a => a.Readable ∧ ∀ l ∈ a.units, l.index < litSlots n

end UnitCall

/-- The literals that some calls record. -/
def recorded (calls : List UnitCall) : List Lit := calls.flatMap UnitCall.lits

/-- The calls, one after another. -/
def runUnits (calls : List UnitCall) (w : WorkingSet) : Except Fault WorkingSet := calls.foldlM UnitCall.run w

section Run

variable {E : Fault → Prop} {w : WorkingSet} {calls : List UnitCall} {n : Nat}

/-- One call. -/
theorem UnitCall.run_ends {q : UnitCall} (hw : w.Wf) (hmarks : w.unitMarks.capacity = litSlots n) (hq : q.Valid n)
    (hE : w.units.window.cap.toNat < (w.units.contents ++ q.lits).eraseDups.length → E .unitListOverflow) :
    Ends E (q.run w) fun w' => w.Records w' q.lits := by
  cases q with
  | record l =>
    refine (WorkingSet.recordUnit_records hw (Or.inr ⟨hmarks.symm ▸ hq, hE⟩)).bind ?_
    exact fun r hr => hr.1
  | collect a =>
    refine (collectUnits_records hq.1 hw (Or.inr ⟨hmarks.symm ▸ hq.2, hE⟩)).bind ?_
    exact fun s hs => hs.2.2

/-- A run of calls: it faults only if the literals recorded do not fit the list. -/
theorem runUnits_ends (hw : w.Wf) (hmarks : w.unitMarks.capacity = litSlots n) (hcalls : ∀ q ∈ calls, q.Valid n)
    (hE : w.units.window.cap.toNat < (w.units.contents ++ recorded calls).eraseDups.length → E .unitListOverflow) :
    Ends E (runUnits calls w) fun w' => w.Records w' (recorded calls) := by
  induction calls generalizing w with
  | nil => exact .refl hw
  | cons q calls ih =>
    have hrest : recorded (q :: calls) = q.lits ++ recorded calls := List.flatMap_cons
    rw [hrest, ← List.append_assoc] at hE
    rw [runUnits, List.foldlM_cons, hrest]
    refine (UnitCall.run_ends hw hmarks (hcalls q List.mem_cons_self) fun hover => hE ?_).bind ?_
    · exact Nat.lt_of_lt_of_le hover (length_eraseDups_le_append _ _)
    intro w₁ h₁
    refine (ih h₁.wf (h₁.marks.trans hmarks) (fun q' hq' => hcalls q' (List.mem_cons_of_mem _ hq')) ?_).imp ?_
    · rw [h₁.cap, h₁.contents, eraseDups_eraseDups_append]
      exact hE
    · exact fun w' h => h₁.trans h

/-- A run from the empty working set. -/
theorem runUnits_empty (hcalls : ∀ q ∈ calls, q.Valid n) :
    Ends (fun f => f = .unitListOverflow ∧ litSlots n % 2 ^ 32 < (recorded calls).eraseDups.length)
      (runUnits calls (.empty n)) fun w => w.Wf ∧ w.units.contents = (recorded calls).eraseDups ∧
        (recorded calls).eraseDups.length ≤ litSlots n % 2 ^ 32 := by
  have hnone : (WorkingSet.empty n).units.contents = [] := Bounded.contents_of_rawLen rfl
  have hcap : (WorkingSet.empty n).units.window.cap.toNat = litSlots n % 2 ^ 32 := rfl
  have hrun := runUnits_ends (E := fun f => f = .unitListOverflow ∧
    litSlots n % 2 ^ 32 < (recorded calls).eraseDups.length) (WorkingSet.wf_empty n) rfl hcalls
  rw [hcap, hnone, List.nil_append] at hrun
  refine (hrun fun hover => ⟨rfl, hover⟩).imp ?_
  intro w h
  have hcontents := h.contents
  have hlen := h.length_le
  rw [hnone, List.nil_append] at hcontents hlen
  exact ⟨h.wf, hcontents, hlen⟩

/-- Fewer than `2 ^ 31 - 1` variables leave room for the literals of any calls. -/
theorem length_recorded_le (hcalls : ∀ q ∈ calls, q.Valid n) (hn : n < 2 ^ 31 - 1) :
    (recorded calls).eraseDups.length ≤ litSlots n % 2 ^ 32 := by
  have hvar (l : Lit) (hl : l ∈ recorded calls) : l.var < n + 1 := by
    obtain ⟨q, hq, hl⟩ := List.mem_flatMap.1 hl
    have hindex : l.index < litSlots n := by
      cases q with
      | record k => exact List.mem_singleton.1 hl ▸ hcalls _ hq
      | collect a => exact (hcalls _ hq).2 l hl
    have := l.index_eq
    unfold litSlots at hindex
    omega
  have hle := WorkingSet.length_le_of_nodup (nodup_eraseDups (recorded calls)) fun l hl =>
    hvar l (List.mem_eraseDups.1 hl)
  unfold litSlots
  omega

/-- Calls that record more literals than `2 ^ 31 - 1` variables or more leave room for. -/
theorem exists_overfull (hn : 2 ^ 31 - 1 ≤ n) : ∃ calls : List UnitCall, (∀ q ∈ calls, q.Valid n) ∧
    litSlots n % 2 ^ 32 < (recorded calls).eraseDups.length := by
  have hmod : litSlots n % 2 ^ 32 < 2 ^ 32 := Nat.mod_lt _ (by decide)
  have hslots : 2 ^ 32 ≤ litSlots n := by
    unfold litSlots
    omega
  generalize litSlots n % 2 ^ 32 = cap at hmod
  -- One literal more than there are places, of the smallest codes.
  let lits : List Lit := (List.range (cap + 1)).map fun i => ⟨.ofNat i⟩
  have hindex (i : Nat) (hi : i < 2 ^ 32) : (⟨.ofNat i⟩ : Lit).index = i := Nat.mod_eq_of_lt hi
  have hnodup : lits.Nodup := by
    refine List.Nodup.map_on (fun i hi j hj hij => ?_) List.nodup_range
    have hi := List.mem_range.1 hi
    have hj := List.mem_range.1 hj
    rw [← hindex i (by omega), ← hindex j (by omega), hij]
  refine ⟨lits.map .record, fun q hq => ?_, ?_⟩
  · obtain ⟨l, hl, rfl⟩ := List.mem_map.1 hq
    exact Nat.lt_of_lt_of_le l.index_lt hslots
  · have hrecorded : recorded (lits.map .record) = lits := by
      simp [recorded, List.flatMap_map, UnitCall.lits]
    rw [hrecorded, eraseDups_of_nodup hnodup, List.length_map, List.length_range]
    exact Nat.lt_succ_self cap

end Run

/-- Whatever was recorded and collected before, the list of unit literals holds each of them once, in the order of their
first occurrence, and the only fault is a list without room for one of them. Collecting the units of an arena leaves no
unit clause, answers how many clauses it melted, and keeps what the formula and the unit literals say together. There
are calls that overflow the list if and only if there are `2 ^ 31 - 1` variables or more. -/
theorem units_exact (n : Nat) :
    (∀ calls : List UnitCall, (∀ q ∈ calls, q.Valid n) →
      (∀ f, runUnits calls (.empty n) = .error f → f = .unitListOverflow) ∧
      ((∃ w, runUnits calls (.empty n) = .ok w) ↔ (recorded calls).eraseDups.length ≤ litSlots n % 2 ^ 32) ∧
      ∀ w, runUnits calls (.empty n) = .ok w → w.unitLits = .ok (recorded calls).eraseDups ∧
        ∀ a k a' w', a.Readable → collectUnits a w = .ok (k, a', w') →
          (∃ is, a.Melts is a' ∧ k = is.length) ∧ (∀ c ∈ a'.bodies, c.length ≠ 1) ∧
          ∃ us, w'.unitLits = .ok us ∧ ∀ v, (a'.Models v ∧ ∀ l ∈ us, l.Holds v) ↔
            (a.Models v ∧ ∀ l ∈ (recorded calls).eraseDups, l.Holds v)) ∧
    ((∃ calls : List UnitCall, (∀ q ∈ calls, q.Valid n) ∧ runUnits calls (.empty n) = .error .unitListOverflow) ↔
      2 ^ 31 - 1 ≤ n) := by
  have hiff {calls : List UnitCall} (hcalls : ∀ q ∈ calls, q.Valid n) :
      (∃ w, runUnits calls (.empty n) = .ok w) ↔ (recorded calls).eraseDups.length ≤ litSlots n % 2 ^ 32 := by
    refine ⟨fun ⟨w, hw⟩ => ((runUnits_empty hcalls).of_ok hw).2.2, fun hlen => ?_⟩
    cases hrun : runUnits calls (.empty n) with
    | ok w => exact ⟨w, rfl⟩
    | error f => exact absurd hlen (Nat.not_le_of_lt ((runUnits_empty hcalls).of_error hrun).2)
  refine ⟨fun calls hcalls => ⟨fun f hf => ((runUnits_empty hcalls).of_error hf).1, hiff hcalls, fun w hrun => ?_⟩, ?_⟩
  · obtain ⟨hw, hcontents, -⟩ := (runUnits_empty hcalls).of_ok hrun
    refine ⟨hcontents ▸ WorkingSet.unitLits_ok hw, fun a k a' w' ha hcollect => ?_⟩
    obtain ⟨hcount, hmelts, hrec⟩ :=
      (collectUnits_records (E := fun _ => True) ha hw (Or.inl fun _ => trivial)).of_ok hcollect
    refine ⟨⟨a.unitSlots, hmelts, hcount⟩, fun c hc hlen => ?_, w'.units.contents, WorkingSet.unitLits_ok hrec.wf,
      fun v => ?_⟩
    · obtain ⟨i, hi⟩ := Arena.mem_bodies.1 hc
      obtain ⟨l, rfl⟩ := List.length_eq_one_iff.1 hlen
      exact ((body_of_melts_units hmelts i [l]).1 hi).2 l rfl
    · rw [models_iff_of_melts_units hmelts v, ← hcontents]
      simp only [hrec.mem_contents, or_imp, forall_and]
      tauto
  · constructor
    · rintro ⟨calls, hcalls, hrun⟩
      by_contra hn
      obtain ⟨w, hw⟩ := (hiff hcalls).2 (length_recorded_le hcalls (Nat.lt_of_not_le hn))
      rw [hrun] at hw
      cases hw
    · intro hn
      obtain ⟨calls, hcalls, hover⟩ := exists_overfull hn
      refine ⟨calls, hcalls, ?_⟩
      cases hrun : runUnits calls (.empty n) with
      | ok w => exact absurd ((hiff hcalls).1 ⟨w, hrun⟩) (Nat.not_le_of_lt hover)
      | error f => rw [((runUnits_empty hcalls).of_error hrun).1]

/-- Two literals are recorded, one of them twice, and the second one is collected again. -/
theorem units_exact_three_calls :
    let calls : List UnitCall := [.record ⟨0⟩, .record ⟨3⟩, .record ⟨0⟩]
    ∃ w a k a' w', runUnits calls (.empty 2) = .ok w ∧ w.unitLits = .ok [⟨0⟩, ⟨3⟩] ∧
      Arena.ofDimacs [[-2], [1, 2]] = .ok a ∧ collectUnits a w = .ok (k, a', w') ∧
      (∃ is, a.Melts is a' ∧ k = is.length) ∧ ∀ c ∈ a'.bodies, c.length ≠ 1 := by
  intro calls
  obtain ⟨⟨k, a', w'⟩, hrun⟩ := exists_ok_of_isOk (x := do
    let w ← runUnits calls (.empty 2)
    let a ← Arena.ofDimacs [[-2], [1, 2]]
    collectUnits a w) (by decide +kernel)
  obtain ⟨w, hw, hrun⟩ := bind_eq_ok_iff.1 hrun
  obtain ⟨a, ha, hcollect⟩ := bind_eq_ok_iff.1 hrun
  have hwf := ((Arena.ofDimacs_ends (n := 2) (E := fun _ => True) (by decide) (by decide)
    (Or.inl fun _ => trivial)).of_ok ha).1
  have hcalls : ∀ q ∈ calls, q.Valid 2 := by
    simp only [calls, List.forall_mem_cons, UnitCall.Valid]
    exact ⟨by decide, by decide, by decide, List.forall_mem_nil _⟩
  obtain ⟨-, -, hruns⟩ := (units_exact 2).1 calls hcalls
  obtain ⟨hlits, hcollects⟩ := hruns w hw
  obtain ⟨hmelts, hnone, -⟩ := hcollects a k a' w' hwf.readable hcollect
  exact ⟨w, a, k, a', w', hw, hlits, ha, hcollect, hmelts, hnone⟩

/-- With `2 ^ 31 - 1` variables the list has room for no literal at all. -/
theorem first_unit_overflows :
    (WorkingSet.recordUnit (.positive 0)).run? (.empty (2 ^ 31 - 1)) = .error .unitListOverflow := by
  have hcalls : ∀ q ∈ [UnitCall.record (.positive 0)], q.Valid (2 ^ 31 - 1) := by
    intro q hq
    rw [List.mem_singleton.1 hq]
    show (Lit.positive 0).index < litSlots (2 ^ 31 - 1)
    decide
  have hrun := runUnits_empty hcalls
  simp only [runUnits, List.foldlM_cons, List.foldlM_nil, UnitCall.run] at hrun
  cases hrec : (WorkingSet.recordUnit (.positive 0)).run? (.empty (2 ^ 31 - 1)) with
  | ok r =>
    rw [hrec] at hrun
    exact absurd hrun.2.2 (by decide)
  | error f =>
    rw [hrec] at hrun
    rw [hrun.1]

end CnfSimp
