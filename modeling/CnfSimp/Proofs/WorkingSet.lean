import CnfSimp.Proofs.BitSet
import CnfSimp.Proofs.Cells
import CnfSimp.Proofs.Literals
import CnfSimp.WorkingSet

/-!
# The working set

* `WorkingSet.Wf`: the lists lie in cells of their own, and the marks are those of the unit literals in the list.
* `WorkingSet.Sized`: the sizes for a number of variables. Fewer than `2 ^ 31 - 1` variables leave room for all unit
  literals (`WorkingSet.Sized.room`); with more the capacity of their list wraps around.
* `WorkingSet.Gains`: unit literals with a property may have been added, and nothing else has changed.
* `WorkingSet.Records`, `WorkingSet.recordUnit_records`: the list is that of some literals without repetitions.
* `WorkingSet.recordUnit_ends`: recording a literal puts it into the list, once.
* `WorkingSet.run_markElected`: marking variables, also when one of them is out of range.
* `WorkingSet.run_setCandidates`: electing variables, also when it faults; `WorkingSet.setCandidates_ok` is what the
  call needs to succeed. `WorkingSet.Elects`, `WorkingSet.setCandidates_ends`: the working set as a whole.
-/

namespace CnfSimp

variable {E : Fault → Prop}

/-! ## Repetitions -/

section Repetitions

variable {α : Type} [DecidableEq α] {xs ys : List α} {x : α}

/-- One more element counts if it is new. -/
theorem eraseDups_snoc (xs : List α) (x : α) :
    (xs ++ [x]).eraseDups = if x ∈ xs then xs.eraseDups else xs.eraseDups ++ [x] := by
  rw [List.eraseDups_append, List.cons_removeAll]
  by_cases hx : x ∈ xs
  · simp [hx]
  · simp [hx, List.eraseDups_cons]

theorem nodup_eraseDups (xs : List α) : xs.eraseDups.Nodup := by
  induction xs using List.reverseRecOn with
  | nil => exact .nil
  | append_singleton xs x ih =>
    rw [eraseDups_snoc]
    split
    · exact ih
    · next hx =>
      refine List.nodup_append.2 ⟨ih, List.nodup_singleton x, ?_⟩
      rintro y hy _ hx' rfl
      rw [List.mem_singleton.1 hx'] at hy
      exact hx (List.mem_eraseDups.1 hy)

theorem eraseDups_of_nodup (h : xs.Nodup) : xs.eraseDups = xs := by
  induction xs using List.reverseRecOn with
  | nil => rfl
  | append_singleton xs x ih =>
    obtain ⟨hxs, -, hx⟩ := List.nodup_append.1 h
    rw [eraseDups_snoc, if_neg fun hmem => hx x hmem x (List.mem_singleton_self x) rfl, ih hxs]

/-- What has been dropped once need not be dropped again. -/
theorem eraseDups_eraseDups_append (xs ys : List α) : (xs.eraseDups ++ ys).eraseDups = (xs ++ ys).eraseDups := by
  induction ys using List.reverseRecOn with
  | nil => rw [List.append_nil, List.append_nil, eraseDups_of_nodup (nodup_eraseDups xs)]
  | append_singleton ys y ih =>
    rw [← List.append_assoc, ← List.append_assoc, eraseDups_snoc, eraseDups_snoc, ih]
    simp only [List.mem_append, List.mem_eraseDups]

/-- More elements are more, repeated or not. -/
theorem length_eraseDups_le_append (xs ys : List α) : xs.eraseDups.length ≤ (xs ++ ys).eraseDups.length := by
  rw [List.eraseDups_append, List.length_append]
  exact Nat.le_add_right _ _

end Repetitions

theorem takeWhile_lt_eq_self {vars : List Nat} {n : Nat} (h : ∀ x ∈ vars, x < n) :
    (vars.takeWhile fun x => x < n) = vars :=
  List.takeWhile_eq_self_iff.2 fun x hx => decide_eq_true (h x hx)

/-- A full list refuses the entry. -/
theorem Bounded.push_full {α : Type} {b : Bounded α} (hb : b.Fits) (x : α)
    (h : ¬b.contents.length < b.window.cap.toNat) : ∃ b', (push x).run? b = .ok (false, b') := by
  have hlt : ¬b.window.rawLen < b.window.cap := fun hlt => h <| by
    have := UInt32.lt_iff_toNat_lt.1 hlt
    rw [length_contents hb, Window.len]
    omega
  exact ⟨_, by simp [push, hlt]; rfl⟩

namespace WorkingSet

variable {w w' : WorkingSet} {l : Lit} {n : Nat}

/-- The lists lie in cells of their own, and exactly the unit literals in the list are marked. -/
structure Wf (w : WorkingSet) : Prop where
  candidates : w.candidates.Fits
  units : w.units.Fits
  nodup : w.units.contents.Nodup
  marked : ∀ l : Lit, w.unitMarks.mem l.index ↔ l ∈ w.units.contents

/-- The sizes of a working set for `n` variables. -/
structure Sized (w : WorkingSet) (n : Nat) : Prop where
  candidates : w.candidates.window.cap = .ofNat n
  units : w.units.window.cap = .ofNat (litSlots n)
  unitMarks : w.unitMarks.capacity = litSlots n
  elected : w.elected.capacity = n
  seen : w.tally.seen.capacity = n
  below : ∀ l ∈ w.units.contents, l.var < n

/-- Only the unit literals have changed. -/
def SameButUnits (w w' : WorkingSet) : Prop := w' = { w with units := w'.units, unitMarks := w'.unitMarks }

theorem SameButUnits.refl (w : WorkingSet) : w.SameButUnits w := rfl

theorem SameButUnits.trans {w'' : WorkingSet} (h : w.SameButUnits w') (h' : w'.SameButUnits w'') :
    w.SameButUnits w'' := by
  unfold SameButUnits at *
  rw [h', h]

/-- There is room in the list for as many variables as there are. -/
theorem Sized.cap_eq (hs : w.Sized n) (hn : n < 2 ^ 32) : w.candidates.window.cap.toNat = n := by
  rw [hs.candidates]
  exact Nat.mod_eq_of_lt hn

theorem unitLits_ok (hw : w.Wf) : w.unitLits = .ok w.units.contents := Bounded.entries_ok hw.units

theorem candidateVars_ok (hw : w.Wf) : w.candidateVars = .ok w.candidates.contents :=
  Bounded.entries_ok hw.candidates

/-- There are two literals of each variable. -/
theorem length_le_of_nodup {lits : List Lit} (hn : lits.Nodup) (hlt : ∀ l ∈ lits, l.var < n) :
    lits.length ≤ 2 * n := by
  have hmap : (lits.map Lit.index).Nodup := hn.map fun _ _ h => Lit.index_inj.1 h
  have hsub : lits.map Lit.index ⊆ List.range (2 * n) := fun i hi => by
    obtain ⟨l, hl, rfl⟩ := List.mem_map.1 hi
    have := hlt l hl
    have := l.index_eq
    have := Bool.toNat_lt l.isNeg
    exact List.mem_range.2 (by omega)
  have := (List.subperm_of_subset hmap hsub).length_le
  rwa [List.length_map, List.length_range] at this

/-- Fewer than `2 ^ 31 - 1` variables leave room for every unit literal. -/
theorem Sized.room {ls : List Lit} (hs : w.Sized n) (hn : n < 2 ^ 31 - 1) (hls : ∀ l ∈ ls, l.var < n) :
    (w.units.contents ++ ls).eraseDups.length ≤ w.units.window.cap.toNat := by
  have hle := length_le_of_nodup (nodup_eraseDups (w.units.contents ++ ls)) fun l hl =>
    (List.mem_append.1 (List.mem_eraseDups.1 hl)).elim (hs.below l) (hls l)
  have hcap : (UInt32.ofNat (litSlots n)).toNat = litSlots n := Nat.mod_eq_of_lt (by unfold litSlots; omega)
  rw [hs.units, hcap]
  unfold litSlots
  omega

theorem wf_empty (n : Nat) : (empty n).Wf where
  candidates := by
    refine ⟨?_, ?_⟩
    · show 0 + (UInt32.ofNat n).toNat ≤ (Array.replicate n default).size
      rw [Array.size_replicate, Nat.zero_add]
      exact Nat.mod_le _ _
    · show 0 + (UInt32.ofNat _).toNat < 2 ^ 64
      exact Nat.lt_of_lt_of_le (Nat.add_lt_add_left (UInt32.toNat_lt _) _) (by decide)
  units := by
    refine ⟨?_, ?_⟩
    · show 0 + (UInt32.ofNat (litSlots n)).toNat ≤ (Array.replicate (litSlots n) default).size
      rw [Array.size_replicate, Nat.zero_add]
      exact Nat.mod_le _ _
    · show 0 + (UInt32.ofNat _).toNat < 2 ^ 64
      exact Nat.lt_of_lt_of_le (Nat.add_lt_add_left (UInt32.toNat_lt _) _) (by decide)
  nodup := by
    rw [show (empty n).units.contents = [] from Bounded.contents_of_rawLen rfl]
    exact .nil
  marked l := by
    rw [show (empty n).units.contents = [] from Bounded.contents_of_rawLen rfl]
    simp [empty, BitSet.mem_empty]

theorem sized_empty (n : Nat) : (empty n).Sized n where
  candidates := rfl
  units := rfl
  unitMarks := rfl
  elected := rfl
  seen := rfl
  below := by
    rw [show (empty n).units.contents = [] from Bounded.contents_of_rawLen rfl]
    simp

/-- Unit literals with a property may have been added, and nothing else has changed. -/
structure Gains (w w' : WorkingSet) (P : Lit → Prop) : Prop where
  wf : w'.Wf
  same : w.SameButUnits w'
  sized : ∀ n, w.Sized n → (∀ l, P l → l.var < n) → w'.Sized n
  contents : ∃ new, w'.units.contents = w.units.contents ++ new ∧ ∀ l ∈ new, P l

namespace Gains

variable {P Q : Lit → Prop} {w'' : WorkingSet}

theorem refl (hw : w.Wf) (P : Lit → Prop) : w.Gains w P := ⟨hw, rfl, fun _ h _ => h, [], by simp, by simp⟩

theorem mono (h : w.Gains w' P) (hPQ : ∀ l, P l → Q l) : w.Gains w' Q where
  wf := h.wf
  same := h.same
  sized n hs hlt := h.sized n hs fun l hl => hlt l (hPQ l hl)
  contents := by
    obtain ⟨new, hnew, hP⟩ := h.contents
    exact ⟨new, hnew, fun l hl => hPQ l (hP l hl)⟩

theorem trans (h : w.Gains w' P) (h' : w'.Gains w'' P) : w.Gains w'' P where
  wf := h'.wf
  same := h.same.trans h'.same
  sized n hs hlt := h'.sized n (h.sized n hs hlt) hlt
  contents := by
    obtain ⟨new, hnew, hP⟩ := h.contents
    obtain ⟨new', hnew', hP'⟩ := h'.contents
    refine ⟨new ++ new', by rw [hnew', hnew, List.append_assoc], fun l hl => ?_⟩
    exact (List.mem_append.1 hl).elim (hP l) (hP' l)

end Gains

/-- Literals were recorded: those that were not known stand behind the others, and nothing else has changed. -/
structure Records (w w' : WorkingSet) (ls : List Lit) : Prop where
  wf : w'.Wf
  same : w.SameButUnits w'
  marks : w'.unitMarks.capacity = w.unitMarks.capacity
  cap : w'.units.window.cap = w.units.window.cap
  contents : w'.units.contents = (w.units.contents ++ ls).eraseDups

namespace Records

variable {w'' : WorkingSet} {ls ls' : List Lit}

theorem refl (hw : w.Wf) : w.Records w [] :=
  ⟨hw, rfl, rfl, rfl, by rw [List.append_nil, eraseDups_of_nodup hw.nodup]⟩

theorem trans (h : w.Records w' ls) (h' : w'.Records w'' ls') : w.Records w'' (ls ++ ls') where
  wf := h'.wf
  same := h.same.trans h'.same
  marks := h'.marks.trans h.marks
  cap := h'.cap.trans h.cap
  contents := by rw [h'.contents, h.contents, eraseDups_eraseDups_append, List.append_assoc]

theorem mem_contents (h : w.Records w' ls) : l ∈ w'.units.contents ↔ l ∈ w.units.contents ∨ l ∈ ls := by
  rw [h.contents, List.mem_eraseDups, List.mem_append]

/-- What was recorded had room. -/
theorem length_le (h : w.Records w' ls) :
    (w.units.contents ++ ls).eraseDups.length ≤ w.units.window.cap.toNat := by
  rw [← h.contents, ← h.cap]
  exact Bounded.length_contents_le h.wf.units

theorem gains {P : Lit → Prop} (h : w.Records w' ls) (hw : w.Wf) (hP : ∀ l ∈ ls, P l) : w.Gains w' P where
  wf := h.wf
  same := h.same
  sized n hs hlt := by
    have hsame : w' = { w with units := w'.units, unitMarks := w'.unitMarks } := h.same
    refine ⟨?_, h.cap.trans hs.units, h.marks.trans hs.unitMarks, ?_, ?_, fun l hl => ?_⟩
    · rw [hsame]
      exact hs.candidates
    · rw [hsame]
      exact hs.elected
    · rw [hsame]
      exact hs.seen
    · exact (h.mem_contents.1 hl).elim (hs.below l) fun hl => hlt l (hP l hl)
  contents := by
    refine ⟨(ls.removeAll w.units.contents).eraseDups, ?_, fun l hl => hP l ?_⟩
    · rw [h.contents, List.eraseDups_append, eraseDups_of_nodup hw.nodup]
    · exact List.mem_of_mem_filter (List.mem_eraseDups.1 hl)

end Records

/-- Recording a literal: it is added if it is new, and that it has no room is the only fault. -/
theorem recordUnit_records (hw : w.Wf) (h : (∀ f, E f) ∨ l.index < w.unitMarks.capacity ∧
    (w.units.window.cap.toNat < (w.units.contents ++ [l]).eraseDups.length → E .unitListOverflow)) :
    Ends E ((recordUnit l).run? w) fun r => w.Records r.2 [l] ∧ r.1 = decide (l ∉ w.units.contents) := by
  simp only [recordUnit, Update.run?_bind, Update.run?_get, Update.run?_lift, ok_bind]
  by_cases hbit : l.index < w.unitMarks.capacity
  · obtain ⟨marks, hset, hcap, hmem⟩ := BitSet.testAndSet_ok hbit
    have hnext := eraseDups_snoc w.units.contents l
    rw [eraseDups_of_nodup hw.nodup] at hnext
    simp only [hset, ok_bind, Update.run?_modify]
    cases hknown : w.unitMarks.mem l.index with
    | true =>
      have hl : l ∈ w.units.contents := (hw.marked l).1 hknown
      have hmem' (i : Nat) : marks.mem i = w.unitMarks.mem i := by
        rw [hmem]
        by_cases hi : i = l.index <;> simp [hi, hknown]
      simp only [if_true, Update.run?_pure, ends_ok]
      refine ⟨⟨⟨hw.candidates, hw.units, hw.nodup, fun k => ?_⟩, rfl, hcap, rfl, ?_⟩, by simp [hl]⟩
      · rw [← hw.marked k]
        exact Eq.congr_left (hmem' k.index)
      · rw [hnext, if_pos hl]
    | false =>
      have hl : l ∉ w.units.contents := fun hl => by
        rw [(hw.marked l).2 hl] at hknown
        cases hknown
      rw [if_neg hl] at hnext
      simp only [Bool.false_eq_true, if_false, Update.run?_bind, Update.run?_get, Update.run?_lift, ok_bind]
      by_cases hroom : w.units.contents.length < w.units.window.cap.toNat
      · obtain ⟨units, hpush, hb⟩ := Bounded.push_ok hw.units l hroom
        simp only [hpush, ok_bind, Update.run?_modify, Update.run?_require, if_true, Update.run?_pure, ends_ok]
        refine ⟨⟨⟨hw.candidates, hb.fits hw.units, ?_, fun k => ?_⟩, rfl, hcap, hb.cap, ?_⟩, by simp [hl]⟩
        · rw [hb.contents, ← hnext]
          exact nodup_eraseDups _
        · show marks.mem k.index = true ↔ k ∈ units.contents
          rw [hmem, hb.contents, Bool.or_eq_true, decide_eq_true_iff, hw.marked k, Lit.index_inj, List.mem_append,
            List.mem_singleton]
        · rw [hnext]
          exact hb.contents
      · obtain ⟨units, hpush⟩ := Bounded.push_full hw.units l hroom
        simp only [hpush, ok_bind, Update.run?_modify, Update.run?_require, Bool.false_eq_true, if_false, error_bind,
          ends_error]
        rcases h with h | ⟨_, h⟩
        · exact h _
        · refine h ?_
          rw [hnext, List.length_append, List.length_singleton]
          exact Nat.lt_succ_of_le (Nat.le_of_not_lt hroom)
  · rw [BitSet.testAndSet_error hbit]
    rcases h with h | ⟨hl, _⟩
    · exact h _
    · exact absurd hl hbit

/-- Recording a unit literal: there is always room, unless there are too many variables for the list. -/
theorem recordUnit_ends (hw : w.Wf) (h : (∀ f, E f) ∨ w.Sized n ∧ l.var < n ∧ (E .unitListOverflow ∨ n < 2 ^ 31 - 1)) :
    Ends E ((recordUnit l).run? w) fun r => w.Gains r.2 (· = l) ∧ l ∈ r.2.units.contents := by
  have h' : (∀ f, E f) ∨ l.index < w.unitMarks.capacity ∧
      (w.units.window.cap.toNat < (w.units.contents ++ [l]).eraseDups.length → E .unitListOverflow) := by
    refine h.imp_right fun ⟨hs, hl, hn⟩ => ⟨?_, fun hfull => hn.resolve_right fun hn => Nat.not_le_of_lt hfull ?_⟩
    · rw [hs.unitMarks]
      exact Lit.index_lt_litSlots hl
    · exact hs.room hn (by simpa using hl)
  refine (recordUnit_records hw h').imp ?_
  rintro r ⟨hrec, -⟩
  exact ⟨hrec.gains hw (by simp), hrec.mem_contents.2 (Or.inr (List.mem_singleton_self l))⟩

/-- Marking goes on up to the first variable that is out of range. -/
theorem run_markElected (hcap : w.elected.capacity = n) (vars : List Nat) :
    ∃ marks : BitSet, marks.capacity = n ∧
      (∀ x, marks.mem x ↔ w.elected.mem x ∨ x ∈ vars.takeWhile fun x => x < n) ∧
      (markElected vars).run.run w = ((vars.find? fun x => n ≤ x).elim (.ok ()) fun x => .error (.bitOutOfRange x n),
        { w with elected := marks }) := by
  induction vars generalizing w with
  | nil => exact ⟨w.elected, hcap, by simp, rfl⟩
  | cons v vars ih =>
    unfold markElected
    by_cases hv : v < n
    · obtain ⟨marks, hins, hcap', hmem⟩ := BitSet.insert_ok (hcap.symm ▸ hv)
      obtain ⟨marks', hcap'', hmem', hrun⟩ := ih (w := { w with elected := marks }) (hcap'.trans hcap)
      have htake : ((v :: vars).takeWhile fun x => x < n) = v :: vars.takeWhile fun x => x < n :=
        List.takeWhile_cons_of_pos (by simpa using hv)
      have hfind : ((v :: vars).find? fun x => n ≤ x) = vars.find? fun x => n ≤ x :=
        List.find?_cons_of_neg (by simpa using hv)
      refine ⟨marks', hcap'', fun x => ?_, ?_⟩
      · rw [hmem', hmem, htake, List.mem_cons, Bool.or_eq_true, decide_eq_true_iff, or_assoc]
      · simp only [Update.run_bind, Update.run_get, Update.run_lift, Update.run_modify, hins, hrun, hfind]
    · have herr : w.elected.insert v = .error (.bitOutOfRange v n) := by
        rw [BitSet.insert_error (hcap.symm ▸ hv), hcap]
      have htake : ((v :: vars).takeWhile fun x => x < n) = [] := List.takeWhile_cons_of_neg (by simpa using hv)
      have hfind : ((v :: vars).find? fun x => n ≤ x) = some v := List.find?_cons_of_pos (by simpa using hv)
      refine ⟨w.elected, hcap, fun x => by simp [htake], ?_⟩
      simp only [Update.run_bind, Update.run_get, Update.run_lift, herr, hfind]
      rfl

/-- Electing variables, whether it succeeds or not: the marks come first, and the list only if all of them can be
set. -/
theorem run_setCandidates (w : WorkingSet) (vars : List Nat) :
    ∃ marks : BitSet, marks.capacity = w.elected.capacity ∧
      (∀ x, marks.mem x ↔ x ∈ vars.takeWhile fun x => x < w.elected.capacity) ∧
      (setCandidates vars).run.run w =
        match vars.find? fun x => w.elected.capacity ≤ x with
        | some x => (.error (.bitOutOfRange x w.elected.capacity), { w with elected := marks })
        | none => match (Bounded.assign vars).run? w.candidates with
          | .error f => (.error f, { w with elected := marks })
          | .ok ((), candidates) =>
            (.ok (), { w with candidates, elected := marks, numCandidates := vars.length }) := by
  obtain ⟨marks, hcap, hmem, hrun⟩ := run_markElected (n := w.elected.capacity)
    (w := { w with elected := w.elected.clear }) rfl vars
  refine ⟨marks, hcap, fun x => ?_, ?_⟩
  · rw [hmem, BitSet.mem_clear]
    simp
  unfold setCandidates
  simp only [Update.run_bind, Update.run_modify, hrun]
  cases vars.find? fun x => w.elected.capacity ≤ x with
  | some x => rfl
  | none =>
    simp only [Option.elim_none, Update.run_get, Update.run_lift]
    cases (Bounded.assign vars).run? w.candidates with
    | error f => rfl
    | ok r => rfl

/-- Too many variables are refused. -/
theorem assign_error {vars : List Nat} (h : ¬vars.length ≤ w.candidates.window.cap.toNat) :
    (Bounded.assign vars).run? w.candidates = .error .failedCheck := by
  simp [Bounded.assign, h]

/-- Electing variables that are in range and have room reads nothing but the list and the marks. -/
theorem setCandidates_ok {vars : List Nat} (hfits : w.candidates.Fits) (hlt : ∀ x ∈ vars, x < w.elected.capacity)
    (hlen : vars.length ≤ w.candidates.window.cap.toNat) :
    ∃ (candidates : Bounded Nat) (marks : BitSet), w.candidates.Becomes candidates vars ∧
      marks.capacity = w.elected.capacity ∧ (∀ x, marks.mem x ↔ x ∈ vars) ∧
      (setCandidates vars).run? w =
        .ok ((), { w with candidates, elected := marks, numCandidates := vars.length }) := by
  obtain ⟨marks, hcap, hmem, hrun⟩ := run_setCandidates w vars
  obtain ⟨candidates, hassign, hb⟩ := Bounded.assign_ok hfits hlen
  have hfind : (vars.find? fun x => w.elected.capacity ≤ x) = none := by simpa using hlt
  rw [takeWhile_lt_eq_self hlt] at hmem
  simp only [hfind, hassign] at hrun
  exact ⟨candidates, marks, hb, hcap, hmem, Update.run?_eq_ok_iff.2 hrun⟩

/-- A variable that is out of range or a list that is too long is a fault. -/
theorem setCandidates_error {vars : List Nat}
    (h : ¬((∀ x ∈ vars, x < w.elected.capacity) ∧ vars.length ≤ w.candidates.window.cap.toNat)) :
    ∃ f, (setCandidates vars).run? w = .error f := by
  obtain ⟨marks, -, -, hrun⟩ := run_setCandidates w vars
  cases hfind : vars.find? fun x => w.elected.capacity ≤ x with
  | some x =>
    refine ⟨.bitOutOfRange x w.elected.capacity, ?_⟩
    rw [Update.run?, hrun, hfind]
  | none =>
    have hlt : ∀ x ∈ vars, x < w.elected.capacity := by simpa using hfind
    refine ⟨.failedCheck, ?_⟩
    rw [Update.run?, hrun, hfind, assign_error fun hlen => h ⟨hlt, hlen⟩]

/-- What electing variables leads to. -/
structure Elects (w w' : WorkingSet) (vars : List Nat) : Prop where
  wf : w'.Wf
  contents : w'.candidates.contents = vars
  elected : ∀ x, w'.elected.mem x ↔ x ∈ vars
  sized : ∀ n, w.Sized n → w'.Sized n
  same : w' = { w with candidates := w'.candidates, elected := w'.elected, numCandidates := vars.length }

/-- Electing variables, where there is room for them. -/
theorem setCandidates_ends {vars : List Nat} (hw : w.Wf)
    (h : (∀ f, E f) ∨ (∀ x ∈ vars, x < w.elected.capacity) ∧ vars.length ≤ w.candidates.window.cap.toNat) :
    Ends E ((setCandidates vars).run? w) fun r => w.Elects r.2 vars := by
  by_cases hok : (∀ x ∈ vars, x < w.elected.capacity) ∧ vars.length ≤ w.candidates.window.cap.toNat
  · obtain ⟨candidates, marks, hb, hcap, hmem, hrun⟩ := setCandidates_ok hw.candidates hok.1 hok.2
    rw [hrun, ends_ok]
    refine ⟨⟨hb.fits hw.candidates, hw.units, hw.nodup, hw.marked⟩, hb.contents, hmem, fun n hs => ?_, rfl⟩
    exact ⟨hb.cap.trans hs.candidates, hs.units, hs.unitMarks, hcap.trans hs.elected, hs.seen, hs.below⟩
  · obtain ⟨f, hrun⟩ := setCandidates_error hok
    rw [hrun]
    exact h.resolve_right hok f

end WorkingSet

end CnfSimp
