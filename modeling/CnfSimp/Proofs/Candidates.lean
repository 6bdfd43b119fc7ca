import CnfSimp.Proofs.WorkingSet

/-!
# Elected variables and their marks

The marks are cleared and set first and the list is written last, so a call that faults in between has changed the
marks only.

* `verdict`: how one call ends.
* `WorkingSet.Carries`: the list, the count and the marks of a working set. `WorkingSet.Carries.setCandidates` is what
  one call makes of them, also when it faults, and `WorkingSet.Carries.after` what a sequence of calls does.
* `WorkingSet.candidates_after`: the list and the count are those of the last call that succeeded (`lastElected`), the
  marks are those of the last call (`lastMarked`), and they match if it succeeded.
-/

namespace CnfSimp

variable {n : Nat} {vars : List Nat}

/-! ## Calls -/

/-- How electing variables ends in a working set for `n` variables. -/
def verdict (n : Nat) (vars : List Nat) : Except Fault Unit :=
  match vars.find? fun x => n ≤ x with
  | some x => .error (.bitOutOfRange x n)
  | none => if vars.length ≤ n then .ok () else .error .failedCheck

/-- Exactly the lists of variables in range that are not too long are elected. -/
theorem verdict_eq_ok_iff : verdict n vars = .ok () ↔ (∀ x ∈ vars, x < n) ∧ vars.length ≤ n := by
  unfold verdict
  cases hfind : vars.find? fun x => n ≤ x with
  | some x =>
    have hle : n ≤ x := by simpa using List.find?_some hfind
    exact ⟨nofun, fun ⟨hlt, _⟩ => absurd (hlt x (List.mem_of_find?_eq_some hfind)) (Nat.not_lt.2 hle)⟩
  | none =>
    have hlt : ∀ x ∈ vars, x < n := by simpa using hfind
    simp only [ite_eq_ok_iff, true_and]
    exact ⟨fun hlen => ⟨hlt, hlen⟩, And.right⟩

/-- The list of the last call that succeeds; `start` if there is none. -/
def lastElected (n : Nat) (start : List Nat) (calls : List (List Nat)) : List Nat :=
  (calls.filter fun vars => verdict n vars = .ok ()).getLast?.getD start

/-- What the last call marks: the variables of its list in front of the first that is out of range; those of `start` if
there is no call. -/
def lastMarked (n : Nat) (start : List Nat) (calls : List (List Nat)) : List Nat :=
  (calls.getLast?.getD start).takeWhile fun x => x < n

theorem lastElected_snoc (start : List Nat) (calls : List (List Nat)) (vars : List Nat) :
    lastElected n start (calls ++ [vars]) =
      if verdict n vars = .ok () then vars else lastElected n start calls := by
  unfold lastElected
  rw [List.filter_append]
  split
  · next h => simp [h]
  · next h => simp [h]

theorem lastMarked_snoc (start : List Nat) (calls : List (List Nat)) (vars : List Nat) :
    lastMarked n start (calls ++ [vars]) = vars.takeWhile fun x => x < n := by
  unfold lastMarked
  rw [List.getLast?_concat, Option.getD_some]

theorem lt_of_mem_lastMarked {start : List Nat} {calls : List (List Nat)} {x : Nat}
    (h : x ∈ lastMarked n start calls) : x < n := by
  simpa using List.mem_takeWhile_imp h

/-- A last call that succeeds marks the variables of its list. -/
theorem lastMarked_eq_lastElected {start : List Nat} {calls : List (List Nat)} (hstart : ∀ x ∈ start, x < n)
    (hlast : ∀ vars, calls.getLast? = some vars → verdict n vars = .ok ()) :
    lastMarked n start calls = lastElected n start calls := by
  rcases List.eq_nil_or_concat calls with rfl | ⟨calls, vars, rfl⟩
  · exact takeWhile_lt_eq_self hstart
  · rw [List.concat_eq_append] at *
    have hok := hlast vars List.getLast?_concat
    rw [lastMarked_snoc, lastElected_snoc, if_pos hok, takeWhile_lt_eq_self (verdict_eq_ok_iff.1 hok).1]

namespace WorkingSet

variable {w w' : WorkingSet} {list marked start : List Nat}

/-! ## One call -/

/-- A list of elected variables for which there is room for `n`, their count, and marks for those of another list.
What else the working set holds is free. -/
structure Carries (w : WorkingSet) (n : Nat) (list marked : List Nat) : Prop where
  fits : w.candidates.Fits
  cap : w.candidates.window.cap = .ofNat n
  capacity : w.elected.capacity = n
  contents : w.candidates.contents = list
  count : w.numCandidates = list.length
  marks : ∀ x, w.elected.mem x ↔ x ∈ marked

/-- Only the elected variables have changed. -/
def SameButElected (w w' : WorkingSet) : Prop :=
  w' = { w with candidates := w'.candidates, elected := w'.elected, numCandidates := w'.numCandidates }

/-- Asking for the mark of a variable. -/
theorem Carries.isElected_eq (h : w.Carries n list marked) (x : Nat) :
    w.isElected x = if x < n then .ok (decide (x ∈ marked)) else .error (.bitOutOfRange x n) := by
  unfold isElected
  split
  · next hx =>
    rw [BitSet.contains_ok (h.capacity.symm ▸ hx)]
    exact congrArg _ (Bool.eq_iff_iff.2 ((h.marks x).trans decide_eq_true_iff.symm))
  · next hx => rw [BitSet.contains_error (h.capacity.symm ▸ hx), h.capacity]

/-- Asking for the list. -/
theorem Carries.candidateVars_eq (h : w.Carries n list marked) : w.candidateVars = .ok list := by
  rw [← h.contents]
  exact Bounded.entries_ok h.fits

/-- There is room in the list for as many variables as there are. -/
theorem Carries.cap_eq (h : w.Carries n list marked) (hn : n < 2 ^ 32) : w.candidates.window.cap.toNat = n := by
  rw [h.cap]
  exact Nat.mod_eq_of_lt hn

/-- A call that faults has changed the marks only. -/
theorem Carries.run_setCandidates_of_error {f : Fault} (hn : n < 2 ^ 32) (h : w.Carries n list marked)
    (hverdict : verdict n vars = .error f) :
    ∃ marks : BitSet, marks.capacity = n ∧ (∀ x, marks.mem x ↔ x ∈ vars.takeWhile fun x => x < n) ∧
      (setCandidates vars).run.run w = (.error f, { w with elected := marks }) := by
  obtain ⟨marks, hcap, hmem, hrun⟩ := run_setCandidates w vars
  rw [h.capacity] at hcap hmem hrun
  refine ⟨marks, hcap, hmem, hrun.trans ?_⟩
  unfold verdict at hverdict
  cases hfind : vars.find? fun x => n ≤ x with
  | some x =>
    rw [hfind] at hverdict
    cases hverdict
    rfl
  | none =>
    rw [hfind] at hverdict
    simp only at hverdict
    split at hverdict
    · cases hverdict
    · next hlen =>
      cases hverdict
      rw [← h.cap_eq hn] at hlen
      rw [assign_error hlen]

/-- What one call makes of the list, the count and the marks. -/
theorem Carries.setCandidates (hn : n < 2 ^ 32) (h : w.Carries n list marked) (vars : List Nat) :
    ∃ w', (setCandidates vars).run.run w = (verdict n vars, w') ∧ w.SameButElected w' ∧
      w'.Carries n (if verdict n vars = .ok () then vars else list) (vars.takeWhile fun x => x < n) := by
  cases hverdict : verdict n vars with
  | ok _ =>
    obtain ⟨hlt, hlen⟩ := verdict_eq_ok_iff.1 hverdict
    rw [← h.cap_eq hn] at hlen
    obtain ⟨candidates, marks, hb, hcap, hmem, hrun⟩ := setCandidates_ok h.fits (h.capacity.symm ▸ hlt) hlen
    refine ⟨_, Update.run?_eq_ok_iff.1 hrun, rfl, ?_⟩
    rw [if_pos rfl, takeWhile_lt_eq_self hlt]
    exact ⟨hb.fits h.fits, hb.cap.trans h.cap, hcap.trans h.capacity, hb.contents, rfl, hmem⟩
  | error f =>
    obtain ⟨marks, hcap, hmem, hrun⟩ := h.run_setCandidates_of_error hn hverdict
    refine ⟨_, hrun, rfl, ?_⟩
    rw [if_neg nofun]
    exact ⟨h.fits, h.cap, hcap, h.contents, h.count, hmem⟩

/-! ## Sequences of calls -/

/-- The working set that a sequence of calls leaves behind, whether they succeed or not. -/
def after (w : WorkingSet) (calls : List (List Nat)) : WorkingSet :=
  calls.foldl (fun w vars => ((setCandidates vars).run.run w).2) w

theorem after_snoc (w : WorkingSet) (calls : List (List Nat)) (vars : List Nat) :
    w.after (calls ++ [vars]) = ((setCandidates vars).run.run (w.after calls)).2 := by
  unfold after
  rw [List.foldl_append, List.foldl_cons, List.foldl_nil]

/-- What a sequence of calls makes of the list, the count and the marks. -/
theorem Carries.after (hn : n < 2 ^ 32) (h : w.Carries n start start) (hstart : ∀ x ∈ start, x < n)
    (calls : List (List Nat)) :
    w.SameButElected (w.after calls) ∧
      (w.after calls).Carries n (lastElected n start calls) (lastMarked n start calls) := by
  induction calls using List.reverseRecOn with
  | nil =>
    refine ⟨rfl, ?_⟩
    show w.Carries n start (start.takeWhile fun x => x < n)
    rwa [takeWhile_lt_eq_self hstart]
  | append_singleton calls vars ih =>
    obtain ⟨hsame, hcarries⟩ := ih
    obtain ⟨w', hrun, hsame', hcarries'⟩ := hcarries.setCandidates hn vars
    rw [after_snoc, hrun, lastElected_snoc, lastMarked_snoc]
    refine ⟨?_, hcarries'⟩
    unfold SameButElected at *
    rw [hsame', hsame]

/-- A working set that nothing has been elected in. -/
theorem carries_empty (n : Nat) : (empty n).Carries n [] [] where
  fits := (wf_empty n).candidates
  cap := rfl
  capacity := rfl
  contents := Bounded.contents_of_rawLen rfl
  count := rfl
  marks := by simp [empty, BitSet.mem_empty]

/-- **Marks, list and count.** Behind a sequence of calls, whether they succeed or not, the list and the count are those
of the last call that succeeds, and the marks are those that the last call has set, up to the first variable that is
out of range. So marks and list match if the last call succeeds. A call fails on a variable that is out of range or on
a list that is too long, and nothing but marks, list and count changes. -/
theorem candidates_after (hn : n < 2 ^ 32) (hw : w.Carries n start start) (hstart : ∀ x ∈ start, x < n)
    (calls : List (List Nat)) :
    (w.after calls).candidateVars = .ok (lastElected n start calls) ∧
      (w.after calls).numCandidates = (lastElected n start calls).length ∧
      (∀ x, (w.after calls).isElected x =
        if x < n then .ok (decide (x ∈ lastMarked n start calls)) else .error (.bitOutOfRange x n)) ∧
      ((∀ vars, calls.getLast? = some vars → verdict n vars = .ok ()) →
        ∀ x, (w.after calls).isElected x = .ok true ↔ x ∈ lastElected n start calls) ∧
      (∀ vars, ((setCandidates vars).run.run (w.after calls)).1 = verdict n vars) ∧
      w.SameButElected (w.after calls) := by
  obtain ⟨hsame, hcarries⟩ := hw.after hn hstart calls
  refine ⟨hcarries.candidateVars_eq, hcarries.count, hcarries.isElected_eq, fun hlast x => ?_, fun vars => ?_, hsame⟩
  · rw [hcarries.isElected_eq, ← lastMarked_eq_lastElected hstart hlast]
    split
    · simp
    · next hx =>
      constructor
      · intro h
        cases h
      · exact fun hmem => absurd (lt_of_mem_lastMarked hmem) hx
  · obtain ⟨w', hrun, -⟩ := hcarries.setCandidates hn vars
    rw [hrun]

/-- A call that succeeds, one with a variable that is out of range and one with too many variables. -/
theorem candidates_after_three_calls :
    ((empty 3).after [[2, 0], [1, 5, 0], [0, 1, 0, 1]]).candidateVars = .ok [2, 0] ∧
      ((empty 3).after [[2, 0], [1, 5, 0]]).isElected 0 = .ok false ∧
      ((empty 3).after [[2, 0], [1, 5, 0]]).isElected 1 = .ok true ∧
      (∀ x, ((empty 3).after [[2, 0], [1, 5, 0], [0, 1, 0, 1], [1]]).isElected x = .ok true ↔ x ∈ [1]) ∧
      ∀ vars, ((setCandidates vars).run.run ((empty 3).after [[2, 0]])).1 = verdict 3 vars := by
  have h := candidates_after (n := 3) (by decide) (carries_empty 3) nofun
  refine ⟨(h [[2, 0], [1, 5, 0], [0, 1, 0, 1]]).1, (h [[2, 0], [1, 5, 0]]).2.2.1 0, (h [[2, 0], [1, 5, 0]]).2.2.1 1,
    (h [[2, 0], [1, 5, 0], [0, 1, 0, 1], [1]]).2.2.2.1 ?_, (h [[2, 0]]).2.2.2.2.1⟩
  rintro _ ⟨⟩
  rfl

/-- A call that faults leaves marks behind that are not those of the list. -/
theorem faulting_call_changes_marks :
    ((empty 2).after [[0]]).candidateVars = .ok [0] ∧ ((empty 2).after [[0]]).isElected 0 = .ok true ∧
      ((setCandidates [1, 2]).run.run ((empty 2).after [[0]])).1 = .error (.bitOutOfRange 2 2) ∧
      ((empty 2).after [[0], [1, 2]]).candidateVars = .ok [0] ∧
      ((empty 2).after [[0], [1, 2]]).numCandidates = 1 ∧
      ((empty 2).after [[0], [1, 2]]).isElected 0 = .ok false ∧
      ((empty 2).after [[0], [1, 2]]).isElected 1 = .ok true := by
  decide

end WorkingSet

end CnfSimp
