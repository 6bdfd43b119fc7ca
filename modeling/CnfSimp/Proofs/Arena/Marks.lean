import CnfSimp.Proofs.Arena.Edit

/-!
# Marking clauses

A mark decides on what becomes of a clause: it is melted, frozen or deleted, or gets another status. Other calls change
the literals of the clause and leave its marks alone.

* `Clause.Mark`, `Arena.marked`: the marks, and the arena behind one.
* `Clause.Call`, `Arena.calledAll`: all calls on one clause, and the arena behind them, whether they fault or not.
  `Arena.stands_calledAll` tells the marks behind them.
* `Arena.deletion_undone_iff`: a deleted clause stays deleted unless it is given another status. That faults, but it is
  deleted no longer (`Arena.deleted_clause_revived`).
-/

namespace CnfSimp

namespace Clause

/-- The operations that decide on what becomes of a clause, and leave its literals alone. -/
inductive Mark where
  | melt
  | freeze
  | delete
  | status (s : Status)

namespace Mark

/-- The operation on a clause. A status is stored in a deleted clause as well, although it faults. -/
def op : Mark → Update Clause Unit
  | melt => Clause.melt
  | freeze => Clause.freeze
  | delete => Clause.delete
  | status s => setStatus s

/-- The header that the operation leaves. -/
def apply (h : Header) : Mark → Header
  | melt => { h with molten := true }
  | freeze => { h with molten := false }
  | delete => { h with code := Status.deleted.code }
  | status s => { h with code := s.code }

theorem run_op (m : Mark) (c : Clause) : (m.op.run.run c).2 = ⟨m.apply c.header, c.cells⟩ := by
  cases m with
  | melt => rfl
  | freeze => rfl
  | delete => rfl
  | status s =>
    show ((setStatus s).run.run c).2 = _
    simp only [setStatus, onHeader, Update.run_bind, Update.run_get, Update.run_modify]
    cases hs : c.header.status with
    | ok was => simp only [Update.run_lift, Update.run_require, apply]
    | error e => simp only [Update.run_lift, apply]

/-- The header has a status if it had one. -/
theorem status_apply (m : Mark) {h : Header} (hs : ∃ s, h.status = .ok s) : ∃ s, (m.apply h).status = .ok s := by
  cases m with
  | melt => exact hs
  | freeze => exact hs
  | delete => exact ⟨.deleted, Header.status_eq_ok_iff.2 rfl⟩
  | status s => exact ⟨s, Header.status_eq_ok_iff.2 rfl⟩

end Mark

/-! ## Calls -/

/-- The calls that change a clause where it lies. -/
inductive Call where
  | mark (m : Mark)
  | erase (l : Lit)
  | dedup
  | resize (n : Nat)

namespace Call

/-- The call on a clause. -/
def op : Call → Update Clause Unit
  | mark m => m.op
  | erase l => do let _ ← Clause.erase l
  | dedup => Clause.dedup
  | resize n => Clause.resize n

/-- The status behind a call. -/
def status (was : Status) : Call → Status
  | mark .delete => .deleted
  | mark (.status s) => s
  | _ => was

/-- Whether the clause is melted behind a call. -/
def molten (was : Bool) : Call → Bool
  | mark .melt => true
  | mark .freeze => false
  | _ => was

end Call

/-- Two states of a clause with the same marks. -/
structure SameMarks (c d : Clause) : Prop where
  code : d.header.code = c.header.code
  molten : d.header.molten = c.header.molten

instance : Std.Refl SameMarks := ⟨fun _ => ⟨rfl, rfl⟩⟩

instance : IsTrans Clause SameMarks := ⟨fun _ _ _ h h' => ⟨h'.code.trans h.code, h'.molten.trans h.molten⟩⟩

section Keeps

open Update

theorem onCells_keeps (op : Update (Array Lit) Unit) : (onCells op).Keeps SameMarks := fun _ => ⟨rfl, rfl⟩

theorem resize_keeps (n : Nat) : (Clause.resize n).Keeps SameMarks := .modify fun _ => ⟨rfl, rfl⟩

theorem setSig_keeps (sig : UInt32) : (setSig sig).Keeps SameMarks := .modify fun _ => ⟨rfl, rfl⟩

theorem setLit_keeps (i : Nat) (l : Lit) : (setLit i l).Keeps SameMarks := .bind .get fun _ => onCells_keeps _

theorem refreshSig_keeps : refreshSig.Keeps SameMarks :=
  .bind .get fun _ => .bind (.lift _) fun _ => .bind (setSig_keeps _) fun _ => .pure _

theorem keep_keeps (k : Kept) (prev next : Lit) : (keep k prev next).Keeps SameMarks := by
  unfold keep
  split
  · exact .pure _
  · exact .bind (setLit_keeps _ _) fun _ => .pure _

theorem keepFrom_keeps (i : Nat) (prev : Lit) (k : Kept) (count : Nat) : (keepFrom i prev k count).Keeps SameMarks := by
  induction count generalizing i prev k with
  | zero => exact .pure _
  | succ count ih => exact .bind .get fun _ => .bind (.lift _) fun _ => .bind (keep_keeps _ _ _) fun _ => ih _ _ _

/-- Dropping a literal leaves the marks alone, also if it faults. -/
theorem erase_keeps (l : Lit) : (erase l).Keeps SameMarks := by
  refine .bind .get fun c => .bind (.lift _) fun lits => ?_
  cases lits.idxOf? l with
  | none => exact .pure _
  | some pos =>
    exact .bind (onCells_keeps _) fun _ => .bind (resize_keeps _) fun _ => .bind refreshSig_keeps fun _ => .pure _

/-- Dropping repetitions leaves the marks alone, also if it faults. -/
theorem dedup_keeps : dedup.Keeps SameMarks := by
  refine .bind .get fun c => ?_
  split
  · exact setSig_keeps _
  · exact .bind (.lift _) fun _ => .bind (keepFrom_keeps _ _ _ _) fun _ => .bind (resize_keeps _) fun _ =>
      setSig_keeps _

end Keeps

theorem SameMarks.status {c d : Clause} {s : Status} (h : SameMarks c d) (hs : c.header.status = .ok s) :
    d.header.status = .ok s := by
  rw [Header.status_eq_ok_iff, h.code]
  exact Header.status_eq_ok_iff.1 hs

/-- The marks behind a call, whether it faults or not. -/
theorem Call.run_op (q : Call) {c : Clause} {s : Status} (hs : c.header.status = .ok s) :
    (q.op.run.run c).2.header.status = .ok (q.status s) ∧
      (q.op.run.run c).2.header.molten = q.molten c.header.molten := by
  cases q with
  | mark m =>
    show (m.op.run.run c).2.header.status = _ ∧ (m.op.run.run c).2.header.molten = _
    rw [m.run_op]
    cases m with
    | melt => exact ⟨hs, rfl⟩
    | freeze => exact ⟨hs, rfl⟩
    | delete => exact ⟨Header.status_eq_ok_iff.2 rfl, rfl⟩
    | status s => exact ⟨Header.status_eq_ok_iff.2 rfl, rfl⟩
  | erase l =>
    have hkeeps : Update.Keeps SameMarks (Call.erase l).op := .bind (erase_keeps l) fun _ => .pure _
    exact ⟨(hkeeps c).status hs, (hkeeps c).molten⟩
  | dedup => exact ⟨(dedup_keeps c).status hs, (dedup_keeps c).molten⟩
  | resize n => exact ⟨(resize_keeps n c).status hs, (resize_keeps n c).molten⟩

/-- A call keeps a clause deleted unless it gives it another status. -/
theorem Call.status_deleted_iff {q : Call} :
    q.status .deleted = .deleted ↔ ∀ s, q = mark (.status s) → s = .deleted := by
  constructor
  · rintro h s rfl
    exact h
  · intro h
    cases q with
    | mark m =>
      cases m with
      | status s => exact h s rfl
      | _ => rfl
    | _ => rfl

/-- Calls keep it deleted all along unless one of them does so. -/
theorem Call.foldl_status_deleted_iff (qs : List Call) :
    (∀ ps, ps <+: qs → ps.foldl status .deleted = .deleted) ↔ ∀ s, mark (.status s) ∈ qs → s = .deleted := by
  induction qs with
  | nil => simp
  | cons q qs ih =>
    have hcons : (∀ ps, ps <+: q :: qs → ps.foldl status .deleted = .deleted) ↔
        q.status .deleted = .deleted ∧ ∀ ps, ps <+: qs → ps.foldl status .deleted = .deleted := by
      constructor
      · intro h
        have hq : q.status .deleted = .deleted := h [q] (by simp)
        refine ⟨hq, fun ps hps => ?_⟩
        have := h (q :: ps) (List.cons_prefix_cons.2 ⟨rfl, hps⟩)
        rwa [List.foldl_cons, hq] at this
      · rintro ⟨hq, h⟩ ps hps
        rcases List.prefix_cons_iff.1 hps with rfl | ⟨ps, rfl, hrest⟩
        · rfl
        · rw [List.foldl_cons, hq]
          exact h ps hrest
    rw [hcons, ih, status_deleted_iff]
    simp only [List.mem_cons, or_imp, forall_and, eq_comm]

end Clause

theorem Header.live_iff {h : Header} {s : Status} (hs : h.status = .ok s) :
    h.live ↔ s ≠ .deleted ∧ h.molten = false := by
  rw [live, Header.status_eq_ok_iff.1 hs, Bool.and_eq_true, bne_iff_ne, ne_eq, Status.code_inj, Bool.not_eq_true']

namespace Arena

variable {a a' : Arena} {i : Nat} {s : Status} {molten : Bool}

/-- The arena after a clause was marked, also if that faults. -/
def marked (a : Arena) (i : Nat) (m : Clause.Mark) : Arena := ((onClause i m.op).run.run a).2

theorem marked_eq (hi : i < a.headers.size) (m : Clause.Mark) :
    a.marked i m = a.withHeader i (m.apply (a.header i)) := by
  rw [marked, run_onClause hi, m.run_op]
  rfl

theorem marked_of_le (hi : a.headers.size ≤ i) (m : Clause.Mark) : a.marked i m = a := by
  show (onClause i m.op a).2 = _
  unfold onClause
  simp only [Array.getElem?_eq_none hi]

theorem len_marked (a : Arena) (i : Nat) (m : Clause.Mark) : (a.marked i m).len = a.len := by
  rcases Nat.lt_or_ge i a.headers.size with hi | hi
  · rw [marked_eq hi, len_withHeader]
  · rw [marked_of_le hi]

/-- Marking a clause gives no slot a status that is none. -/
theorem Labelled.marked (ha : a.Labelled) (i : Nat) (m : Clause.Mark) : (a.marked i m).Labelled := by
  rcases Nat.lt_or_ge i a.headers.size with hi | hi
  · rw [marked_eq hi]
    intro j hj
    rw [len_withHeader] at hj
    rw [header_withHeader hi]
    split
    · next hji => exact m.status_apply (hji ▸ ha j hj)
    · exact ha j hj
  · rw [marked_of_le hi]
    exact ha

/-! ## Deletion -/

/-- The arena after a call on a clause, also if that faults. -/
def called (a : Arena) (i : Nat) (q : Clause.Call) : Arena := ((onClause i q.op).run.run a).2

/-- The arena after calls on a clause in sequence. -/
def calledAll (a : Arena) (i : Nat) (qs : List Clause.Call) : Arena := qs.foldl (called · i) a

/-- The marks of a clause in an arena that has as many slots as another one, and as many in use. -/
structure Stands (a : Arena) (i : Nat) (s : Status) (molten : Bool) (a' : Arena) : Prop where
  slots : a'.headers.size = a.headers.size
  len : a'.len = a.len
  status : (a'.header i).status = .ok s
  molten : (a'.header i).molten = molten

theorem Stands.called (h : Stands a i s molten a') (hi : i < a.headers.size) (q : Clause.Call) :
    Stands a i (q.status s) (q.molten molten) (a'.called i q) := by
  have hi' : i < a'.headers.size := h.slots.symm ▸ hi
  obtain ⟨hstatus, hmolten⟩ := q.run_op (c := a'.clauseAt i) h.status
  have hheader : (a'.called i q).header i = (q.op.run.run (a'.clauseAt i)).2.header := by
    rw [Arena.called, run_onClause hi']
    exact (header_withHeader hi' _).trans (if_pos rfl)
  have hslots : (a'.called i q).headers.size = a'.headers.size := by
    rw [Arena.called, run_onClause hi']
    exact Array.size_setIfInBounds
  have hlen : (a'.called i q).len = a'.len := by
    rw [Arena.called, run_onClause hi']
    exact len_withHeader a' i _
  refine ⟨hslots.trans h.slots, hlen.trans h.len, ?_, ?_⟩
  · rw [hheader]
    exact hstatus
  · rw [hheader, hmolten]
    exact congrArg q.molten h.molten

/-- The marks behind calls are those that the calls give one after another. -/
theorem stands_calledAll (hi : i < a.headers.size) (hs : (a.header i).status = .ok s) (qs : List Clause.Call) :
    Stands a i (qs.foldl Clause.Call.status s) (qs.foldl Clause.Call.molten (a.header i).molten)
      (a.calledAll i qs) := by
  suffices h : ∀ a' s m, Stands a i s m a' →
      Stands a i (qs.foldl Clause.Call.status s) (qs.foldl Clause.Call.molten m) (a'.calledAll i qs) from
    h a s _ ⟨rfl, rfl, hs, rfl⟩
  induction qs with
  | nil => exact fun a' s m h => h
  | cons q qs ih => exact fun a' s m h => ih _ _ _ (h.called hi q)

theorem Stands.alive_iff (h : Stands a i s molten a') : a'.alive i ↔ i < a.len ∧ s ≠ .deleted ∧ molten = false := by
  rw [Arena.alive_iff, h.len, Header.live_iff h.status, h.molten]

/-- The status of a deleted clause can be set. It is a fault, but the status is stored. -/
theorem run_setStatus_of_deleted (hi : i < a.headers.size) (hdel : (a.header i).status = .ok .deleted) (s : Status) :
    (onClause i (Clause.setStatus s)).run.run a =
      (.error .statusOfDeleted, a.withHeader i { a.header i with code := s.code }) := by
  have hrun : (Clause.setStatus s).run.run (a.clauseAt i) =
      (.error .statusOfDeleted, ⟨{ a.header i with code := s.code }, a.cells⟩) := by
    have hstatus : (a.clauseAt i).header.status = .ok .deleted := hdel
    simp only [Clause.setStatus, Clause.onHeader, Update.run_bind, Update.run_get, Update.run_modify, hstatus,
      Update.run_lift, Update.run_require]
    rfl
  rw [run_onClause hi, hrun]
  rfl

/-- A deleted clause can be given another status, which is a fault and undoes the deletion. Behind any calls, each of
which may fault, the clause has the status that the last of the calls to set one has given it, and it is live if that is
not deletion and it is not melted. So a clause stays deleted, and is never live, exactly as long as no call gives it
another status. -/
theorem deletion_undone_iff (hi : i < a.headers.size) (hdel : (a.header i).status = .ok .deleted) :
    (∀ s, (onClause i (Clause.setStatus s)).run.run a =
      (.error .statusOfDeleted, a.withHeader i { a.header i with code := s.code })) ∧
    ∀ qs : List Clause.Call,
      ((a.calledAll i qs).header i).status = .ok (qs.foldl Clause.Call.status .deleted) ∧
      ((a.calledAll i qs).alive i ↔ i < a.len ∧ qs.foldl Clause.Call.status .deleted ≠ .deleted ∧
        qs.foldl Clause.Call.molten (a.header i).molten = false) ∧
      ((∀ ps, ps <+: qs → ((a.calledAll i ps).header i).status = .ok .deleted ∧ ¬(a.calledAll i ps).alive i) ↔
        ∀ s, .mark (.status s) ∈ qs → s = .deleted) := by
  have hstands := stands_calledAll hi hdel
  refine ⟨run_setStatus_of_deleted hi hdel, fun qs => ⟨(hstands qs).status, (hstands qs).alive_iff, ?_⟩⟩
  rw [← Clause.Call.foldl_status_deleted_iff]
  refine forall₂_congr fun ps _ => ?_
  rw [(hstands ps).status, (hstands ps).alive_iff, Except.ok.injEq]
  exact ⟨And.left, fun h => ⟨h, fun hlive => hlive.2.1 h⟩⟩

/-- A deleted clause through calls that fault and calls that do not, and then another one. -/
theorem deletion_undone_iff_one_clause :
    let a : Arena := ⟨#[⟨0, 2, 5, 2, false⟩], #[⟨0⟩, ⟨2⟩], 1, 2⟩
    let qs : List Clause.Call := [.mark .melt, .erase ⟨0⟩, .mark (.status .deleted), .dedup, .mark .freeze, .resize 9]
    ((a.calledAll 0 qs).header 0).status = .ok .deleted ∧ ¬(a.calledAll 0 qs).alive 0 ∧
      (a.calledAll 0 (qs ++ [.erase ⟨0⟩, .mark (.status .learnt)])).alive 0 := by
  intro a qs
  obtain ⟨-, h⟩ := deletion_undone_iff (a := a) (i := 0) (by decide) (by decide)
  obtain ⟨hstatus, hdead⟩ := (h qs).2.2.2 (fun s hs => by simpa [qs] using hs) qs (List.prefix_refl qs)
  exact ⟨hstatus, hdead, (h _).2.1.2 (by decide)⟩

/-- The clause `{1, 2}` is deleted, and then made irredundant. -/
theorem deleted_clause_revived :
    (do
      let a ← ofDimacs [[1, 2]]
      let b := a.called 0 (.mark .delete)
      let c := b.called 0 (.mark (.status .irredundant))
      return (← (b.header 0).status, b.alive 0, ← (c.header 0).status, c.alive 0)) =
        .ok (.deleted, false, .irredundant, true) := by
  decide +kernel

end Arena

end CnfSimp
