import CnfSimp.Proofs.Clause.Membership
import CnfSimp.Clause.Edit

/-!
# Rewriting a clause where it lies

Dropping repetitions or a literal writes to cells that are still to be read. The place written to never lies in front
of the place read from, so what is read is what was there before.

* `Clause.run?_keepFrom`: keeping the literals of the clause itself, read one by one between the writes, comes to
  keeping a list of them that was read before (`Clause.keepAll`).
* `Clause.written`, `Clause.rewritten`: a clause with a list in its cells, without and with a header that says so.
* `Clause.run?_assignDedup`, `Clause.run?_dedup`: a list without adjacent repetitions, `List.destutter`, from outside
  and from the clause itself.
* `Clause.run?_erase`, `Clause.run?_erase_of_notMem`: dropping a literal.
-/

namespace CnfSimp.Clause

variable {c : Clause} {xs ys rest : List Lit} {l prev next : Lit} {k : Kept} {i : Nat}

/-! ## Parts of a clause -/

theorem run?_onCells (op : Update (Array Lit) Unit) (c : Clause) :
    (onCells op).run? c = op.run? c.cells >>= fun r => .ok (r.1, ⟨c.header, r.2⟩) := by
  have h : (onCells op).run.run c = ((op.run.run c.cells).1, ⟨c.header, (op.run.run c.cells).2⟩) := rfl
  unfold Update.run?
  rw [h]
  rcases op.run.run c.cells with ⟨_ | _, _⟩ <;> rfl

@[simp]
theorem run?_onHeader (f : Header → Header) (c : Clause) :
    (onHeader f).run? c = .ok ((), ⟨f c.header, c.cells⟩) := rfl

/-- Changing the status. -/
theorem run?_setStatus {s : Status} (hs : c.header.status = .ok s) (status : Status) : (setStatus status).run? c =
    if s ≠ .deleted then .ok ((), ⟨{ c.header with code := status.code }, c.cells⟩) else .error .statusOfDeleted := by
  by_cases hdel : s = .deleted <;> simp [setStatus, hs, hdel]

/-- Recomputing the signature of a clause that can be read. -/
theorem run?_refreshSig (h : c.lits = .ok xs) :
    refreshSig.run? c = .ok (signature xs, ⟨{ c.header with sig := signature xs }, c.cells⟩) := by
  simp [refreshSig, setSig, h]

theorem run?_setLit (hin : c.start + i < c.cells.size) (h64 : c.start + i < 2 ^ 64) :
    (setLit i l).run? c = .ok ((), ⟨c.header, c.cells.setIfInBounds (c.start + i) l⟩) := by
  rw [setLit, Update.run?_bind, Update.run?_get, ok_bind, run?_onCells, run?_writeCell hin h64, ok_bind]

/-! ## Keeping literals -/

/-- What is kept when it is the list `ys`. -/
def Kept.of (ys : List Lit) : Kept := ⟨ys.length, signature ys⟩

/-- The clause with a list in its cells. The header is as before. -/
def written (c : Clause) (ys : List Lit) : Clause := ⟨c.header, overwrite c.cells c.start ys⟩

/-- The clause with a list as its literals. -/
def rewritten (c : Clause) (ys : List Lit) : Clause :=
  ⟨{ c.header with size := .ofNat ys.length, sig := signature ys }, overwrite c.cells c.start ys⟩

theorem Kept.of_singleton (l : Lit) : Kept.of [l] = ⟨1, l.hashBit⟩ := by
  rw [of, signature_cons]
  exact congrArg _ UInt32.or_zero

theorem Kept.of_concat (ys : List Lit) (l : Lit) :
    Kept.of (ys ++ [l]) = ⟨(of ys).size + 1, (of ys).sig ||| l.hashBit⟩ := by
  rw [of, List.length_append, signature_append, signature_cons]
  exact congrArg _ (congrArg _ UInt32.or_zero)

theorem written_concat (c : Clause) (ys : List Lit) (l : Lit) : c.written (ys ++ [l]) =
    ⟨c.header, (c.written ys).cells.setIfInBounds ((c.written ys).start + (Kept.of ys).size) l⟩ := by
  rw [written, overwrite_append]
  rfl

theorem keep_self (k : Kept) (l : Lit) : keep k l l = pure k := if_pos rfl

/-- A literal that differs from the one before it is written behind those kept. -/
theorem run?_keep_of_ne (hne : next ≠ prev) (hin : c.start + k.size < c.cells.size)
    (h64 : c.start + k.size < 2 ^ 64) : (keep k prev next).run? c =
      .ok (⟨k.size + 1, k.sig ||| next.hashBit⟩, ⟨c.header, c.cells.setIfInBounds (c.start + k.size) next⟩) := by
  rw [keep, if_neg hne, Update.run?_bind, run?_setLit hin h64]
  rfl

/-- Keeping a literal behind a list that is kept already. -/
theorem run?_keep_written (hne : next ≠ prev) (hin : c.start + ys.length < c.cells.size)
    (h64 : c.start + ys.length < 2 ^ 64) :
    (keep (.of ys) prev next).run? (c.written ys) = .ok (.of (ys ++ [next]), c.written (ys ++ [next])) := by
  have hin : c.start + ys.length < (overwrite c.cells c.start ys).size := by rwa [size_overwrite]
  rw [run?_keep_of_ne hne hin h64, Kept.of_concat, written_concat]
  rfl

theorem run?_keepFrom_succ {count : Nat} (h : c.lit i = .ok next) :
    (keepFrom i prev k (count + 1)).run? c =
      (keep k prev next).run? c >>= fun r => (keepFrom (i + 1) next r.1 count).run? r.2 := by
  simp [keepFrom, h]

theorem run?_keepAll_cons : (keepAll prev k (next :: rest)).run? c =
    (keep k prev next).run? c >>= fun r => (keepAll next r.1 rest).run? r.2 := Update.run?_bind _ _

/-- Literals are kept from cells that were not written to yet: no more are kept than were read. -/
theorem run?_keepFrom (hsize : i + rest.length = c.size) (hin : c.start + c.size ≤ c.cells.size)
    (h64 : c.start + c.size < 2 ^ 64) (hrest : slice c.cells (c.start + i) rest.length = rest) (hlag : k.size ≤ i) :
    (keepFrom i prev k rest.length).run? c = (keepAll prev k rest).run? c := by
  induction rest generalizing c i prev k with
  | nil => rfl
  | cons next rest ih =>
    rw [List.length_cons] at hsize hrest
    rw [slice_succ (by omega), List.cons.injEq] at hrest
    obtain ⟨hnext, hrest⟩ := hrest
    have hget : c.cells[c.start + i]? = some next := by rw [Array.getElem?_eq_getElem (by omega), hnext]
    rw [List.length_cons, run?_keepFrom_succ (lit_of_cell (by omega) (by omega) hget), run?_keepAll_cons]
    have hsize : i + 1 + rest.length = c.size := by omega
    by_cases he : next = prev
    · rw [he, keep_self, Update.run?_pure, ok_bind, ok_bind]
      exact ih hsize hin h64 hrest (Nat.le_succ_of_le hlag)
    · rw [run?_keep_of_ne he (by omega) (by omega), ok_bind, ok_bind]
      have hstill : slice (c.cells.setIfInBounds (c.start + k.size) next) (c.start + (i + 1)) rest.length = rest :=
        (slice_congr fun p hp _ => Array.getElem?_setIfInBounds_ne (by omega)).trans hrest
      exact ih hsize (by rw [Array.size_setIfInBounds]; exact hin) h64 hstill (Nat.succ_le_succ hlag)

/-- What is kept of a list, behind a part that is kept already. -/
theorem run?_keepAll (ys : List Lit) (hin : c.start + (ys ++ rest.destutter' (· ≠ ·) prev).length ≤ c.cells.size)
    (h64 : c.start + (ys ++ rest.destutter' (· ≠ ·) prev).length < 2 ^ 64) :
    (keepAll prev (.of (ys ++ [prev])) rest).run? (c.written (ys ++ [prev])) =
      .ok (.of (ys ++ rest.destutter' (· ≠ ·) prev), c.written (ys ++ rest.destutter' (· ≠ ·) prev)) := by
  induction rest generalizing ys prev with
  | nil => rfl
  | cons next rest ih =>
    rw [run?_keepAll_cons]
    by_cases he : next = prev
    · rw [List.destutter'_cons_neg _ (by simp [he])] at hin h64 ⊢
      rw [he, keep_self]
      exact ih _ hin h64
    · have hsplit : ys ++ (next :: rest).destutter' (· ≠ ·) prev =
          ys ++ [prev] ++ rest.destutter' (· ≠ ·) next := by
        rw [List.destutter'_cons_pos (R := (· ≠ ·)) _ (Ne.symm he), List.append_assoc, List.singleton_append]
      rw [hsplit] at hin h64 ⊢
      have hnext : 0 < (rest.destutter' (· ≠ ·) next).length := List.length_pos_of_mem (List.mem_destutter' _ _ _)
      have hroom : (ys ++ [prev]).length < (ys ++ [prev] ++ rest.destutter' (· ≠ ·) next).length := by
        simp only [List.length_append, List.length_singleton]
        omega
      rw [run?_keep_written he (by omega) (by omega), ok_bind]
      exact ih _ hin h64

/-! ## Dropping repetitions -/

theorem run?_keepOnly (ys : List Lit) : (keepOnly (.of ys)).run? (c.written ys) = .ok ((), c.rewritten ys) := rfl

/-- Keeping a list to the end, from its first literal on, which is written already. -/
theorem run?_keepAll_keepOnly (hin : c.start + (rest.destutter' (· ≠ ·) prev).length ≤ c.cells.size)
    (h64 : c.start + (rest.destutter' (· ≠ ·) prev).length < 2 ^ 64) :
    ((keepAll prev ⟨1, prev.hashBit⟩ rest).run? (c.written [prev]) >>= fun r => (keepOnly r.1).run? r.2) =
      .ok ((), c.rewritten (rest.destutter' (· ≠ ·) prev)) := by
  have hkeep := run?_keepAll [] hin h64
  rw [List.nil_append, List.nil_append] at hkeep
  rw [← Kept.of_singleton, hkeep, ok_bind, run?_keepOnly]

/-- A clause with room for them becomes the literals of a list without adjacent repetitions. -/
theorem run?_assignDedup (hin : c.start + (xs.destutter (· ≠ ·)).length ≤ c.cells.size)
    (h64 : c.start + (xs.destutter (· ≠ ·)).length < 2 ^ 64) :
    (assignDedup xs).run? c = .ok ((), c.rewritten (xs.destutter (· ≠ ·))) := by
  cases xs with
  | nil => rfl
  | cons first rest =>
    rw [List.destutter_cons'] at hin h64 ⊢
    have hpos : 0 < (rest.destutter' (· ≠ ·) first).length := List.length_pos_of_mem (List.mem_destutter' _ _ _)
    rw [assignDedup, Update.run?_bind, run?_setLit (by omega) (by omega), ok_bind, Update.run?_bind]
    exact run?_keepAll_keepOnly hin h64

/-- A clause that can be read begins with its first literal, and the others stand behind it. -/
theorem split_lits {first : Lit} (h : c.lits = .ok (first :: rest)) :
    c.written [first] = c ∧ slice c.cells (c.start + 1) rest.length = rest := by
  have hsize : c.size = rest.length + 1 := (length_of_lits h).symm
  obtain ⟨-, hin, hslice⟩ := block_eq_ok_iff.1 h
  rw [hsize, slice_succ (by omega), List.cons.injEq] at hslice
  have hfirst : slice c.cells c.start 1 = [first] := by rw [slice_succ (by omega), slice_zero, hslice.1]
  exact ⟨by rw [written, ← hfirst, overwrite_slice], hslice.2⟩

/-- A clause that can be read loses its adjacent repetitions. -/
theorem run?_dedup (h : c.lits = .ok xs) : dedup.run? c = .ok ((), c.rewritten (xs.destutter (· ≠ ·))) := by
  have hlen := length_of_lits h
  obtain ⟨h64, hin, -⟩ := block_eq_ok_iff.1 h
  rw [dedup, Update.run?_bind, Update.run?_get, ok_bind]
  dsimp only
  cases xs with
  | nil =>
    have hsize : c.header.size = .ofNat 0 := UInt32.toNat_inj.1 hlen.symm
    rw [if_pos (show c.size = 0 from hlen.symm)]
    show Except.ok _ = Except.ok ((), Clause.mk { c.header with size := .ofNat 0, sig := signature [] } _)
    rw [← hsize]
    rfl
  | cons first rest =>
    have hsize : c.size = rest.length + 1 := hlen.symm
    have hkept := (List.destutter_sublist (· ≠ ·) (first :: rest)).length_le
    rw [List.destutter_cons'] at hkept ⊢
    obtain ⟨hfirst, hbehind⟩ := split_lits h
    rw [if_neg (by rw [hsize]; exact Nat.succ_ne_zero _), Update.run?_bind, Update.run?_lift,
      lit_ok h (Nat.zero_lt_succ _), ok_bind, ok_bind, Update.run?_bind, hsize, Nat.add_sub_cancel,
      List.getElem_cons_zero, run?_keepFrom (by omega) hin h64 hbehind (Nat.le_refl 1)]
    have hend : c.start + (rest.destutter' (· ≠ ·) first).length ≤ c.start + c.size := by
      rw [hsize]
      exact Nat.add_le_add_left hkept _
    have hrun := run?_keepAll_keepOnly (Nat.le_trans hend hin) (Nat.lt_of_le_of_lt hend h64)
    rwa [hfirst] at hrun

/-! ## Dropping a literal -/

/-- A rewritten clause that has not grown has its list as literals. -/
theorem lits_rewritten (h : c.lits = .ok xs) (hle : ys.length ≤ xs.length) : (c.rewritten ys).lits = .ok ys := by
  have hlen := length_of_lits h
  have hlt := length_lt_of_lits h
  obtain ⟨h64, hin, -⟩ := block_eq_ok_iff.1 h
  have hsize : (c.rewritten ys).size = ys.length := Nat.mod_eq_of_lt (Nat.lt_of_le_of_lt hle hlt)
  refine block_eq_ok_iff.2 ⟨?_, ?_, ?_⟩
  · rw [hsize]
    show c.start + _ < _
    omega
  · rw [hsize]
    show c.start + _ ≤ (overwrite _ _ _).size
    rw [size_overwrite]
    omega
  · rw [hsize]
    exact slice_overwrite (by omega)

theorem idxOf?_append_cons_self {before behind : List Lit} (h : l ∉ before) :
    (before ++ l :: behind).idxOf? l = some before.length := by
  induction before with
  | nil => rw [List.nil_append, List.idxOf?_cons, if_pos (beq_self_eq_true l)]; rfl
  | cons k before ih =>
    rw [List.mem_cons, not_or] at h
    obtain ⟨hk, h⟩ := h
    rw [List.cons_append, List.idxOf?_cons, if_neg (by simpa using Ne.symm hk), ih h]
    rfl

/-- A literal that is not there. -/
theorem run?_erase_of_notMem (h : c.lits = .ok xs) (hl : l ∉ xs) : (erase l).run? c = .ok (false, c) := by
  rw [erase, Update.run?_bind, Update.run?_get, ok_bind, Update.run?_bind, Update.run?_lift, h, ok_bind, ok_bind,
    List.idxOf?_eq_none_iff.2 hl]
  rfl

/-- The cells behind the first occurrence of a literal move one place down. -/
theorem run?_moveCells_erase (h : c.lits = .ok xs) (hl : l ∈ xs) : ∃ pos, xs.idxOf? l = some pos ∧
    (moveCells (c.start + 1) c.start pos (c.size - 1 - pos)).run? c.cells =
      .ok ((), (c.written (xs.erase l)).cells) := by
  have hlen := length_of_lits h
  obtain ⟨h64, hin, hslice⟩ := block_eq_ok_iff.1 h
  obtain ⟨before, behind, rfl, hbefore⟩ := List.eq_append_cons_of_mem hl
  rw [List.length_append, List.length_cons] at hlen
  refine ⟨before.length, idxOf?_append_cons_self hbefore, ?_⟩
  rw [← hlen, slice_add (by omega), slice_succ (by omega)] at hslice
  obtain ⟨hfront, hback⟩ := List.append_inj hslice (length_slice (by omega))
  have hmoved : slice c.cells (c.start + 1 + before.length) (c.size - 1 - before.length) = behind := by
    rw [Nat.add_right_comm, show c.size - 1 - before.length = behind.length by omega]
    exact (List.cons.inj hback).2
  have hstays : overwrite c.cells c.start before = c.cells := by
    nth_rewrite 1 [← hfront]
    exact overwrite_slice _ _ _
  rw [run?_moveCells (by omega) (by omega) (by omega), hmoved, List.erase_append_right _ hbefore,
    List.erase_cons_head, written, overwrite_append, hstays]

/-- Dropping a literal. -/
theorem run?_erase (h : c.lits = .ok xs) (hl : l ∈ xs) : (erase l).run? c = .ok (true, c.rewritten (xs.erase l)) := by
  have hlen : (xs.erase l).length = c.size - 1 := by rw [List.length_erase_of_mem hl, length_of_lits h]
  obtain ⟨pos, hpos, hmove⟩ := run?_moveCells_erase h hl
  -- What `refreshSig` finds: the size is set already, the signature is the old one.
  let d : Clause := ⟨{ c.header with size := .ofNat (c.size - 1) }, (c.written (xs.erase l)).cells⟩
  have hd : d.lits = .ok (xs.erase l) := by
    have hlits := lits_rewritten h (List.erase_sublist (a := l)).length_le
    rwa [rewritten, hlen] at hlits
  have hsig := run?_refreshSig hd
  rw [erase, Update.run?_bind, Update.run?_get, ok_bind, Update.run?_bind, Update.run?_lift, h, ok_bind, ok_bind]
  simp only [hpos, Update.run?_bind, run?_onCells, hmove, ok_bind, resize, run?_onHeader]
  rw [hsig, rewritten, hlen]
  rfl

end CnfSimp.Clause
