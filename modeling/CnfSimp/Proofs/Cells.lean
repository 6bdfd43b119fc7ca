import CnfSimp.Proofs.Outcome

/-!
# Lists in rows of cells

* `slice`: the part of a row from a position on. It depends on its own cells only (`slice_congr`), and writing a list
  puts it there and changes nothing else (`slice_overwrite`, `slice_overwrite_of_disjoint`).
* `siftM`: a filter whose test carries a state along. Filtering cells in place comes to it (`run?_siftCells`,
  `Bounded.run?_sift`), also where the test faults.
* `Bounded.contents`: the list that a window holds. `Bounded.Becomes b b' xs`: the window stays, its list is `xs`, and
  the cells around it are as before. Every operation on bounded lists is described by it (`Bounded.push_ok`,
  `Bounded.refill_ok`, `Bounded.retain_ok`, `Bounded.remove_ok`, `Bounded.sort_ok`, `Bounded.assign_ok`).
* `Bounded.Edits b b' xs`: the same of a window that may overflow. `Bounded.push_edits`: a push, refused or not.
-/

namespace CnfSimp

variable {α : Type} {cells cells' : Array α} {xs : List α} {start len i k : Nat}

/-- The cells from `start` on, `len` of them. -/
def slice (cells : Array α) (start len : Nat) : List α := (cells.extract start (start + len)).toList

theorem getElem?_slice : (slice cells start len)[k]? = if k < len then cells[start + k]? else none := by
  unfold slice
  rw [Array.getElem?_toList, Array.getElem?_extract]
  by_cases hk : k < len
  · by_cases hs : start + k < cells.size
    · rw [if_pos (by omega), if_pos hk]
    · rw [if_neg (by omega), if_pos hk, Array.getElem?_eq_none (by omega)]
  · rw [if_neg (by omega), if_neg hk]

theorem length_slice (h : start + len ≤ cells.size) : (slice cells start len).length = len := by
  simp [slice]
  omega

@[simp]
theorem slice_zero (cells : Array α) (start : Nat) : slice cells start 0 = [] := by
  simp [slice]

/-- A slice begins with its first cell. -/
theorem slice_succ (h : start < cells.size) :
    slice cells start (len + 1) = cells[start] :: slice cells (start + 1) len := by
  apply List.ext_getElem?
  intro k
  cases k with
  | zero =>
    rw [getElem?_slice, if_pos (Nat.succ_pos _), List.getElem?_cons_zero, Nat.add_zero, Array.getElem?_eq_getElem h]
  | succ k =>
    rw [List.getElem?_cons_succ, getElem?_slice, getElem?_slice, Nat.add_assoc, Nat.add_comm 1 k]
    simp only [Nat.add_lt_add_iff_right]

/-- Two slices, one right behind the other. -/
theorem slice_add (h : start + i ≤ cells.size) :
    slice cells start (i + len) = slice cells start i ++ slice cells (start + i) len := by
  apply List.ext_getElem?
  intro k
  rw [List.getElem?_append, length_slice h, getElem?_slice, getElem?_slice, getElem?_slice]
  by_cases hk : k < i
  · rw [if_pos hk, if_pos (by omega), if_pos hk]
  · rw [if_neg hk, show start + i + (k - i) = start + k by omega]
    by_cases hlen : k < i + len
    · rw [if_pos hlen, if_pos (by omega)]
    · rw [if_neg hlen, if_neg (by omega)]

/-- A slice depends on its own cells only. -/
theorem slice_congr (h : ∀ k, start ≤ k → k < start + len → cells[k]? = cells'[k]?) :
    slice cells start len = slice cells' start len := by
  apply List.ext_getElem?
  intro k
  rw [getElem?_slice, getElem?_slice]
  split
  · exact h (start + k) (by omega) (by omega)
  · rfl

/-- The block of a clause or list that lies inside its row. -/
theorem block_ok (h : start + len ≤ cells.size) (h64 : start + len < 2 ^ 64) :
    block cells start len = .ok (slice cells start len) := by
  unfold block
  rw [sum64_ok h64, ok_bind, if_pos h]
  rfl

/-- What can be read lies inside the row. -/
theorem block_eq_ok_iff : block cells start len = .ok xs ↔
    start + len < 2 ^ 64 ∧ start + len ≤ cells.size ∧ slice cells start len = xs := by
  constructor
  · intro h
    by_cases h64 : start + len < 2 ^ 64
    · rw [block, sum64_ok h64, ok_bind] at h
      split at h
      · next hin => exact ⟨h64, hin, Except.ok.inj h⟩
      · cases h
    · rw [block, show sum64 start len = .error .overflow from if_neg h64, error_bind] at h
      cases h
  · rintro ⟨h64, hin, rfl⟩
    exact block_ok hin h64

theorem getElem?_overwrite : (overwrite cells i xs)[k]? =
    if i ≤ k ∧ k < i + xs.length ∧ k < cells.size then xs[k - i]? else cells[k]? := by
  induction xs generalizing cells i with
  | nil => rw [overwrite, if_neg (by simp; omega)]
  | cons x xs ih =>
    rw [overwrite, ih, Array.size_setIfInBounds, Array.getElem?_setIfInBounds, List.length_cons]
    by_cases hk : i = k
    · subst hk
      rw [if_neg (by omega), if_pos rfl]
      by_cases hs : i < cells.size
      · rw [if_pos hs, if_pos (by omega)]
        simp
      · rw [if_neg hs, if_neg (by omega), Array.getElem?_eq_none (by omega)]
    · rw [if_neg hk]
      by_cases hin : i ≤ k ∧ k < i + (xs.length + 1) ∧ k < cells.size
      · rw [if_pos hin, if_pos (by omega), show k - i = (k - (i + 1)) + 1 by omega, List.getElem?_cons_succ]
      · rw [if_neg hin, if_neg (by omega)]

/-- What is written stands there. -/
theorem slice_overwrite (h : i + xs.length ≤ cells.size) : slice (overwrite cells i xs) i xs.length = xs := by
  apply List.ext_getElem?
  intro k
  rw [getElem?_slice, getElem?_overwrite]
  by_cases hk : k < xs.length
  · rw [if_pos hk, if_pos (by omega), Nat.add_sub_cancel_left]
  · rw [if_neg hk, List.getElem?_eq_none (by omega)]

/-- The cells before and behind what is written are as before. -/
theorem getElem?_overwrite_of_outside (h : k < i ∨ i + xs.length ≤ k) : (overwrite cells i xs)[k]? = cells[k]? := by
  rw [getElem?_overwrite, if_neg (by omega)]

theorem slice_overwrite_of_disjoint
    (h : ∀ k, start ≤ k → k < start + len → k < i ∨ i + xs.length ≤ k) :
    slice (overwrite cells i xs) start len = slice cells start len :=
  slice_congr fun k hk hk' => getElem?_overwrite_of_outside (h k hk hk')

/-- Writing what is there already. -/
theorem overwrite_slice (cells : Array α) (start len : Nat) :
    overwrite cells start (slice cells start len) = cells := by
  apply Array.ext_getElem?
  intro k
  rw [getElem?_overwrite]
  split
  · next hk =>
    have hlen : k - start < len := by
      have : (slice cells start len).length ≤ len := by simp [slice]
      omega
    rw [getElem?_slice, if_pos hlen, Nat.add_sub_cancel' hk.1]
  · rfl

/-- Writing two lists, one right behind the other. -/
theorem overwrite_append (cells : Array α) (i : Nat) (xs ys : List α) :
    overwrite cells i (xs ++ ys) = overwrite (overwrite cells i xs) (i + xs.length) ys := by
  induction xs generalizing cells i with
  | nil => rfl
  | cons x xs ih =>
    rw [List.cons_append, overwrite, ih, overwrite, List.length_cons, Nat.add_comm xs.length, Nat.add_assoc]

/-- Writing cell by cell. -/
theorem run?_writeCell {x : α} (h : start + i < cells.size) (h64 : start + i < 2 ^ 64) :
    (writeCell start i x).run? cells = .ok ((), cells.setIfInBounds (start + i) x) := by
  simp [writeCell, sum64_ok h64, h]

theorem run?_writeCells (h : start + i + xs.length ≤ cells.size) (h64 : start + i + xs.length < 2 ^ 64) :
    (writeCells start i xs).run? cells = .ok ((), overwrite cells (start + i) xs) := by
  induction xs generalizing cells i with
  | nil => rfl
  | cons x xs ih =>
    rw [List.length_cons] at h h64
    rw [writeCells, Update.run?_bind, run?_writeCell (by omega) (by omega), ok_bind,
      ih (by rw [Array.size_setIfInBounds]; omega) (by omega)]
    rfl

/-- Copying cell by cell to a place that is not behind the old one copies every cell before it is overwritten. -/
theorem run?_moveCells {src base : Nat} (hle : base ≤ src) (h : src + i + len ≤ cells.size)
    (h64 : base + i + len < 2 ^ 64) :
    (moveCells src base i len).run? cells = .ok ((), overwrite cells (base + i) (slice cells (src + i) len)) := by
  induction len generalizing cells i with
  | zero => rw [slice_zero]; rfl
  | succ len ih =>
    have hx : cells[src + i]? = some cells[src + i] := Array.getElem?_eq_getElem (by omega)
    have hwrite : (writeCell base i cells[src + i]).run? cells =
        .ok ((), cells.setIfInBounds (base + i) cells[src + i]) := run?_writeCell (by omega) (by omega)
    have hsame : slice (cells.setIfInBounds (base + i) cells[src + i]) (src + (i + 1)) len =
        slice cells (src + (i + 1)) len := slice_congr fun k hk _ => Array.getElem?_setIfInBounds_ne (by omega)
    rw [moveCells, Update.run?_bind, Update.run?_get, ok_bind, hx]
    simp only [Update.run?_bind, hwrite, ok_bind]
    rw [ih (by rw [Array.size_setIfInBounds]; omega) (by omega), hsame, slice_succ (by omega)]
    rfl

/-! ## Filtering in place -/

section Sift

variable {σ : Type} {p : σ → α → Except Fault (Bool × σ)} {s s' : σ} {stays : Bool} {x : α} {ys : List α}

/-- The elements that pass a test which carries a state along, and the state that it ends with. -/
def siftM (p : σ → α → Except Fault (Bool × σ)) (s : σ) : List α → Except Fault (List α × σ)
  | [] => .ok ([], s)
  | x :: xs => do
    let (stays, s) ← p s x
    let (rest, s) ← siftM p s xs
    return (if stays then x :: rest else rest, s)

theorem siftM_cons (h : p s x = .ok (stays, s')) :
    siftM p s (x :: xs) = siftM p s' xs >>= fun r => .ok (if stays then x :: r.1 else r.1, r.2) := by
  rw [siftM, h]
  rfl

theorem siftM_cons_error {f : Fault} (h : p s x = .error f) : siftM p s (x :: xs) = .error f := by
  rw [siftM, h]
  rfl

theorem sublist_of_siftM (h : siftM p s xs = .ok (ys, s')) : ys.Sublist xs := by
  induction xs generalizing s ys with
  | nil =>
    cases h
    exact .slnil
  | cons x xs ih =>
    obtain ⟨⟨stays, t⟩, hx, -⟩ := bind_eq_ok_iff.1 h
    rw [siftM_cons hx] at h
    obtain ⟨⟨rest, _⟩, hrest, ⟨⟩⟩ := bind_eq_ok_iff.1 h
    cases stays with
    | true => exact (ih hrest).cons_cons x
    | false => exact (ih hrest).cons x

/-- A test without a state. -/
theorem siftM_unit (q : α → Except Fault Bool) (xs : List α) :
    siftM (fun _ x => do return (← q x, ())) () xs = selectM q xs >>= fun ys => .ok (ys, ()) := by
  induction xs with
  | nil => rfl
  | cons x xs ih =>
    rw [siftM, selectM]
    cases q x with
    | error f => rfl
    | ok stays =>
      show (siftM _ () xs >>= fun r => .ok (if stays then x :: r.1 else r.1, r.2)) = _
      rw [ih]
      cases selectM q xs <;> rfl

/-- Once the entry was found, all others pass. -/
theorem siftM_notFirst_true [BEq α] (x : α) (xs : List α) : siftM (Bounded.notFirst x) true xs = .ok (xs, true) := by
  induction xs with
  | nil => rfl
  | cons y xs ih =>
    have hy : Bounded.notFirst x true y = .ok (true, true) := rfl
    rw [siftM_cons hy, ih]
    rfl

/-- What passes besides the first entry equal to `x`, and whether there is one. -/
theorem siftM_notFirst [BEq α] [LawfulBEq α] (x : α) (xs : List α) :
    siftM (Bounded.notFirst x) false xs = .ok (xs.erase x, xs.contains x) := by
  induction xs with
  | nil => rfl
  | cons y xs ih =>
    by_cases h : y = x
    · have hx : Bounded.notFirst x false y = .ok (false, true) := by simp [Bounded.notFirst, h]
      rw [siftM_cons hx, siftM_notFirst_true, h]
      simp
    · have hy : Bounded.notFirst x false y = .ok (true, false) := by simp [Bounded.notFirst, h]
      rw [siftM_cons hy, ih, List.erase_cons_tail (by simpa using h)]
      simp [Ne.symm h]

/-- Filtering in place comes to filtering a list of the cells that was read before: no cell is written before it was
read. -/
theorem run?_siftCells {base kept : Nat} (hlag : kept ≤ i) (h : base + i + len ≤ cells.size)
    (h64 : base + i + len < 2 ^ 64) :
    (siftCells p base i kept s len).run? cells = siftM p s (slice cells (base + i) len) >>= fun r =>
      .ok ((kept + r.1.length, r.2), overwrite cells (base + kept) r.1) := by
  induction len generalizing cells i kept s with
  | zero => rw [slice_zero]; rfl
  | succ len ih =>
    have hget : cells[base + i]? = some cells[base + i] := Array.getElem?_eq_getElem (by omega)
    rw [siftCells, Update.run?_bind, Update.run?_get, ok_bind, hget, slice_succ (by omega)]
    simp only [Update.run?_bind, Update.run?_lift]
    cases hx : p s cells[base + i] with
    | error f => rw [siftM_cons_error hx]; rfl
    | ok r =>
      obtain ⟨stays, t⟩ := r
      rw [siftM_cons hx]
      simp only [ok_bind]
      cases stays with
      | false =>
        rw [if_neg Bool.false_ne_true, ih (Nat.le_succ_of_le hlag) (by omega) (by omega), Nat.add_assoc base]
        cases siftM p t (slice cells (base + (i + 1)) len) <;> rfl
      | true =>
        have hwrite : (writeCell base kept cells[base + i]).run? cells =
            .ok ((), cells.setIfInBounds (base + kept) cells[base + i]) := run?_writeCell (by omega) (by omega)
        have hsame : slice (cells.setIfInBounds (base + kept) cells[base + i]) (base + (i + 1)) len =
            slice cells (base + (i + 1)) len := slice_congr fun k hk _ => Array.getElem?_setIfInBounds_ne (by omega)
        rw [if_pos rfl, Update.run?_bind, hwrite, ok_bind,
          ih (Nat.succ_le_succ hlag) (by rw [Array.size_setIfInBounds]; omega) (by omega), hsame, Nat.add_assoc base]
        rcases siftM p t (slice cells (base + (i + 1)) len) with f | ⟨ys, u⟩
        · rfl
        · have hcount : kept + (ys.length + 1) = kept + 1 + ys.length := by omega
          simp only [ok_bind, if_true, List.length_cons, hcount]
          rfl

end Sift

/-- A list is never longer than its capacity. -/
theorem Window.len_le_cap (w : Window) : w.len ≤ w.cap.toNat := Nat.min_le_right _ _

theorem Window.len_of_rawLen {w : Window} (h : w.rawLen = 0) : w.len = 0 := by
  rw [len, h]
  exact Nat.zero_min _

/-- A list that was never pushed to has not overflowed. -/
theorem Window.overflowed_of_rawLen {w : Window} (h : w.rawLen = 0) : w.overflowed = false := by
  have : ¬w.cap < w.rawLen := by rw [h]; exact UInt32.not_lt.2 UInt32.zero_le
  exact decide_eq_false this

namespace Bounded

variable {b b' : Bounded α} {x : α}

/-- The window lies inside its row of cells. -/
structure Fits (b : Bounded α) : Prop where
  inside : b.window.base + b.window.cap.toNat ≤ b.cells.size
  small : b.window.base + b.window.cap.toNat < 2 ^ 64

/-- The list that the window holds. -/
def contents (b : Bounded α) : List α := slice b.cells b.window.base b.window.len

/-- The window stays without an overflow, its list is `xs`, and the cells around it are as before. -/
structure Becomes (b b' : Bounded α) (xs : List α) : Prop where
  base : b'.window.base = b.window.base
  cap : b'.window.cap = b.window.cap
  size : b'.cells.size = b.cells.size
  outside : ∀ k, k < b.window.base ∨ b.window.base + b.window.cap.toNat ≤ k → b'.cells[k]? = b.cells[k]?
  overflowed : b.window.overflowed = false → b'.window.overflowed = false
  contents : b'.contents = xs

/-- The window stays, its list is `xs`, and the cells around it are as before; more may have been pushed than fits. -/
structure Edits (b b' : Bounded α) (xs : List α) : Prop where
  base : b'.window.base = b.window.base
  cap : b'.window.cap = b.window.cap
  size : b'.cells.size = b.cells.size
  outside : ∀ k, k < b.window.base ∨ b.window.base + b.window.cap.toNat ≤ k → b'.cells[k]? = b.cells[k]?
  contents : b'.contents = xs

theorem Becomes.edits (h : b.Becomes b' xs) : b.Edits b' xs := ⟨h.base, h.cap, h.size, h.outside, h.contents⟩

theorem contents_of_rawLen (h : b.window.rawLen = 0) : b.contents = [] := by
  rw [contents, Window.len_of_rawLen h, slice_zero]

theorem Becomes.fits (h : b.Becomes b' xs) (hb : b.Fits) : b'.Fits :=
  ⟨by rw [h.base, h.cap, h.size]; exact hb.inside, by rw [h.base, h.cap]; exact hb.small⟩

theorem run?_onCells {β : Type} (op : Update (Array α) β) (b : Bounded α) :
    (onCells op).run? b = op.run? b.cells >>= fun r => .ok (r.1, ⟨b.window, r.2⟩) := by
  have h : (onCells op).run.run b = ((op.run.run b.cells).1, ⟨b.window, (op.run.run b.cells).2⟩) := rfl
  unfold Update.run?
  rw [h]
  rcases op.run.run b.cells with ⟨_ | _, _⟩ <;> rfl

/-- A push is counted, whether there is room or not. -/
theorem rawLen_push {r : Bool} (h : (push x).run? b = .ok (r, b')) : b'.window.rawLen = b.window.rawLen + 1 := by
  simp only [push, Update.run?_bind, Update.run?_get, Update.run?_modify, ok_bind] at h
  split at h
  · simp only [Update.run?_bind, run?_onCells, bind_eq_ok_iff] at h
    obtain ⟨_, ⟨_, _, ⟨⟩⟩, ⟨⟩⟩ := h
    rfl
  · cases h
    rfl

section Operations

variable (hb : b.Fits)
include hb

theorem length_contents : b.contents.length = b.window.len :=
  length_slice (Nat.le_trans (Nat.add_le_add_left b.window.len_le_cap _) hb.inside)

theorem length_contents_le : b.contents.length ≤ b.window.cap.toNat := by
  rw [length_contents hb]
  exact b.window.len_le_cap

/-- The entries can be read. -/
theorem entries_ok : b.entries = .ok b.contents := by
  have := b.window.len_le_cap
  have := hb.inside
  have := hb.small
  exact block_ok (by omega) (by omega)

/-- A list with room takes another entry. -/
theorem push_ok (x : α) (h : b.contents.length < b.window.cap.toNat) :
    ∃ b', (push x).run? b = .ok (true, b') ∧ b.Becomes b' (b.contents ++ [x]) := by
  rw [length_contents hb] at h
  have hin := hb.inside
  have hsm := hb.small
  have hcap := b.window.cap.toNat_lt
  have hlen : b.window.len = b.window.rawLen.toNat := by
    unfold Window.len at h ⊢
    omega
  have hlt : b.window.rawLen < b.window.cap := UInt32.lt_iff_toNat_lt.2 (by omega)
  have hsucc : (b.window.rawLen + 1).toNat = b.window.rawLen.toNat + 1 := by
    rw [UInt32.toNat_add, UInt32.toNat_one]
    omega
  have hlen' : min (b.window.rawLen + 1).toNat b.window.cap.toNat = b.window.len + 1 := by omega
  refine ⟨⟨{ b.window with rawLen := b.window.rawLen + 1 },
    b.cells.setIfInBounds (b.window.base + b.window.rawLen.toNat) x⟩, ?_, rfl, rfl, Array.size_setIfInBounds, ?_, ?_,
    ?_⟩
  · have hwrite : (writeCell b.window.base b.window.rawLen.toNat x).run? b.cells =
        .ok ((), b.cells.setIfInBounds (b.window.base + b.window.rawLen.toNat) x) :=
      run?_writeCell (by omega) (by omega)
    simp [push, hlt, run?_onCells, hwrite]
  · intro k hk
    exact Array.getElem?_setIfInBounds_ne (by omega)
  · intro _
    refine decide_eq_false fun hn => ?_
    have : b.window.cap.toNat < (b.window.rawLen + 1).toNat := UInt32.lt_iff_toNat_lt.1 hn
    omega
  · unfold contents
    apply List.ext_getElem?
    intro k
    show (slice _ b.window.base (min (b.window.rawLen + 1).toNat b.window.cap.toNat))[k]? = _
    rw [hlen', getElem?_slice, Array.getElem?_setIfInBounds, List.getElem?_append,
      length_slice (by omega), getElem?_slice]
    by_cases hk : k < b.window.len
    · rw [if_pos (by omega), if_neg (by omega), if_pos hk, if_pos hk]
    · by_cases he : k = b.window.len
      · rw [if_pos (by omega), if_pos (by omega), if_pos (by omega), if_neg hk, he]
        simp
      · rw [if_neg (by omega), if_neg hk, List.getElem?_eq_none (by simp; omega)]

/-- A push asks for one more entry. It is refused if the list is full, and then no cell changes. -/
theorem push_edits (x : α) (h : b.window.rawLen.toNat + 1 < 2 ^ 32) :
    ∃ b', (push x).run? b = .ok (decide (b.contents.length < b.window.cap.toNat), b') ∧
      b.Edits b' (if b.contents.length < b.window.cap.toNat then b.contents ++ [x] else b.contents) ∧
      b'.window.rawLen.toNat = b.window.rawLen.toNat + 1 := by
  have hsucc : (b.window.rawLen + 1).toNat = b.window.rawLen.toNat + 1 := by
    rw [UInt32.toNat_add, UInt32.toNat_one, Nat.mod_eq_of_lt h]
  by_cases hroom : b.contents.length < b.window.cap.toNat
  · obtain ⟨b', hrun, hbec⟩ := push_ok hb x hroom
    refine ⟨b', by rw [hrun, decide_eq_true hroom], by rw [if_pos hroom]; exact hbec.edits, ?_⟩
    rw [rawLen_push hrun, hsucc]
  · have hfull : b.window.cap.toNat ≤ b.window.rawLen.toNat := by
      rw [length_contents hb, Window.len] at hroom
      omega
    have hlt : ¬b.window.rawLen < b.window.cap := UInt32.not_lt.2 (UInt32.le_iff_toNat_le.2 hfull)
    refine ⟨{ b with window.rawLen := b.window.rawLen + 1 }, ?_, ?_, hsucc⟩
    · rw [decide_eq_false hroom]
      simp [push, hlt]
    · rw [if_neg hroom]
      refine ⟨rfl, rfl, rfl, fun _ _ => rfl, ?_⟩
      show slice _ _ (min (b.window.rawLen + 1).toNat _) = slice _ _ (min _ _)
      rw [hsucc, Nat.min_eq_right hfull, Nat.min_eq_right (Nat.le_succ_of_le hfull)]

/-- Any list that fits can become the only entries. -/
theorem refill_ok {xs : List α} (h : xs.length ≤ b.window.cap.toNat) :
    ∃ b', (refill xs).run? b = .ok ((), b') ∧ b.Becomes b' xs := by
  have hin := hb.inside
  have hcap := b.window.cap.toNat_lt
  have hraw : (UInt32.ofNat xs.length).toNat = xs.length := Nat.mod_eq_of_lt (by omega)
  refine ⟨_, rfl, rfl, rfl, size_overwrite _ _ _, ?_, ?_, ?_⟩
  · intro k hk
    exact getElem?_overwrite_of_outside (by omega)
  · intro _
    refine decide_eq_false fun hn => ?_
    have : b.window.cap.toNat < (UInt32.ofNat xs.length).toNat := UInt32.lt_iff_toNat_lt.1 hn
    omega
  · show slice _ b.window.base (min (UInt32.ofNat xs.length).toNat b.window.cap.toNat) = xs
    rw [hraw, Nat.min_eq_left h]
    exact slice_overwrite (by omega)

/-- Filtering in place comes to filtering the list and writing what is left of it. -/
theorem run?_sift {σ : Type} (keep : σ → α → Except Fault (Bool × σ)) (s : σ) :
    (sift keep s).run? b = siftM keep s b.contents >>= fun r => (refill r.1).run? b >>= fun t =>
      .ok ((b.contents.length - r.1.length, r.2), t.2) := by
  have hin := hb.inside
  have hsm := hb.small
  have hlen := b.window.len_le_cap
  have hcells : (siftCells keep b.window.base 0 0 s b.window.len).run? b.cells =
      siftM keep s b.contents >>= fun r => .ok ((r.1.length, r.2), overwrite b.cells b.window.base r.1) := by
    rw [run?_siftCells (Nat.le_refl 0) (by omega) (by omega)]
    simp only [Nat.zero_add]
    rfl
  rw [sift, Update.run?_bind, Update.run?_get, ok_bind]
  simp only [Update.run?_bind, Update.run?_lift, Update.run?_require, run?_onCells,
    sum64_ok (show b.window.base + b.window.len < 2 ^ 64 by omega), ok_bind,
    if_pos (show b.window.base + b.window.len ≤ b.cells.size by omega)]
  rw [hcells, ← length_contents hb]
  rcases hsift : siftM keep s b.contents with f | ⟨xs, t⟩
  · rfl
  · have hxs : xs.length ≤ b.window.cap.toNat :=
      (sublist_of_siftM hsift).length_le.trans (length_contents_le hb)
    simp only [ok_bind, resize, Update.run?_bind, Update.run?_get, Update.run?_require, if_pos hxs]
    rfl

/-- Filtering by a test without a state. -/
theorem run?_retain (keep : α → Except Fault Bool) :
    (retain keep).run? b = selectM keep b.contents >>= fun xs => (refill xs).run? b >>= fun t =>
      .ok (b.contents.length - xs.length, t.2) := by
  rw [retain, Update.run?_bind, run?_sift hb, siftM_unit]
  cases selectM keep b.contents <;> rfl

/-- Removing is filtering by a test that only one entry fails. -/
theorem run?_remove [BEq α] [LawfulBEq α] (x : α) :
    (remove x).run? b = (refill (b.contents.erase x)).run? b >>= fun t => .ok (b.contents.contains x, t.2) := by
  rw [remove, Update.run?_bind, run?_sift hb, siftM_notFirst]
  rfl

/-- Filtering drops the entries that fail the test. -/
theorem retain_ok (keep : α → Except Fault Bool) (q : α → Bool) (h : ∀ x ∈ b.contents, keep x = .ok (q x)) :
    ∃ b', (retain keep).run? b = .ok (b.contents.length - (b.contents.filter q).length, b') ∧
      b.Becomes b' (b.contents.filter q) := by
  have hle : (b.contents.filter q).length ≤ b.window.cap.toNat :=
    Nat.le_trans (List.length_filter_le _ _) (length_contents_le hb)
  obtain ⟨b', hrun, hbec⟩ := refill_ok hb hle
  exact ⟨b', by rw [run?_retain hb, selectM_ok h, ok_bind, hrun, ok_bind], hbec⟩

/-- Removing drops the first entry that is equal. -/
theorem remove_ok [BEq α] [LawfulBEq α] (x : α) :
    ∃ b', (remove x).run? b = .ok (b.contents.contains x, b') ∧ b.Becomes b' (b.contents.erase x) := by
  have hle : (b.contents.erase x).length ≤ b.window.cap.toNat :=
    Nat.le_trans List.length_erase_le (length_contents_le hb)
  obtain ⟨b', hrun, hbec⟩ := refill_ok hb hle
  exact ⟨b', by rw [run?_remove hb, hrun, ok_bind], hbec⟩

/-- Sorting sorts the entries. -/
theorem sort_ok (le : α → α → Bool) :
    ∃ b', (sort le).run? b = .ok ((), b') ∧ b.Becomes b' (sortBy le b.contents) := by
  have hin := hb.inside
  have hlen := b.window.len_le_cap
  have hs : (sortBy le b.contents).length = b.window.len := by rw [length_sortBy, length_contents hb]
  refine ⟨⟨b.window, overwrite b.cells b.window.base (sortBy le b.contents)⟩, ?_, rfl, rfl, size_overwrite _ _ _, ?_,
    id, ?_⟩
  · simp [sort, entries_ok hb]
  · intro k hk
    exact getElem?_overwrite_of_outside (by omega)
  · have : slice (overwrite b.cells b.window.base (sortBy le b.contents)) b.window.base
        (sortBy le b.contents).length = sortBy le b.contents := slice_overwrite (by omega)
    rwa [hs] at this

/-- Assigning a list that fits. -/
theorem assign_ok {xs : List α} (h : xs.length ≤ b.window.cap.toNat) :
    ∃ b', (assign xs).run? b = .ok ((), b') ∧ b.Becomes b' xs := by
  obtain ⟨b', hrun, hbec⟩ := refill_ok hb h
  exact ⟨b', by simp [assign, h, hrun], hbec⟩

end Operations

end Bounded

end CnfSimp
