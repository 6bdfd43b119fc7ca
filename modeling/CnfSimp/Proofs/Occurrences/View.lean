import CnfSimp.Occurrences.Build
import CnfSimp.Proofs.Arena.View

/-!
# The lists of occurrence tables

* `Occurrences.listAt`: the clauses listed at a position, that is, for the literal with that code.
* `Occurrences.Laid`: the windows lie one behind the other inside the row of entries. An operation on one list then
  changes no other (`Occurrences.onList_edits`). `Occurrences.Wf`: none of them has overflowed, either.
* `Occurrences.Sound`, `Occurrences.Complete`: what is listed for a literal has it, and what has it is listed; both
  look at live clauses only. `Occurrences.Usable`: the lists of a variable are complete, or of no use but harmless.
-/

namespace CnfSimp

namespace Occurrences

section View

variable (t : Occurrences)

/-- The list at a position with its entries; beyond the last one, an empty one. -/
def boundedAt (i : Nat) : Bounded Nat := ⟨t.lists[i]?.getD default, t.entries⟩

/-- The clauses listed at a position. -/
def listAt (i : Nat) : List Nat := (t.boundedAt i).contents

/-- The capacity of the list at a position. -/
def capAt (i : Nat) : Nat := (t.boundedAt i).window.cap.toNat

/-- The windows lie inside the row of entries, one behind the other, and none has overflowed. -/
structure Wf : Prop where
  fits : ∀ i, (t.boundedAt i).Fits
  apart : ∀ i j, i < j → j < t.size → (t.boundedAt i).window.base + t.capAt i ≤ (t.boundedAt j).window.base
  exact : ∀ i, (t.boundedAt i).window.overflowed = false

/-- The windows lie inside the row of entries, one behind the other. -/
structure Laid : Prop where
  fits : ∀ i, (t.boundedAt i).Fits
  apart : ∀ i j, i < j → j < t.size → (t.boundedAt i).window.base + t.capAt i ≤ (t.boundedAt j).window.base

/-- Only the window and the list at one position have changed. -/
structure Changes (t' : Occurrences) (i : Nat) (w : Window) (xs : List Nat) : Prop where
  laid : t'.Laid
  size : t'.size = t.size
  numVars : t'.numVars = t.numVars
  entries : t'.entries.size = t.entries.size
  window : ∀ j, (t'.boundedAt j).window = if j = i then w else (t.boundedAt j).window
  listAt : ∀ j, t'.listAt j = if j = i then xs else t.listAt j

/-- Only the list at one position has changed. -/
structure Sets (t' : Occurrences) (i : Nat) (xs : List Nat) : Prop where
  wf : t'.Wf
  size : t'.size = t.size
  numVars : t'.numVars = t.numVars
  capAt : ∀ j, t'.capAt j = t.capAt j
  listAt : ∀ j, t'.listAt j = if j = i then xs else t.listAt j

end View

variable {E : Fault → Prop} {t t' : Occurrences} {i j : Nat} {xs : List Nat} {l : Lit}

theorem boundedAt_of_le (h : t.size ≤ i) : t.boundedAt i = ⟨default, t.entries⟩ := by
  unfold boundedAt
  rw [Array.getElem?_eq_none h]
  rfl

theorem listAt_of_le (h : t.size ≤ i) : t.listAt i = [] := by
  unfold listAt
  rw [boundedAt_of_le h]
  exact slice_zero _ _

theorem list_ok (h : l.index < t.size) : t.list l = .ok (t.boundedAt l.index) := by
  unfold list boundedAt
  rw [Array.getElem?_eq_getElem h]
  rfl

theorem occurs_of_le (h : t.size ≤ l.index) : t.occurs l = .error .outOfBounds := by
  rw [occurs, list, Array.getElem?_eq_none h]
  rfl

theorem Laid.occurs_ok (ht : t.Laid) (h : l.index < t.size) : t.occurs l = .ok (t.listAt l.index) := by
  rw [occurs, list_ok h]
  exact Bounded.entries_ok (ht.fits _)

namespace Wf

variable (ht : t.Wf)
include ht

theorem laid : t.Laid := ⟨ht.fits, ht.apart⟩

theorem occurs_ok (h : l.index < t.size) : t.occurs l = .ok (t.listAt l.index) := ht.laid.occurs_ok h

/-- The list of a literal, unless it may be missing. -/
theorem occurs_ends (h : (∀ f, E f) ∨ l.index < t.size) : Ends E (t.occurs l) (· = t.listAt l.index) := by
  by_cases hl : l.index < t.size
  · exact .of_eq (ht.occurs_ok hl) rfl
  · rw [occurs_of_le (Nat.le_of_not_lt hl)]
    exact h.resolve_right hl _

theorem len_ok (h : l.index < t.size) : t.len l = .ok (t.listAt l.index).length := by
  rw [len, list_ok h, listAt, Bounded.length_contents (ht.fits _)]
  rfl

end Wf

/-! ## Operations on one list -/

/-- The table with another list, and its cells, at a position. -/
def withList (t : Occurrences) (i : Nat) (b : Bounded Nat) : Occurrences :=
  ⟨t.lists.setIfInBounds i b.window, b.cells, t.capacity, t.numVars⟩

section WithList

variable {b : Bounded Nat}

@[simp]
theorem size_withList : (t.withList i b).size = t.size := Array.size_setIfInBounds

theorem boundedAt_withList (h : i < t.size) : (t.withList i b).boundedAt i = b := by
  unfold boundedAt withList
  rw [Array.getElem?_setIfInBounds_self_of_lt h]
  rfl

theorem boundedAt_withList_of_ne (hj : j ≠ i) :
    (t.withList i b).boundedAt j = ⟨(t.boundedAt j).window, b.cells⟩ := by
  unfold boundedAt withList
  rw [Array.getElem?_setIfInBounds_ne (Ne.symm hj)]

theorem window_withList (h : i < t.size) (j : Nat) :
    ((t.withList i b).boundedAt j).window = if j = i then b.window else (t.boundedAt j).window := by
  by_cases hj : j = i
  · rw [if_pos hj, hj, boundedAt_withList h]
  · rw [if_neg hj, boundedAt_withList_of_ne hj]

/-- The cells of one list are not in the window of another. -/
theorem Laid.outside {k : Nat} (ht : t.Laid) (hi : i < t.size) (hj : j < t.size) (hne : j ≠ i)
    (hk : (t.boundedAt j).window.base ≤ k) (hk' : k < (t.boundedAt j).window.base + (t.boundedAt j).window.len) :
    k < (t.boundedAt i).window.base ∨ (t.boundedAt i).window.base + (t.boundedAt i).window.cap.toNat ≤ k := by
  have hlen : (t.boundedAt j).window.len ≤ t.capAt j := Window.len_le_cap _
  have hcap : t.capAt i = (t.boundedAt i).window.cap.toNat := rfl
  rcases Nat.lt_or_gt_of_ne hne with hlt | hlt
  · have := ht.apart j i hlt hi
    omega
  · have := ht.apart i j hlt hj
    omega

/-- Where one list is edited in its own window, the others are as they were. -/
theorem Laid.listAt_withList (ht : t.Laid) (h : i < t.size) (hb : (t.boundedAt i).Edits b xs) (j : Nat) :
    (t.withList i b).listAt j = if j = i then xs else t.listAt j := by
  by_cases hj : j = i
  · rw [if_pos hj, hj, listAt, boundedAt_withList h, hb.contents]
  rw [if_neg hj]
  by_cases hjs : j < t.size
  · rw [listAt, boundedAt_withList_of_ne hj]
    exact slice_congr fun k hk hk' => hb.outside k (ht.outside h hjs hj hk hk')
  · have hjs := Nat.le_of_not_lt hjs
    rw [listAt_of_le hjs, listAt_of_le (size_withList.trans_le hjs)]

theorem Laid.withList (ht : t.Laid) (h : i < t.size) (hb : (t.boundedAt i).Edits b xs) : (t.withList i b).Laid := by
  have hbase (j : Nat) : ((t.withList i b).boundedAt j).window.base = (t.boundedAt j).window.base := by
    rw [window_withList h]
    split
    · next hj => rw [hj, hb.base]
    · rfl
  have hcap (j : Nat) : (t.withList i b).capAt j = t.capAt j := by
    unfold capAt
    rw [window_withList h]
    split
    · next hj => rw [hj, hb.cap]
    · rfl
  refine ⟨fun j => ⟨?_, ?_⟩, fun j k hjk hk => ?_⟩
  · rw [hbase, show ((t.withList i b).boundedAt j).window.cap.toNat = _ from hcap j,
      show ((t.withList i b).boundedAt j).cells.size = _ from hb.size]
    exact (ht.fits j).inside
  · rw [hbase, show ((t.withList i b).boundedAt j).window.cap.toNat = _ from hcap j]
    exact (ht.fits j).small
  · rw [hbase, hbase, hcap]
    exact ht.apart j k hjk (size_withList ▸ hk)

end WithList

/-- Where there is a list, an operation on it is one on the table. -/
theorem run_onList {α : Type} (h : i < t.size) (op : Update (Bounded Nat) α) :
    (onList i op).run.run t =
      ((op.run.run (t.boundedAt i)).1, t.withList i (op.run.run (t.boundedAt i)).2) := by
  have hget : t.lists[i]? = some (t.boundedAt i).window := by
    unfold boundedAt
    rw [Array.getElem?_eq_getElem h]
    rfl
  show onList i op t = _
  unfold onList
  simp only [hget]
  rfl

/-- Where there is no list, nothing is done. -/
theorem run_onList_of_le {α : Type} (h : t.size ≤ i) (op : Update (Bounded Nat) α) :
    (onList i op).run.run t = (.error .outOfBounds, t) := by
  show onList i op t = _
  unfold onList
  simp only [Array.getElem?_eq_none h]

theorem run?_onList {α : Type} (h : i < t.size) (op : Update (Bounded Nat) α) :
    (onList i op).run? t = op.run? (t.boundedAt i) >>= fun r => .ok (r.1, t.withList i r.2) := by
  unfold Update.run?
  rw [run_onList h]
  rcases op.run.run (t.boundedAt i) with ⟨_ | _, _⟩ <;> rfl

/-- An operation on one list leaves the others as they were. -/
theorem onList_edits {α : Type} {op : Update (Bounded Nat) α} {x : α} {b : Bounded Nat} (ht : t.Laid) (h : i < t.size)
    (hop : op.run? (t.boundedAt i) = .ok (x, b)) (hb : (t.boundedAt i).Edits b xs) :
    ∃ t', (onList i op).run? t = .ok (x, t') ∧ t.Changes t' i b.window xs := by
  refine ⟨t.withList i b, by rw [run?_onList h, hop, ok_bind], ?_⟩
  exact {
    laid := ht.withList h hb
    size := size_withList
    numVars := rfl
    entries := hb.size
    window := window_withList h
    listAt := ht.listAt_withList h hb }

/-- If it does not overflow the list, no list has overflowed. -/
theorem onList_ok {α : Type} {op : Update (Bounded Nat) α} {x : α} {b : Bounded Nat} (ht : t.Wf) (h : i < t.size)
    (hop : op.run? (t.boundedAt i) = .ok (x, b)) (hb : (t.boundedAt i).Becomes b xs) :
    ∃ t', (onList i op).run? t = .ok (x, t') ∧ t.Sets t' i xs := by
  obtain ⟨t', hrun, hc⟩ := onList_edits ht.laid h hop hb.edits
  refine ⟨t', hrun, ⟨hc.laid.fits, hc.laid.apart, fun j => ?_⟩, hc.size, hc.numVars, fun j => ?_, hc.listAt⟩
  · rw [hc.window]
    split
    · exact hb.overflowed (ht.exact i)
    · exact ht.exact j
  · unfold capAt
    rw [hc.window]
    split
    · next hj => rw [hj, hb.cap]
    · rfl

/-- Removing a clause from the list of a literal. -/
theorem remove_ok (ht : t.Wf) (h : l.index < t.size) (x : Nat) :
    ∃ t', (remove l x).run? t = .ok ((t.listAt l.index).contains x, t') ∧
      t.Sets t' l.index ((t.listAt l.index).erase x) := by
  obtain ⟨b, hrun, hb⟩ := Bounded.remove_ok (ht.fits l.index) x
  exact onList_ok ht h hrun hb

/-! ## Tables of an arena -/

section Tables

variable (t : Occurrences) (a : Arena)

/-- Every list holds slots in use, in ascending order, and the clauses among them that are live have the literal. -/
structure Sound : Prop where
  wf : t.Wf
  size : t.size = litSlots t.numVars
  lt : ∀ i, ∀ x ∈ t.listAt i, x < a.len
  ascends : ∀ i, (t.listAt i).Pairwise (· < ·)
  mem : ∀ l, ∀ x ∈ t.listAt l.index, ∀ c, a.body x = some c → l ∈ c

/-- Every live clause with the literal is in its list. -/
def Complete (l : Lit) : Prop := ∀ x c, a.body x = some c → l ∈ c → x ∈ t.listAt l.index

/-- The literals of the listed clauses, live or not, are of the first `n` variables. -/
def Within (n : Nat) : Prop := ∀ j, ∀ i ∈ t.listAt j, ∀ l ∈ a.text i, l.var < n

/-- The lists of a variable are complete, or hold no live clauses. -/
def Usable (x : Nat) : Prop :=
  (∀ l : Lit, l.var = x → t.Complete a l) ∨ ∀ l : Lit, l.var = x → ∀ j ∈ t.listAt l.index, a.alive j = false

end Tables

variable {a : Arena}

theorem Sound.within {n : Nat} (hs : t.Sound a) (h : a.Within n) : t.Within a n := fun j i hi =>
  h i (hs.lt j i hi)

/-- A sound table stays sound when it is reduced to live clauses. -/
theorem Sound.reduced (hs : t.Sound a) (hwf : t'.Wf) (hsize : t'.size = t.size) (hnum : t'.numVars = t.numVars)
    (hlist : ∀ j, t'.listAt j = (t.listAt j).filter a.alive) : t'.Sound a where
  wf := hwf
  size := by rw [hsize, hnum, hs.size]
  lt i x hx := hs.lt i x (List.mem_of_mem_filter (hlist i ▸ hx))
  ascends i := by
    rw [hlist]
    exact (hs.ascends i).filter _
  mem l x hx := hs.mem l x (List.mem_of_mem_filter (hlist l.index ▸ hx))

/-- In a sound and complete list, the live clauses are those with the literal. -/
theorem Sound.filter_alive (hs : t.Sound a) (hc : t.Complete a l) :
    (t.listAt l.index).filter a.alive = a.slotsWith l := by
  have hmem (x : Nat) : x ∈ (t.listAt l.index).filter a.alive ↔ x ∈ a.slotsWith l := by
    rw [List.mem_filter, Arena.mem_slotsWith]
    constructor
    · rintro ⟨hx, hal⟩
      have hb := Arena.body_eq_some_iff.2 ⟨hal, rfl⟩
      exact ⟨_, hb, hs.mem l x hx _ hb⟩
    · rintro ⟨c, hb, hl⟩
      exact ⟨hc x c hb hl, (Arena.body_eq_some_iff.1 hb).1⟩
  exact ((hs.ascends l.index).filter a.alive).eq_of_mem_iff (a.pairwise_slotsWith l) hmem

end Occurrences

end CnfSimp
