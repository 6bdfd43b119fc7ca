import CnfSimp.Arena.Basic
import CnfSimp.Proofs.Clause.Membership

/-!
# The clauses of an arena

* `Arena.text`: the literals in the block of a slot. `Arena.body`: the literals of a live clause, and nothing for a slot
  that holds none.
* `Arena.Wf`: the counters stay inside the rows, every slot in use has a status and a block among the literals in use,
  and live clauses are ascending.
* `Arena.clause_ok`, `Arena.Wf.isLive_ok`, `Arena.Wf.lits_ok`, `Arena.Wf.has_ok`: in such an arena every slot in use
  can be read, and the answers are those of `Arena.text` and `Arena.body`.
* `Arena.Labelled`, `Arena.Readable`, `Arena.Listable`: less than that, and enough to list the live clauses, to read
  them, or to list the occurrences of literals. Walking them is walking `Arena.bodies` (`Arena.Labelled.mapLive_ok`).
-/

namespace CnfSimp

/-- Whether the header is that of a clause neither deleted nor melted, whatever its code. -/
def Header.live (h : Header) : Bool := h.code != Status.deleted.code && !h.molten

theorem Status.code_inj {s s' : Status} : s.code = s'.code ↔ s = s' := by
  cases s <;> cases s' <;> decide

/-- The status of a header is the one whose code it has. -/
theorem Header.status_eq_ok_iff {h : Header} {s : Status} : h.status = .ok s ↔ h.code = s.code := by
  unfold status
  constructor
  · intro hs
    cases hc : Status.ofCode? h.code with
    | none => simp [hc] at hs
    | some s' =>
      simp only [hc, Except.ok.injEq] at hs
      subst hs
      revert hc
      unfold Status.ofCode?
      split
      · rintro ⟨⟩
        assumption
      split
      · rintro ⟨⟩
        assumption
      split
      · rintro ⟨⟩
        assumption
      · rintro ⟨⟩
  · intro hs
    rw [hs, Status.ofCode?_code]

/-- A header with a status tells whether its clause is live. -/
theorem Header.isLive_ok {h : Header} {s : Status} (hs : h.status = .ok s) : h.isLive = .ok h.live := by
  have hc := status_eq_ok_iff.1 hs
  have : (s == Status.deleted) = !(h.code != Status.deleted.code) := by
    rw [Bool.eq_iff_iff]
    simp [hc, Status.code_inj]
  simp [isLive, isDeleted, hs, live, this, pure, Except.pure]

namespace Arena

section View

variable (a : Arena)

/-- The header of a slot; beyond the last one, that of a vacant slot. -/
def header (i : Nat) : Header := a.headers[i]?.getD .vacant

/-- The clause of a slot. -/
def clauseAt (i : Nat) : Clause := ⟨a.header i, a.cells⟩

/-- The literals in the block of a slot. -/
def text (i : Nat) : List Lit := slice a.cells (a.header i).start.toNat (a.header i).size.toNat

/-- Whether a slot is in use and its clause live. -/
def alive (i : Nat) : Bool := decide (i < a.len) && (a.header i).live

/-- The literals of the clause of a slot, if it is live. -/
def body (i : Nat) : Option (List Lit) := if a.alive i then some (a.text i) else none

/-- The live clauses, in order. -/
def bodies : List (List Lit) := a.crefs.filterMap a.body

/-- The slots of the live clauses with a literal, in order. -/
def slotsWith (l : Lit) : List Nat := a.crefs.filter fun i => (a.body i).any fun c => c.contains l

/-- The invariant of arenas. -/
structure Wf : Prop where
  slots_lt : a.headers.size < 2 ^ 32
  cells_lt : a.cells.size < 2 ^ 64
  status : ∀ i < a.len, ∃ s, (a.header i).status = .ok s
  inside : ∀ i < a.len, (a.header i).start.toNat + (a.header i).size.toNat ≤ a.numLits
  ascends : ∀ i c, a.body i = some c → c.Pairwise (· < ·)

/-- Every slot in use has a status. -/
def Labelled : Prop := ∀ i < a.len, ∃ s, (a.header i).status = .ok s

/-- What reading the live clauses takes: every slot in use has a status, and the blocks of live clauses lie in the row
of cells. -/
structure Readable : Prop where
  cells_lt : a.cells.size < 2 ^ 64
  status : a.Labelled
  inside : ∀ i, a.alive i → (a.header i).start.toNat + (a.header i).size.toNat ≤ a.cells.size

/-- What listing the occurrences of literals takes: live clauses can be read, and name no literal twice. -/
structure Listable : Prop extends a.Readable where
  slots_lt : a.headers.size < 2 ^ 32
  nodup : ∀ i c, a.body i = some c → c.Nodup

/-- All literals in the blocks in use are of the first `n` variables. -/
def Within (n : Nat) : Prop := ∀ i < a.len, ∀ l ∈ a.text i, l.var < n

end View

variable {a a' : Arena} {i : Nat} {c lits : List Lit} {l : Lit}

theorem len_le_slots (a : Arena) : a.len ≤ a.headers.size := Nat.min_le_right _ _

theorem numLits_le_cells (a : Arena) : a.numLits ≤ a.cells.size := Nat.min_le_right _ _

theorem alive_iff : a.alive i ↔ i < a.len ∧ (a.header i).live := by
  rw [alive, Bool.and_eq_true, decide_eq_true_iff]

theorem body_eq_some_iff : a.body i = some c ↔ a.alive i ∧ a.text i = c := by
  unfold body
  split
  · next h => simp [h]
  · next h => simp [h]

theorem body_eq_none_iff : a.body i = none ↔ a.alive i = false := by
  unfold body
  cases a.alive i <;> simp

theorem isSome_body (a : Arena) (i : Nat) : (a.body i).isSome = a.alive i := by
  unfold body
  cases a.alive i <;> simp

/-- Slots of live clauses are in use. -/
theorem lt_of_body (h : a.body i = some c) : i < a.len := (alive_iff.1 (body_eq_some_iff.1 h).1).1

theorem text_of_body (h : a.body i = some c) : a.text i = c := (body_eq_some_iff.1 h).2

theorem mem_bodies : c ∈ a.bodies ↔ ∃ i, a.body i = some c := by
  unfold bodies crefs
  rw [List.mem_filterMap]
  exact exists_congr fun i => and_iff_right_of_imp fun h => List.mem_range.2 (lt_of_body h)

theorem mem_slotsWith : i ∈ a.slotsWith l ↔ ∃ c, a.body i = some c ∧ l ∈ c := by
  unfold slotsWith crefs
  rw [List.mem_filter, List.mem_range, Option.any_eq_true]
  simp only [List.contains_iff_mem]
  exact and_iff_right_of_imp fun ⟨c, h, _⟩ => lt_of_body h

theorem pairwise_slotsWith (a : Arena) (l : Lit) : (a.slotsWith l).Pairwise (· < ·) :=
  List.pairwise_lt_range.filter _

theorem filterMap_getElem?_range {α : Type} (xs : List α) :
    (List.range xs.length).filterMap (fun k => xs[k]?) = xs := by
  induction xs with
  | nil => rfl
  | cons x xs ih =>
    rw [List.length_cons, List.range_succ_eq_map, List.filterMap_cons, List.getElem?_cons_zero]
    simp only [List.filterMap_map, Function.comp_def, List.getElem?_cons_succ, ih]

theorem header_eq (h : i < a.headers.size) : a.header i = a.headers[i] := by
  rw [header, Array.getElem?_eq_getElem h, Option.getD_some]

/-- Every slot has a clause. -/
theorem clause_eq (h : i < a.headers.size) : a.clause i = .ok (a.clauseAt i) := by
  unfold clause clauseAt
  rw [header_eq h, Array.getElem?_eq_getElem h]

theorem clause_ok (h : i < a.len) : a.clause i = .ok (a.clauseAt i) :=
  clause_eq (Nat.lt_of_lt_of_le h a.len_le_slots)

/-- The literal at a position of a block that lies in the row of cells. -/
theorem lit_clauseAt (hin : (a.header i).start.toNat + (a.header i).size.toNat ≤ a.cells.size)
    (h64 : a.cells.size < 2 ^ 64) {k : Nat} (hk : k < (a.text i).length) :
    (a.clauseAt i).lit k = .ok (a.text i)[k] := by
  have hlits : (a.clauseAt i).lits = .ok (a.text i) := block_ok hin (Nat.lt_of_le_of_lt hin h64)
  exact Clause.lit_ok hlits hk

/-! ## Reading -/

namespace Labelled

variable (ha : a.Labelled)
include ha

theorem isLive_clauseAt (h : i < a.len) : (a.clauseAt i).isLive = .ok (a.alive i) := by
  obtain ⟨s, hs⟩ := ha i h
  show (a.header i).isLive = _
  rw [Header.isLive_ok hs, alive, decide_eq_true h, Bool.true_and]

theorem isLive_ok (h : i < a.len) : a.isLive i = .ok (a.alive i) := by
  rw [isLive, clause_ok h, ok_bind, ha.isLive_clauseAt h]

/-- Walking the live clauses. -/
theorem mapLive_ok {β : Type} {f : Nat → Clause → Except Fault β} {g : Nat → List Lit → β}
    (h : ∀ i c, a.body i = some c → f i (a.clauseAt i) = .ok (g i c)) :
    a.mapLive f = .ok (a.crefs.filterMap fun i => (a.body i).map (g i)) := by
  refine filterMapM_ok fun i hi => ?_
  have hi := List.mem_range.1 hi
  rw [clause_ok hi, ok_bind, ha.isLive_clauseAt hi, ok_bind]
  cases hal : a.alive i with
  | true =>
    have hb := body_eq_some_iff.2 ⟨hal, rfl⟩
    simp [h i _ hb, hb, pure, Except.pure]
  | false =>
    rw [body_eq_none_iff.2 hal]
    rfl

theorem live_ok : a.live = .ok (a.crefs.filter a.alive) := by
  rw [live, ha.mapLive_ok (g := fun i _ => i) fun i c h => rfl]
  refine congrArg Except.ok ?_
  rw [← List.filterMap_eq_filter]
  refine congrArg (List.filterMap · _) (funext fun i => ?_)
  unfold body
  cases h : a.alive i <;> simp [Option.guard, h]

end Labelled

/-- The live clauses can be listed only if every slot in use has a status. -/
theorem labelled_of_live {is : List Nat} (h : a.live = .ok is) : a.Labelled := by
  intro i hi
  obtain ⟨r, hr⟩ := exists_ok_of_filterMapM h i (List.mem_range.2 hi)
  rw [clause_ok hi, ok_bind] at hr
  obtain ⟨live, hlive, _⟩ := bind_eq_ok_iff.1 hr
  obtain ⟨deleted, hdeleted, _⟩ := bind_eq_ok_iff.1 hlive
  obtain ⟨s, hs, _⟩ := bind_eq_ok_iff.1 hdeleted
  exact ⟨s, hs⟩

namespace Readable

variable (ha : a.Readable)
include ha

theorem length_text (h : a.alive i) : (a.text i).length = (a.header i).size.toNat := length_slice (ha.inside i h)

/-- The literals of a live clause. -/
theorem lits_clauseAt (h : a.alive i) : (a.clauseAt i).lits = .ok (a.text i) := by
  have := ha.inside i h
  exact block_ok this (Nat.lt_of_le_of_lt this ha.cells_lt)

theorem size_clauseAt (h : a.body i = some c) : (a.clauseAt i).size = c.length := by
  rw [← text_of_body h, ha.length_text (body_eq_some_iff.1 h).1]
  rfl

theorem lits_ok (h : a.alive i) : a.lits i = .ok (a.text i) := by
  rw [lits, clause_ok (alive_iff.1 h).1, ok_bind, ha.lits_clauseAt h]

/-- The literals of the live clauses. -/
theorem mapLive_lits_ok : a.mapLive (fun _ c => c.lits) = .ok a.bodies := by
  rw [ha.status.mapLive_ok (g := fun _ c => c) fun i c h => by
    rw [ha.lits_clauseAt (body_eq_some_iff.1 h).1, text_of_body h]]
  simp [bodies]

end Readable

theorem Listable.len_lt (ha : a.Listable) : a.len < 2 ^ 32 := Nat.lt_of_le_of_lt a.len_le_slots ha.slots_lt

/-- The invariant of a given arena can be checked. -/
theorem wf_iff : a.Wf ↔ a.headers.size < 2 ^ 32 ∧ a.cells.size < 2 ^ 64 ∧
    (∀ i < a.len, (a.header i).status.isOk) ∧
    (∀ i < a.len, (a.header i).start.toNat + (a.header i).size.toNat ≤ a.numLits) ∧
    ∀ c ∈ a.bodies, c.Pairwise (· < ·) := by
  refine ⟨fun h => ⟨h.slots_lt, h.cells_lt, fun i hi => ?_, h.inside, fun c hc => ?_⟩,
    fun ⟨hslots, hcells, hstatus, hinside, hasc⟩ => ⟨hslots, hcells, fun i hi => exists_ok_of_isOk (hstatus i hi),
      hinside, fun i c hc => hasc c (mem_bodies.2 ⟨i, hc⟩)⟩⟩
  · obtain ⟨s, hs⟩ := h.status i hi
    rw [hs]
    rfl
  · obtain ⟨i, hi⟩ := mem_bodies.1 hc
    exact h.ascends i c hi

instance : Decidable a.Wf := decidable_of_iff _ wf_iff.symm

namespace Wf

variable (ha : a.Wf)
include ha

theorem inside_cells (h : i < a.len) : (a.header i).start.toNat + (a.header i).size.toNat ≤ a.cells.size :=
  Nat.le_trans (ha.inside i h) a.numLits_le_cells

theorem readable : a.Readable := ⟨ha.cells_lt, ha.status, fun _ h => ha.inside_cells (alive_iff.1 h).1⟩

theorem listable : a.Listable := ⟨ha.readable, ha.slots_lt, fun i c h => nodup_of_pairwise_lt (ha.ascends i c h)⟩

theorem length_text (h : i < a.len) : (a.text i).length = (a.header i).size.toNat :=
  length_slice (ha.inside_cells h)

theorem size_clauseAt (h : i < a.len) : (a.clauseAt i).size = (a.text i).length := (ha.length_text h).symm

/-- The literals of a slot in use. -/
theorem lits_clauseAt (h : i < a.len) : (a.clauseAt i).lits = .ok (a.text i) := by
  have := ha.inside_cells h
  exact block_ok this (Nat.lt_of_le_of_lt this ha.cells_lt)

theorem isLive_clauseAt (h : i < a.len) : (a.clauseAt i).isLive = .ok (a.alive i) :=
  Labelled.isLive_clauseAt ha.status h

theorem isLive_ok (h : i < a.len) : a.isLive i = .ok (a.alive i) := Labelled.isLive_ok ha.status h

theorem lits_ok (h : i < a.len) : a.lits i = .ok (a.text i) := by
  rw [lits, clause_ok h, ok_bind, ha.lits_clauseAt h]

/-- The literal at a position of a slot in use. -/
theorem lit_clauseAt (h : i < a.len) {k : Nat} (hk : k < (a.text i).length) :
    (a.clauseAt i).lit k = .ok (a.text i)[k] :=
  Arena.lit_clauseAt (ha.inside_cells h) ha.cells_lt hk

/-- Walking the live clauses. -/
theorem mapLive_ok {β : Type} {f : Nat → Clause → Except Fault β} {g : Nat → List Lit → β}
    (h : ∀ i c, a.body i = some c → f i (a.clauseAt i) = .ok (g i c)) :
    a.mapLive f = .ok (a.crefs.filterMap fun i => (a.body i).map (g i)) :=
  Labelled.mapLive_ok ha.status h

/-- The literals of the live clauses. -/
theorem mapLive_lits_ok : a.mapLive (fun _ c => c.lits) = .ok a.bodies := ha.readable.mapLive_lits_ok

theorem live_ok : a.live = .ok (a.crefs.filter a.alive) := Labelled.live_ok ha.status

end Wf

/-! ## Membership -/

/-- Membership in a clause in use that is ascending. -/
theorem Wf.has_ok (ha : a.Wf) (h : a.body i = some c) (l : Lit) :
    (a.clauseAt i).has l = .ok (decide (l ∈ c)) := by
  have hlits : (a.clauseAt i).lits = .ok c := text_of_body h ▸ ha.lits_clauseAt (lt_of_body h)
  exact Clause.has_ok hlits (Or.inr ((ha.ascends i c h).imp Nat.le_of_lt)) l

end Arena

end CnfSimp
