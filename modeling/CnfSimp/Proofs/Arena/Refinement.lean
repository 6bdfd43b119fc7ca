import CnfSimp.Proofs.Arena.Compact

/-!
# Arenas as lists of clauses

Appends, operations on single clauses and compactions act on an arena as they would act on a plain list of clauses.

* `Entry`, `ClauseOp`, `edited`, `packed`: the list, and what the operations do to it. A failed append does nothing.
* `Arena.Reachable`: the arenas that a new one can become, with their lists. It counts the attempts to append, because
  the counters of an arena move on with every attempt and wrap around in the end.
* `Arena.Stores`: the invariant, with one lemma per operation: `Arena.Stores.placed` for an append that succeeds,
  `Arena.Stores.advance` for one that fails, `Arena.Stores.withHeader` and `Arena.Stores.erased` for the operations on
  one clause, `Arena.Stores.compacted` for compaction. `Arena.Reachable.stores` is the induction.
* `reachable_refines`: an arena shows exactly its list (`Arena.Faithful`), and no operation faults unless it has to
  (`Arena.Proceeds`).
-/

namespace CnfSimp

/-! ## Lists of clauses -/

/-- A clause of a plain list, under the number that names it. -/
structure Entry where
  slot : Nat
  lits : Finset Lit
  status : Status
  molten : Bool
  deriving DecidableEq

/-- Whether a clause is neither deleted nor melted. -/
def Entry.live (e : Entry) : Bool := e.status != .deleted && !e.molten

/-- The operations on one clause. -/
inductive ClauseOp where
  | melt
  | freeze
  | delete
  | setStatus (status : Status)
  | erase (l : Lit)

namespace ClauseOp

/-- What an operation does to a clause of an arena. -/
def run : ClauseOp → Update Clause Unit
  | melt => Clause.melt
  | freeze => Clause.freeze
  | delete => Clause.delete
  | setStatus status => Clause.setStatus status
  | erase l => do let _ ← Clause.erase l

/-- What it does to a clause of a list. -/
def apply (e : Entry) : ClauseOp → Entry
  | melt => { e with molten := true }
  | freeze => { e with molten := false }
  | delete => { e with status := .deleted }
  | setStatus status => { e with status }
  | erase l => { e with lits := e.lits.erase l }

@[simp]
theorem slot_apply (e : Entry) (op : ClauseOp) : (op.apply e).slot = e.slot := by cases op <;> rfl

/-- Whether the operation is allowed on a clause with a header: the status of a deleted clause stays. -/
def Allowed (h : Header) : ClauseOp → Prop
  | setStatus _ => h.status ≠ .ok .deleted
  | _ => True

end ClauseOp

/-- The list with an operation applied to one clause. -/
def edited (i : Nat) (op : ClauseOp) (es : List Entry) : List Entry :=
  es.map fun e => if e.slot = i then op.apply e else e

/-- The live clauses of a list, numbered from 0 on. -/
def packed (es : List Entry) : List Entry :=
  (es.filter Entry.live).mapIdx fun k e => { e with slot := k }

namespace Arena

/-- The arenas that a new one can become, each with the list of clauses it stands for. The number counts the attempts to
append that lie behind an arena and, where it is a copy, behind the arena that it is a copy of, whichever are more.
The clause of all `2 ^ 32` literals is the one that is never appended: its size would need 33 bits. -/
inductive Reachable : Nat → Arena → List Entry → Prop
  | allocate {clauseCap : UInt32} {litCap : UInt64} {a : Arena} :
    allocate clauseCap litCap = .ok a → Reachable 0 a []
  | append {k i : Nat} {a a' : Arena} {es : List Entry} {lits : List Lit} {status : Status} :
    Reachable k a es → (∃ l, l ∉ lits) → (append lits status).run? a = .ok (i, a') →
      Reachable (k + 1) a' (es ++ [⟨i, lits.toFinset, status, false⟩])
  | appendFault {k : Nat} {a a' : Arena} {es : List Entry} {lits : List Lit} {status : Status} {f : Fault} :
    Reachable k a es → (append lits status).run.run a = (.error f, a') → Reachable (k + 1) a' es
  | appendAscending {k i : Nat} {a a' : Arena} {es : List Entry} {lits : List Lit} {status : Status} :
    Reachable k a es → lits.Pairwise (· < ·) → (∃ l, l ∉ lits) →
      (appendAscending lits status).run? a = .ok (i, a') →
      Reachable (k + 1) a' (es ++ [⟨i, lits.toFinset, status, false⟩])
  | appendAscendingFault {k : Nat} {a a' : Arena} {es : List Entry} {lits : List Lit} {status : Status} {f : Fault} :
    Reachable k a es → lits.Pairwise (· < ·) → (appendAscending lits status).run.run a = (.error f, a') →
      Reachable (k + 1) a' es
  | edit {k i : Nat} {a a' : Arena} {es : List Entry} {op : ClauseOp} :
    Reachable k a es → i < a.len → (onClause i op.run).run? a = .ok ((), a') → Reachable k a' (edited i op es)
  | shrink {k : Nat} {a a' : Arena} {es : List Entry} :
    Reachable k a es → shrink.run? a = .ok ((), a') → Reachable k a' (packed es)
  | copyFrom {k k' : Nat} {a a' src : Arena} {es es' : List Entry} :
    Reachable k a es → Reachable k' src es' → (compactFrom src).run? a = .ok ((), a') →
      Reachable (max k k') a' (packed es')

/-! ## The invariant -/

/-- A slot in use holds a clause of a list. -/
structure Shows (a : Arena) (e : Entry) : Prop where
  slot_lt : e.slot < a.len
  inside : (a.header e.slot).start.toNat + (a.header e.slot).size.toNat ≤ a.numLits
  ascends : (a.text e.slot).Pairwise (· < ·)
  lits : (a.text e.slot).toFinset = e.lits
  sig : (a.header e.slot).sig = signature (a.text e.slot)
  code : (a.header e.slot).code = e.status.code
  molten : (a.header e.slot).molten = e.molten

/-- A clause comes before another one, and so does its block. -/
def Before (a : Arena) (e f : Entry) : Prop :=
  e.slot < f.slot ∧ (a.header e.slot).start.toNat + (a.header e.slot).size.toNat ≤ (a.header f.slot).start.toNat

/-- The arena stores a list of clauses, after at most `k` attempts to append. A slot that was handed out and never
filled is vacant, except that it may have been melted. -/
structure Stores (k : Nat) (a : Arena) (es : List Entry) : Prop where
  slots_lt : a.headers.size < 2 ^ 32
  cells_lt : a.cells.size < 2 ^ 64
  clauseCount_le : a.clauseCount.toNat ≤ k
  litCount_le : a.litCount.toNat ≤ k * 2 ^ 32
  length_le : es.length ≤ k
  shows : ∀ e ∈ es, a.Shows e
  hole : ∀ i, (∀ e ∈ es, e.slot ≠ i) → { a.header i with molten := false } = Header.vacant
  vacant : ∀ i, a.len ≤ i → a.header i = .vacant
  before : es.Pairwise a.Before

variable {a a' src : Arena} {es : List Entry} {e f : Entry} {c lits : List Lit} {l : Lit} {i j k k' n pos : Nat}

/-- A clause stays where its header and its literals do. -/
theorem Shows.congr (h : a.Shows e) (hlen : a.len ≤ a'.len) (hnum : a.numLits ≤ a'.numLits)
    (hheader : a'.header e.slot = a.header e.slot) (htext : a'.text e.slot = a.text e.slot) : a'.Shows e := by
  refine ⟨Nat.lt_of_lt_of_le h.slot_lt hlen, ?_, ?_, ?_, ?_, ?_, ?_⟩
  · rw [hheader]
    exact Nat.le_trans h.inside hnum
  · rw [htext]
    exact h.ascends
  · rw [htext]
    exact h.lits
  · rw [hheader, htext]
    exact h.sig
  · rw [hheader]
    exact h.code
  · rw [hheader]
    exact h.molten

theorem Shows.live (h : a.Shows e) : (a.header e.slot).live = e.live := by
  unfold Header.live Entry.live
  rw [h.code, h.molten]
  cases e.status <;> rfl

theorem Shows.status (h : a.Shows e) : (a.header e.slot).status = .ok e.status := Header.status_eq_ok_iff.2 h.code

namespace Stores

section View

variable (h : Stores k a es)
include h

/-- A slot without a clause is that of an empty deleted clause. -/
theorem header_hole (hi : ∀ e ∈ es, e.slot ≠ i) :
    (a.header i).code = Status.deleted.code ∧ (a.header i).start = 0 ∧ (a.header i).size = 0 ∧ (a.header i).sig = 0 ∧
      a.text i = [] := by
  have hv := h.hole i hi
  have hsize : (a.header i).size = 0 := congrArg Header.size hv
  refine ⟨congrArg Header.code hv, congrArg Header.start hv, hsize, congrArg Header.sig hv, ?_⟩
  unfold text
  rw [hsize]
  exact slice_zero _ _

theorem labelled : a.Labelled := by
  intro i hi
  by_cases hslot : ∃ e ∈ es, e.slot = i
  · obtain ⟨e, he, rfl⟩ := hslot
    exact ⟨e.status, (h.shows e he).status⟩
  · exact ⟨.deleted, Header.status_eq_ok_iff.2 (h.header_hole fun e he hei => hslot ⟨e, he, hei⟩).1⟩

/-- The live slots are those of the live clauses. -/
theorem alive_iff_exists : a.alive i ↔ ∃ e ∈ es, e.slot = i ∧ e.live := by
  rw [alive_iff]
  constructor
  · rintro ⟨hi, hlive⟩
    by_cases hslot : ∃ e ∈ es, e.slot = i
    · obtain ⟨e, he, rfl⟩ := hslot
      exact ⟨e, he, rfl, (h.shows e he).live ▸ hlive⟩
    · have hcode := (h.header_hole fun e he hei => hslot ⟨e, he, hei⟩).1
      simp [Header.live, hcode] at hlive
  · rintro ⟨e, he, rfl, hlive⟩
    exact ⟨(h.shows e he).slot_lt, (h.shows e he).live.trans hlive⟩

theorem readable : a.Readable := by
  refine ⟨h.cells_lt, h.labelled, fun i hi => ?_⟩
  obtain ⟨e, he, rfl, _⟩ := h.alive_iff_exists.1 hi
  exact Nat.le_trans (h.shows e he).inside a.numLits_le_cells

theorem pairwise_slots : (es.map Entry.slot).Pairwise (· < ·) :=
  List.pairwise_map.2 (h.before.imp And.left)

/-- The live clauses, in order. -/
theorem survivors_eq : a.survivors = (es.filter Entry.live).map Entry.slot := by
  have hsub : ((es.filter Entry.live).map Entry.slot).Pairwise (· < ·) :=
    h.pairwise_slots.sublist (List.filter_sublist.map _)
  refine a.pairwise_survivors.eq_of_mem_iff hsub fun i => ?_
  have hmem : i ∈ a.survivors ↔ a.alive i := by
    unfold survivors crefs
    rw [List.mem_filter, List.mem_range]
    exact and_iff_right_of_imp fun hi => (alive_iff.1 hi).1
  rw [hmem, h.alive_iff_exists, List.mem_map]
  constructor
  · rintro ⟨e, he, hslot, hlive⟩
    exact ⟨e, List.mem_filter.2 ⟨he, hlive⟩, hslot⟩
  · rintro ⟨e, he, hslot⟩
    obtain ⟨he, hlive⟩ := List.mem_filter.1 he
    exact ⟨e, he, hslot, hlive⟩

theorem length_bodies : a.bodies.length = (es.filter Entry.live).length := by
  rw [← length_survivors, h.survivors_eq, List.length_map]

/-- The live clauses have room in the row of cells. -/
theorem volume_le : volume a.bodies ≤ a.cells.size := by
  refine h.readable.volume_le ?_
  rw [h.survivors_eq, List.pairwise_map]
  exact (h.before.sublist List.filter_sublist).imp And.right

/-- Of two clauses, one comes before the other. -/
theorem before_or (he : e ∈ es) (hf : f ∈ es) (hne : e.slot ≠ f.slot) : a.Before e f ∨ a.Before f e := by
  have hor : es.Pairwise fun e f => a.Before e f ∨ a.Before f e := h.before.imp Or.inl
  have : Std.Symm fun e f => a.Before e f ∨ a.Before f e := ⟨fun _ _ => Or.symm⟩
  exact hor.forall he hf fun hef => hne (congrArg Entry.slot hef)

/-- The block of a slot lies before or behind that of another one, if neither is empty. -/
theorem apart (hij : i ≠ j) : (a.header i).size = 0 ∨ (a.header j).size = 0 ∨
    (a.header i).start.toNat + (a.header i).size.toNat ≤ (a.header j).start.toNat ∨
    (a.header j).start.toNat + (a.header j).size.toNat ≤ (a.header i).start.toNat := by
  by_cases hi : ∃ e ∈ es, e.slot = i
  · by_cases hj : ∃ e ∈ es, e.slot = j
    · obtain ⟨e, he, rfl⟩ := hi
      obtain ⟨f, hf, rfl⟩ := hj
      rcases h.before_or he hf hij with hbefore | hbefore
      · exact Or.inr (Or.inr (Or.inl hbefore.2))
      · exact Or.inr (Or.inr (Or.inr hbefore.2))
    · exact Or.inr (Or.inl (h.header_hole fun e he hej => hj ⟨e, he, hej⟩).2.2.1)
  · exact Or.inl (h.header_hole fun e he hei => hi ⟨e, he, hei⟩).2.2.1

/-- Every block lies among the literals in use. -/
theorem inside (i : Nat) : (a.header i).start.toNat + (a.header i).size.toNat ≤ a.numLits := by
  by_cases hslot : ∃ e ∈ es, e.slot = i
  · obtain ⟨e, he, rfl⟩ := hslot
    exact (h.shows e he).inside
  · obtain ⟨_, hstart, hsize, _⟩ := h.header_hole fun e he hei => hslot ⟨e, he, hei⟩
    rw [hstart, hsize]
    exact Nat.zero_le _

theorem inside_cells (i : Nat) : (a.header i).start.toNat + (a.header i).size.toNat ≤ a.cells.size :=
  Nat.le_trans (h.inside i) a.numLits_le_cells

theorem lits_ok (hi : i < a.len) : a.lits i = .ok (a.text i) := by
  have hin := h.inside_cells i
  rw [Arena.lits, clause_ok hi, ok_bind]
  exact block_ok hin (Nat.lt_of_le_of_lt hin h.cells_lt)

/-- Every slot holds an ascending clause and its signature. -/
theorem ascends (i : Nat) : (a.text i).Pairwise (· < ·) ∧ (a.header i).sig = signature (a.text i) := by
  by_cases hslot : ∃ e ∈ es, e.slot = i
  · obtain ⟨e, he, rfl⟩ := hslot
    exact ⟨(h.shows e he).ascends, (h.shows e he).sig⟩
  · obtain ⟨_, _, _, hsig, htext⟩ := h.header_hole fun e he hei => hslot ⟨e, he, hei⟩
    rw [htext, hsig]
    exact ⟨.nil, rfl⟩

end View

/-! ## Allocation and appends -/

theorem of_allocate {clauseCap : UInt32} {litCap : UInt64} (h : allocate clauseCap litCap = .ok a) :
    Stores 0 a [] := by
  obtain ⟨-, -, -, rfl⟩ := allocate_eq_ok_iff.1 h
  refine ⟨?_, ?_, Nat.le_refl _, Nat.le_refl _, Nat.le_refl _, by simp, fun i _ => ?_, fun i _ => header_blank i, .nil⟩
  · rw [slots_blank]
    exact clauseCap.toNat_lt
  · rw [cells_blank]
    exact litCap.toNat_lt
  · rw [header_blank]
    rfl

/-- The counters may move on. -/
theorem advance {clauseCount : UInt32} {litCount : UInt64} (h : Stores k a es) (hk : k ≤ k')
    (hcount : a.clauseCount.toNat ≤ clauseCount.toNat) (hcount' : clauseCount.toNat ≤ k')
    (hlits : a.litCount.toNat ≤ litCount.toNat) (hlits' : litCount.toNat ≤ k' * 2 ^ 32) :
    Stores k' { a with clauseCount, litCount } es := by
  have hlen : a.len ≤ ({ a with clauseCount, litCount } : Arena).len :=
    Nat.le_min.2 ⟨Nat.le_trans (Nat.min_le_left _ _) hcount, Nat.min_le_right _ _⟩
  have hnum : a.numLits ≤ ({ a with clauseCount, litCount } : Arena).numLits :=
    Nat.le_min.2 ⟨Nat.le_trans (Nat.min_le_left _ _) hlits, Nat.min_le_right _ _⟩
  exact ⟨h.slots_lt, h.cells_lt, hcount', hlits', Nat.le_trans h.length_le hk,
    fun e he => (h.shows e he).congr hlen hnum rfl rfl, h.hole, fun i hi => h.vacant i (Nat.le_trans hlen hi),
    h.before⟩

theorem mono (h : Stores k a es) (hk : k ≤ k') : Stores k' a es :=
  h.advance hk (Nat.le_refl _) (Nat.le_trans h.clauseCount_le hk) (Nat.le_refl _)
    (Nat.le_trans h.litCount_le (Nat.mul_le_mul_right _ hk))

/-- A clause placed behind the others. -/
theorem placed {hd : Header} {status : Status} (h : Stores k a es) (hk : es.length < k) (hn : n < a.len)
    (hslots : ∀ e ∈ es, e.slot < n)
    (hbelow : ∀ e ∈ es, (a.header e.slot).start.toNat + (a.header e.slot).size.toNat ≤ pos)
    (hpos : pos + c.length ≤ a.numLits) (hc : c.Pairwise (· < ·)) (hstart : hd.start.toNat = pos)
    (hsize : hd.size.toNat = c.length) (hsig : hd.sig = signature c) (hcode : hd.code = status.code) :
    Stores k (a.placed n hd pos c) (es ++ [⟨n, c.toFinset, status, hd.molten⟩]) := by
  have hn' := Nat.lt_of_lt_of_le hn a.len_le_slots
  have hnew : (a.placed n hd pos c).header n = hd := by rw [header_placed hn', if_pos rfl]
  have htext : (a.placed n hd pos c).text n = c :=
    text_placed hn' hstart hsize (Nat.le_trans hpos a.numLits_le_cells)
  -- The clauses before keep their headers and their blocks.
  have hold (e : Entry) (he : e ∈ es) : (a.placed n hd pos c).header e.slot = a.header e.slot := by
    rw [header_placed hn', if_neg (Nat.ne_of_lt (hslots e he))]
  refine ⟨by rw [slots_placed]; exact h.slots_lt, by rw [cells_placed]; exact h.cells_lt, h.clauseCount_le,
    h.litCount_le, by rw [List.length_append]; exact hk, fun e he => ?_, fun i hi => ?_, fun i hi => ?_, ?_⟩
  · rcases List.mem_append.1 he with he | he
    · exact (h.shows e he).congr (Nat.le_of_eq (len_placed _ _ _ _ _).symm)
        (Nat.le_of_eq (numLits_placed _ _ _ _ _).symm) (hold e he)
        (text_placed_of_le hn' (Nat.ne_of_lt (hslots e he)) (hbelow e he))
    · rw [List.mem_singleton.1 he]
      refine ⟨by rwa [len_placed], ?_, by rwa [htext], by rw [htext], by rw [hnew, htext, hsig], by rw [hnew, hcode],
        by rw [hnew]⟩
      rw [hnew, numLits_placed, hstart, hsize]
      exact hpos
  · have hin : i ≠ n := fun hin => hi _ (List.mem_append_right _ (List.mem_singleton_self _)) hin.symm
    rw [header_placed hn', if_neg hin]
    exact h.hole i fun e he => hi e (List.mem_append_left _ he)
  · rw [len_placed] at hi
    rw [header_placed hn', if_neg (by omega)]
    exact h.vacant i hi
  · refine List.pairwise_append.2 ⟨?_, List.pairwise_singleton _ _, fun e he f hf => ?_⟩
    · refine h.before.imp_of_mem fun {e f} he hf hef => ?_
      unfold Before
      rw [hold e he, hold f hf]
      exact hef
    · rw [List.mem_singleton.1 hf]
      unfold Before
      rw [hold e he, hnew, hstart]
      exact ⟨hslots e he, hbelow e he⟩

end Stores

/-- The faults of an append for which there is no room. -/
def Exhausted : Fault → Prop
  | .clauseRegionExhausted _ _ _ | .literalRegionExhausted _ _ _ => True
  | _ => False

/-- What an append leaves behind. Both counters move on before the room for the literals is checked. -/
theorem run_appendAscending {status : Status} (hlits : lits.Pairwise (· < ·))
    (h64 : a.litCount.toNat + lits.length < 2 ^ 64) :
    (appendAscending lits status).run.run a =
      if a.capacity < a.clauseCount.toNat + 1 then
        (.error (.clauseRegionExhausted a.clauseCount.toNat 1 a.capacity),
          { a with clauseCount := a.clauseCount + 1 })
      else if a.litCapacity < a.litCount.toNat + lits.length then
        (.error (.literalRegionExhausted a.litCount.toNat lits.length a.litCapacity),
          { a with clauseCount := a.clauseCount + 1, litCount := a.litCount + .ofNat lits.length })
      else
        (.ok a.clauseCount.toNat,
          ({ a with clauseCount := a.clauseCount + 1, litCount := a.litCount + .ofNat lits.length } : Arena).placed
            a.clauseCount.toNat
            (.install (.ofNat a.litCount.toNat) (.ofNat lits.length) (signature lits) status)
            a.litCount.toNat lits) := by
  have hword : (UInt64.ofNat lits.length).toNat = lits.length := Nat.mod_eq_of_lt (by omega)
  have hasc : ascending lits = true := ascending_iff.2 hlits
  have hone : (1 : UInt32).toNat = 1 := rfl
  simp only [appendAscending, Update.run_bind, Update.run_require, hasc, if_true, run_reserveClauses, run_reserveLits,
    Update.run_pure, hone, hword, Update.run_modify]
  by_cases hclauses : a.capacity < a.clauseCount.toNat + 1
  · rw [if_pos hclauses, if_neg (Nat.not_le.2 hclauses)]
  · rw [if_neg hclauses, if_pos (Nat.not_lt.1 hclauses)]
    simp only [sum64_ok h64, ok_bind]
    by_cases hroom : a.litCapacity < a.litCount.toNat + lits.length
    · rw [if_pos hroom, if_neg]
      · rfl
      · exact Nat.not_le.2 hroom
    · rw [if_neg hroom, if_pos]
      · rfl
      · exact Nat.not_lt.1 hroom

/-- The size of the clause of all literals is truncated: it is stored as an empty clause. -/
theorem lits_placed_of_forall_mem {status : Status} (hn : n < a.len) (hpos : pos + lits.length ≤ a.cells.size)
    (h64 : a.cells.size < 2 ^ 64) (hlits : lits.Nodup) (hall : ∀ l, l ∈ lits) :
    (a.placed n (.install (.ofNat pos) (.ofNat lits.length) (signature lits) status) pos lits).lits n = .ok [] := by
  have hn' := Nat.lt_of_lt_of_le hn a.len_le_slots
  have hstart : (UInt64.ofNat pos).toNat = pos := Nat.mod_eq_of_lt (by omega)
  have hsize : UInt32.ofNat lits.length = 0 := by
    rw [length_of_forall_mem hlits hall]
    rfl
  rw [Arena.lits, clause_ok (by rwa [len_placed]), ok_bind]
  unfold clauseAt
  rw [header_placed hn', if_pos rfl, hsize]
  have hblock : (Clause.mk (.install (.ofNat pos) 0 (signature lits) status) (overwrite a.cells pos lits)).lits =
      .ok (slice (overwrite a.cells pos lits) pos 0) := by
    have hin : pos + 0 ≤ (overwrite a.cells pos lits).size := by
      rw [size_overwrite]
      omega
    have := block_ok hin (by omega)
    show block _ (UInt64.ofNat pos).toNat _ = _
    rwa [hstart]
  rw [slice_zero] at hblock
  exact hblock

/-- An append of an ascending clause adds it to the list, or fails for lack of room and changes nothing. The clause of
all literals is stored as an empty one. -/
theorem Stores.run_appendAscending (h : Stores k a es) (hk : k + 1 < 2 ^ 32) (hlits : lits.Pairwise (· < ·))
    (status : Status) :
    match (Arena.appendAscending lits status).run.run a with
    | (.ok i, a') => i = a.len ∧
        ((∃ l, l ∉ lits) → Stores (k + 1) a' (es ++ [⟨i, lits.toFinset, status, false⟩])) ∧
        ((∀ l, l ∈ lits) → a'.lits i = .ok [])
    | (.error f, a') => Exhausted f ∧ Stores (k + 1) a' es := by
  have hclauses := h.clauseCount_le
  have hcount := h.litCount_le
  have hlen := length_le_of_nodup (nodup_of_pairwise_lt hlits)
  have h64 : a.litCount.toNat + lits.length < 2 ^ 64 := by omega
  have hnext : (a.clauseCount + 1).toNat = a.clauseCount.toNat + 1 := by
    rw [UInt32.toNat_add, UInt32.toNat_one]
    omega
  have hnextLits : (a.litCount + .ofNat lits.length).toNat = a.litCount.toNat + lits.length := by
    rw [UInt64.toNat_add, show (UInt64.ofNat lits.length).toNat = lits.length from Nat.mod_eq_of_lt (by omega)]
    omega
  rw [Arena.run_appendAscending hlits h64]
  by_cases hfull : a.capacity < a.clauseCount.toNat + 1
  · rw [if_pos hfull]
    exact ⟨trivial, h.advance (Nat.le_succ k) (by omega) (by omega) (Nat.le_refl _)
      (Nat.le_trans hcount (Nat.mul_le_mul_right _ (Nat.le_succ k)))⟩
  rw [if_neg hfull]
  have hadv : Stores (k + 1)
      { a with clauseCount := a.clauseCount + 1, litCount := a.litCount + .ofNat lits.length } es :=
    h.advance (Nat.le_succ k) (by omega) (by omega) (by omega) (by omega)
  by_cases hroom : a.litCapacity < a.litCount.toNat + lits.length
  · rw [if_pos hroom]
    exact ⟨trivial, hadv⟩
  rw [if_neg hroom]
  have hlen' : a.len = a.clauseCount.toNat := Nat.min_eq_left (by omega)
  have hsucc : ({ a with clauseCount := a.clauseCount + 1, litCount := a.litCount + .ofNat lits.length } : Arena).len =
      a.clauseCount.toNat + 1 := by
    show min (a.clauseCount + 1).toNat a.capacity = _
    omega
  have hnum : a.litCount.toNat + lits.length ≤
      ({ a with clauseCount := a.clauseCount + 1, litCount := a.litCount + .ofNat lits.length } : Arena).numLits := by
    show _ ≤ min (a.litCount + .ofNat lits.length).toNat a.litCapacity
    omega
  refine ⟨hlen'.symm, fun ⟨l, hl⟩ => ?_, fun hall => lits_placed_of_forall_mem (by omega)
    (Nat.le_trans hnum (numLits_le_cells _)) h.cells_lt (nodup_of_pairwise_lt hlits) hall⟩
  have hstart : (UInt64.ofNat a.litCount.toNat).toNat = a.litCount.toNat := by rw [UInt64.ofNat_toNat]
  have hsize : (UInt32.ofNat lits.length).toNat = lits.length := Nat.mod_eq_of_lt (length_lt_of_notMem hlits hl)
  refine hadv.placed (Nat.lt_succ_of_le h.length_le) (by omega) (fun e he => ?_)
    (fun e he => Nat.le_trans (h.shows e he).inside (Nat.min_le_left _ _)) hnum hlits hstart hsize rfl rfl
  rw [← hlen']
  exact (h.shows e he).slot_lt

/-- Sorting and dropping repetitions keep the set of literals. -/
theorem toFinset_normal (lits : List Lit) : (dedupAdjacent (sortLits lits)).toFinset = lits.toFinset := by
  ext l
  simp [sortLits]

theorem Stores.run_append (h : Stores k a es) (hk : k + 1 < 2 ^ 32) (lits : List Lit) (status : Status) :
    match (Arena.append lits status).run.run a with
    | (.ok i, a') => i = a.len ∧
        ((∃ l, l ∉ lits) → Stores (k + 1) a' (es ++ [⟨i, lits.toFinset, status, false⟩])) ∧
        ((∀ l, l ∈ lits) → a'.lits i = .ok [])
    | (.error f, a') => Exhausted f ∧ Stores (k + 1) a' es := by
  have happend := h.run_appendAscending hk (pairwise_dedupAdjacent (pairwise_sortLits lits)) status
  rw [toFinset_normal] at happend
  simpa [Arena.append, sortLits] using happend

/-! ## Operations on one clause -/

namespace Stores

/-- A change that keeps the slots of the clauses and the starts of the blocks, none of which grows. -/
theorem changed {g : Entry → Entry} (h : Stores k a es) (hclauses : a'.clauseCount = a.clauseCount)
    (hlits : a'.litCount = a.litCount) (hslots : a'.headers.size = a.headers.size)
    (hcells : a'.cells.size = a.cells.size) (hg : ∀ e, (g e).slot = e.slot)
    (hstart : ∀ i, (a'.header i).start = (a.header i).start)
    (hsize : ∀ i, (a'.header i).size.toNat ≤ (a.header i).size.toNat) (hshows : ∀ e ∈ es, a'.Shows (g e))
    (hhole : ∀ i, (∀ e ∈ es, e.slot ≠ i) → { a'.header i with molten := false } = Header.vacant)
    (hvacant : ∀ i, a.len ≤ i → a'.header i = a.header i) : Stores k a' (es.map g) := by
  have hlen : a'.len = a.len := by
    unfold len capacity
    rw [hclauses, hslots]
  refine ⟨by rw [hslots]; exact h.slots_lt, by rw [hcells]; exact h.cells_lt, by rw [hclauses]; exact h.clauseCount_le,
    by rw [hlits]; exact h.litCount_le, by rw [List.length_map]; exact h.length_le, fun e he => ?_, fun i hi => ?_,
    fun i hi => ?_, ?_⟩
  · obtain ⟨f, hf, rfl⟩ := List.mem_map.1 he
    exact hshows f hf
  · exact hhole i fun e he => hg e ▸ hi (g e) (List.mem_map_of_mem he)
  · rw [hlen] at hi
    rw [hvacant i hi]
    exact h.vacant i hi
  · refine List.pairwise_map.2 (h.before.imp fun {e f} hef => ?_)
    unfold Before
    rw [hg, hg, hstart, hstart]
    exact ⟨hef.1, Nat.le_trans (Nat.add_le_add_left (hsize e.slot) _) hef.2⟩

/-- A change of the status or the melted flag. -/
theorem withHeader {hd : Header} {op : ClauseOp} (h : Stores k a es) (hi : i < a.len)
    (hstart : hd.start = (a.header i).start) (hsize : hd.size = (a.header i).size) (hsig : hd.sig = (a.header i).sig)
    (hop : ∀ e ∈ es, e.slot = i →
      (op.apply e).lits = e.lits ∧ hd.code = (op.apply e).status.code ∧ hd.molten = (op.apply e).molten)
    (hhole : (∀ e ∈ es, e.slot ≠ i) → hd.code = Status.deleted.code) :
    Stores k (a.withHeader i hd) (edited i op es) := by
  have hi' := Nat.lt_of_lt_of_le hi a.len_le_slots
  have hheader (j : Nat) : (a.withHeader i hd).header j = if j = i then hd else a.header j := header_withHeader hi' hd
  have htext := text_withHeader hi' hstart hsize
  refine h.changed rfl rfl (by simp [Arena.withHeader]) rfl (fun e => ?_) (fun j => ?_) (fun j => ?_) (fun e he => ?_)
    (fun j hj => ?_) fun j hj => ?_
  · split
    · exact op.slot_apply e
    · rfl
  · rw [hheader]
    split
    · next hj => rw [hj, hstart]
    · rfl
  · rw [hheader]
    split
    · next hj => rw [hj, hsize]
    · exact Nat.le_refl _
  · have hs := h.shows e he
    split
    · next hslot =>
      obtain ⟨hlits, hcode, hmolten⟩ := hop e he hslot
      have hnew : (a.withHeader i hd).header (op.apply e).slot = hd := by
        rw [hheader, op.slot_apply, if_pos hslot]
      have hkeep : (a.withHeader i hd).text (op.apply e).slot = a.text e.slot := by rw [htext, op.slot_apply]
      refine ⟨?_, ?_, ?_, ?_, ?_, ?_, ?_⟩
      · rw [len_withHeader, op.slot_apply]
        exact hs.slot_lt
      · rw [hnew, hstart, hsize]
        exact h.inside i
      · rw [hkeep]
        exact hs.ascends
      · rw [hkeep, hlits]
        exact hs.lits
      · rw [hnew, hkeep, hsig, ← hslot]
        exact hs.sig
      · rw [hnew, hcode]
      · rw [hnew, hmolten]
    · next hslot =>
      refine hs.congr (Nat.le_of_eq (len_withHeader _ _ _).symm) (Nat.le_refl _) ?_ (htext e.slot)
      rw [hheader, if_neg hslot]
  · have hv := h.hole j hj
    rw [hheader]
    split
    · next hji =>
      subst hji
      rw [← hv]
      simp [hstart, hsize, hsig, hhole hj, (h.header_hole hj).1]
    · exact hv
  · rw [hheader, if_neg (by omega)]

/-- A literal taken out of a clause. -/
theorem erased (h : Stores k a es) (hi : i < a.len) (hl : l ∈ a.text i) :
    Stores k (a.erased i l) (edited i (.erase l) es) ∧ ∀ j ≠ i, (a.erased i l).text j = a.text j := by
  have hi' := Nat.lt_of_lt_of_le hi a.len_le_slots
  have htext (j : Nat) : (a.erased i l).text j = if j = i then (a.text i).erase l else a.text j := by
    refine text_erased_of_apart hi' (h.inside_cells i) hl fun hj p hp hp' => ?_
    rcases h.apart hj with hempty | hempty | hap | hap
    · rw [hempty] at hp'
      exact absurd hp (Nat.not_le.2 hp')
    · rw [text, hempty] at hl
      simp at hl
    · omega
    · omega
  refine ⟨?_, fun j hj => by rw [htext, if_neg hj]⟩
  refine h.changed rfl rfl (by simp [Arena.erased]) (size_overwrite _ _ _) (fun e => ?_) (start_header_erased hi l)
    (size_header_erased hi l) (fun e he => ?_) (fun j hj => ?_) fun j hj => ?_
  · split <;> rfl
  · have hs := h.shows e he
    split
    · next hslot =>
      subst hslot
      have hnew : (a.erased e.slot l).text e.slot = (a.text e.slot).erase l := by rw [htext, if_pos rfl]
      refine ⟨?_, ?_, ?_, ?_, ?_, ?_, ?_⟩
      · rw [len_erased]
        exact hs.slot_lt
      · rw [start_header_erased hi, numLits_erased]
        exact Nat.le_trans (Nat.add_le_add_left (size_header_erased hi l _) _) hs.inside
      · show ((a.erased e.slot l).text e.slot).Pairwise _
        rw [hnew]
        exact hs.ascends.sublist List.erase_sublist
      · show ((a.erased e.slot l).text e.slot).toFinset = e.lits.erase l
        rw [hnew, ← hs.lits]
        ext m
        simp [(nodup_of_pairwise_lt hs.ascends).mem_erase_iff]
      · show ((a.erased e.slot l).header e.slot).sig = signature ((a.erased e.slot l).text e.slot)
        rw [hnew, header_erased hi, if_pos rfl]
      · show ((a.erased e.slot l).header e.slot).code = e.status.code
        rw [header_erased hi, if_pos rfl]
        exact hs.code
      · show ((a.erased e.slot l).header e.slot).molten = e.molten
        rw [header_erased hi, if_pos rfl]
        exact hs.molten
    · next hslot =>
      refine hs.congr (Nat.le_of_eq (len_erased _ _ _).symm) (Nat.le_of_eq (numLits_erased _ _ _).symm) ?_ ?_
      · rw [header_erased hi, if_neg hslot]
      · rw [htext, if_neg hslot]
  · have hji : j ≠ i := by
      rintro rfl
      rw [(h.header_hole hj).2.2.2.2] at hl
      cases hl
    rw [header_erased hi, if_neg hji]
    exact h.hole j hj
  · rw [header_erased hi, if_neg (by omega)]

/-- To erase a literal that is not there changes nothing. -/
theorem edited_erase (h : Stores k a es) (hl : l ∉ a.text i) : edited i (.erase l) es = es := by
  have hsame : ∀ e ∈ es, (if e.slot = i then (ClauseOp.erase l).apply e else e) = e := by
    intro e he
    split
    · next hslot =>
      have hnot : l ∉ e.lits := by
        rw [← (h.shows e he).lits, List.mem_toFinset, hslot]
        exact hl
      show { e with lits := e.lits.erase l } = e
      rw [Finset.erase_eq_of_notMem hnot]
    · rfl
  unfold edited
  rw [List.map_congr_left hsame, List.map_id']

/-- An operation on one clause does to the list what it does to the arena, and changes no other slot. -/
theorem edit_ok {op : ClauseOp} (h : Stores k a es) (hi : i < a.len) (hop : op.Allowed (a.header i)) :
    ∃ a', (onClause i op.run).run? a = .ok ((), a') ∧ Stores k a' (edited i op es) ∧ a'.len = a.len ∧
      ∀ j ≠ i, a'.header j = a.header j ∧ a'.text j = a.text j := by
  have hi' := Nat.lt_of_lt_of_le hi a.len_le_slots
  have hframe (hd : Header) (hstart : hd.start = (a.header i).start) (hsize : hd.size = (a.header i).size) (j : Nat)
      (hj : j ≠ i) : (a.withHeader i hd).header j = a.header j ∧ (a.withHeader i hd).text j = a.text j :=
    ⟨by rw [header_withHeader hi', if_neg hj], text_withHeader hi' hstart hsize j⟩
  cases op with
  | melt =>
    have hstores : Stores k (a.withHeader i { a.header i with molten := true }) (edited i .melt es) :=
      h.withHeader hi rfl rfl rfl (fun e he hslot => ⟨rfl, hslot ▸ (h.shows e he).code, rfl⟩)
        fun hj => (h.header_hole hj).1
    exact ⟨_, by rw [run?_onClause hi']; rfl, hstores, len_withHeader _ _ _, hframe _ rfl rfl⟩
  | freeze =>
    have hstores : Stores k (a.withHeader i { a.header i with molten := false }) (edited i .freeze es) :=
      h.withHeader hi rfl rfl rfl (fun e he hslot => ⟨rfl, hslot ▸ (h.shows e he).code, rfl⟩)
        fun hj => (h.header_hole hj).1
    exact ⟨_, by rw [run?_onClause hi']; rfl, hstores, len_withHeader _ _ _, hframe _ rfl rfl⟩
  | delete =>
    have hstores : Stores k (a.withHeader i { a.header i with code := Status.deleted.code }) (edited i .delete es) :=
      h.withHeader hi rfl rfl rfl (fun e he hslot => ⟨rfl, rfl, hslot ▸ (h.shows e he).molten⟩) fun _ => rfl
    exact ⟨_, by rw [run?_onClause hi']; rfl, hstores, len_withHeader _ _ _, hframe _ rfl rfl⟩
  | setStatus status =>
    obtain ⟨s, hs⟩ := h.labelled i hi
    have hne : s ≠ .deleted := by
      rintro rfl
      exact hop hs
    have hstores : Stores k (a.withHeader i { a.header i with code := status.code })
        (edited i (.setStatus status) es) :=
      h.withHeader hi rfl rfl rfl (fun e he hslot => ⟨rfl, rfl, hslot ▸ (h.shows e he).molten⟩)
        fun hj => absurd (Header.status_eq_ok_iff.2 (h.header_hole hj).1) hop
    refine ⟨_, ?_, hstores, len_withHeader _ _ _, hframe _ rfl rfl⟩
    show (onClause i (Clause.setStatus status)).run? a = _
    rw [run?_onClause hi', Clause.run?_setStatus (c := a.clauseAt i) hs, if_pos hne]
    rfl
  | erase l =>
    have hrun : (onClause i (ClauseOp.erase l).run).run? a =
        (onClause i (Clause.erase l)).run? a >>= fun r => .ok ((), r.2) := by
      rw [run?_onClause hi', run?_onClause hi']
      simp only [ClauseOp.run, Update.run?_bind, Update.run?_pure]
      cases (Clause.erase l).run? (a.clauseAt i) <;> rfl
    by_cases hl : l ∈ a.text i
    · obtain ⟨hstores, htext⟩ := h.erased hi hl
      refine ⟨a.erased i l, by rw [hrun, run?_erase hi' (h.inside_cells i) h.cells_lt hl]; rfl, hstores,
        len_erased _ _ _, fun j hj => ⟨?_, htext j hj⟩⟩
      rw [header_erased hi, if_neg hj]
    · have hlits : (a.clauseAt i).lits = .ok (a.text i) := by
        have := h.lits_ok hi
        rwa [Arena.lits, clause_ok hi, ok_bind] at this
      refine ⟨a, ?_, by rwa [h.edited_erase hl], rfl, fun j hj => ⟨rfl, rfl⟩⟩
      rw [hrun, run?_erase_of_notMem hi' hlits hl]
      rfl

end Stores

/-- An operation that answers was allowed. -/
theorem allowed_of_run {op : ClauseOp} (hi : i < a.len) (hrun : (onClause i op.run).run? a = .ok ((), a')) :
    op.Allowed (a.header i) := by
  cases op with
  | setStatus status =>
    intro hs
    have hfault : (onClause i (Clause.setStatus status)).run? a = .error .statusOfDeleted := by
      rw [run?_onClause (Nat.lt_of_lt_of_le hi a.len_le_slots), Clause.run?_setStatus (c := a.clauseAt i) hs]
      rfl
    exact absurd (hrun.symm.trans hfault) nofun
  | _ => trivial

/-! ## Compaction -/

section Compacted

variable (h : Stores k src es)
include h

/-- The clause with the new number `m` is the one of survivor `m`. -/
theorem Stores.getElem?_survivors {m : Nat} (hm : m < (es.filter Entry.live).length) :
    src.survivors[m]? = some (es.filter Entry.live)[m].slot := by
  rw [h.survivors_eq, List.getElem?_map, List.getElem?_eq_getElem hm, Option.map_some]

theorem Stores.getElem?_bodies {m : Nat} (hm : m < (es.filter Entry.live).length) :
    src.bodies[m]? = some (src.text (es.filter Entry.live)[m].slot) := by
  rw [bodies_eq_map, List.getElem?_map]
  exact congrArg (Option.map src.text) (h.getElem?_survivors hm)

variable (hslots : a.headers.size < 2 ^ 32) (hcells : a.cells.size < 2 ^ 64)
  (hn : src.bodies.length ≤ a.headers.size) (hroom : volume src.bodies ≤ a.cells.size)
include hslots hcells hn hroom

/-- The moved clauses are those of the list, with their new numbers. -/
theorem Stores.shows_compacted {m : Nat} (hm : m < (es.filter Entry.live).length) :
    (Arena.compacted src a).Shows { (es.filter Entry.live)[m] with slot := m } := by
  obtain ⟨hes, hlive⟩ := List.mem_filter.1 (List.getElem_mem hm)
  have hshow := h.shows _ hes
  have hs := stacks_compacted hn hroom
  have hal : ∀ i ∈ src.survivors, src.alive i := fun i => alive_of_mem_survivors
  have hm' : m < src.bodies.length := by rwa [h.length_bodies]
  have htext : (Arena.compacted src a).text m = src.text (es.filter Entry.live)[m].slot :=
    hs.text h.readable hal (by rwa [cells_compacted]) (h.getElem?_survivors hm)
  have hheader := hs.header m _ (h.getElem?_survivors hm)
  refine ⟨by rwa [len_compacted hslots hn], ?_, by rw [htext]; exact hshow.ascends, by rw [htext]; exact hshow.lits,
    ?_, ?_, ?_⟩
  · rw [start_compacted hcells hn hroom hm', size_compacted h.readable hn hroom (h.getElem?_bodies hm),
      numLits_compacted hcells hroom]
    exact volume_take_add_le (h.getElem?_bodies hm)
  · rw [htext, hheader]
    exact hshow.sig
  · rw [hheader]
    exact hshow.code
  · rw [hheader]
    simpa [Header.moved] using (Bool.and_eq_true_iff.1 hlive).2

/-- Compaction keeps the live clauses, and vacant slots are left behind them. -/
theorem Stores.compacted (hvacant : ∀ i, a.len ≤ i → a.header i = .vacant) :
    Stores k (compacted src a) (packed es) := by
  have hcount : (es.filter Entry.live).length ≤ k := Nat.le_trans (List.length_filter_le _ _) h.length_le
  have hbeyond (i : Nat) (hi : src.bodies.length ≤ i) : (Arena.compacted src a).header i = .vacant := by
    rcases Nat.lt_or_ge i a.len with hlt | hle
    · exact header_compacted_of_le hi hlt
    · rw [header_compacted_of_len_le hn hi hle]
      exact hvacant i hle
  refine ⟨by rwa [slots_compacted], by rwa [cells_compacted], ?_, ?_, ?_, fun e he => ?_, fun i hi => ?_,
    fun i hi => ?_, ?_⟩
  · rw [clauseCount_compacted hslots hn, h.length_bodies]
    exact hcount
  · rw [litCount_compacted hcells hroom]
    refine Nat.le_trans ?_ (Nat.mul_le_mul_right _ hcount)
    rw [← h.length_bodies]
    refine volume_le_mul fun c hc => ?_
    obtain ⟨i, hi⟩ := mem_bodies.1 hc
    rw [← text_of_body hi]
    exact length_le_of_nodup (nodup_of_pairwise_lt (h.ascends i).1)
  · unfold packed
    rwa [List.length_mapIdx]
  · obtain ⟨m, hm, rfl⟩ := List.mem_mapIdx.1 he
    exact h.shows_compacted hslots hcells hn hroom hm
  · rcases Nat.lt_or_ge i src.bodies.length with hlt | hle
    · have hm : i < (es.filter Entry.live).length := by rwa [← h.length_bodies]
      exact absurd rfl (hi _ (List.mem_mapIdx.2 ⟨i, hm, rfl⟩))
    · rw [hbeyond i hle]
      rfl
  · rw [len_compacted hslots hn] at hi
    exact hbeyond i hi
  · refine List.pairwise_iff_getElem.2 fun m m' hm hm' hlt => ?_
    unfold packed at hm hm'
    rw [List.length_mapIdx] at hm hm'
    unfold Before packed
    rw [List.getElem_mapIdx, List.getElem_mapIdx, start_compacted hcells hn hroom (by rwa [h.length_bodies]),
      start_compacted hcells hn hroom (by rwa [h.length_bodies]),
      size_compacted h.readable hn hroom (h.getElem?_bodies hm), ← volume_take_succ (h.getElem?_bodies hm)]
    exact ⟨hlt, volume_take_le hlt⟩

end Compacted

/-- Every arena that a new one can become stores its list. -/
theorem Reachable.stores (h : Reachable k a es) (hk : k < 2 ^ 32) : Stores k a es := by
  induction h with
  | allocate hrun => exact .of_allocate hrun
  | @append _ _ _ _ _ lits status _ hl hrun ih =>
    have hstep := (ih (by omega)).run_append hk lits status
    rw [Update.run?_eq_ok_iff.1 hrun] at hstep
    exact hstep.2.1 hl
  | @appendFault _ _ _ _ lits status _ _ hrun ih =>
    have hstep := (ih (by omega)).run_append hk lits status
    rw [hrun] at hstep
    exact hstep.2
  | @appendAscending _ _ _ _ _ _ status _ hlits hl hrun ih =>
    have hstep := (ih (by omega)).run_appendAscending hk hlits status
    rw [Update.run?_eq_ok_iff.1 hrun] at hstep
    exact hstep.2.1 hl
  | @appendAscendingFault _ _ _ _ _ status _ _ hlits hrun ih =>
    have hstep := (ih (by omega)).run_appendAscending hk hlits status
    rw [hrun] at hstep
    exact hstep.2
  | edit _ hi hrun ih =>
    obtain ⟨a', hrun', hstores, _⟩ := (ih hk).edit_ok hi (allowed_of_run hi hrun)
    rw [hrun, Except.ok.injEq, Prod.mk.injEq] at hrun'
    rwa [hrun'.2]
  | @shrink k a a' es _ hrun ih =>
    have hs := ih hk
    rw [shrink_eq hs.readable hs.volume_le, Except.ok.injEq, Prod.mk.injEq] at hrun
    rw [← hrun.2]
    exact hs.compacted hs.slots_lt hs.cells_lt a.length_bodies_le_slots hs.volume_le hs.vacant
  | copyFrom _ _ hrun ih ih' =>
    have hs := ih (by omega)
    have hs' := ih' (by omega)
    have hends := compactFrom_eq (E := fun _ => True) hs'.readable hs.cells_lt (Or.inl fun _ => trivial)
    obtain ⟨heq, hn, hroom⟩ := hends.of_ok hrun
    rw [Prod.mk.injEq] at heq
    rw [heq.2]
    exact (hs'.compacted hs.slots_lt hs.cells_lt hn hroom hs.vacant).mono (Nat.le_max_right _ _)

/-! ## The refinement -/

/-- The arena shows exactly a list of clauses: the blocks of its slots lie in the row of cells and apart, every slot
holds an ascending clause and its signature, and the live clauses are those of the list. -/
structure Faithful (a : Arena) (es : List Entry) : Prop where
  inside : ∀ i < a.len, (a.header i).start.toNat + (a.header i).size.toNat ≤ a.litCapacity
  apart : ∀ i < a.len, ∀ j < a.len, i ≠ j → ∀ p, ¬(a.Owns i p ∧ a.Owns j p)
  slot : ∀ i < a.len, ∃ c, a.lits i = .ok c ∧ c.Pairwise (· < ·) ∧ (a.header i).sig = signature c
  vacant : ∀ i, a.len ≤ i → i < a.capacity → a.headers[i]? = some .vacant
  entry : ∀ e ∈ es, e.slot < a.len ∧ (a.lits e.slot).map List.toFinset = .ok e.lits ∧
    (a.header e.slot).status = .ok e.status ∧ (a.header e.slot).molten = e.molten
  live : a.mapLive (fun i c => do return (i, (← c.lits).toFinset, ← c.header.status)) =
    .ok ((es.filter Entry.live).map fun e => (e.slot, e.lits, e.status))

/-- No operation faults unless it has to: an append may find no room. An operation on one clause changes no other slot.
The next append is an attempt more; it stores its clause as it is, unless that is the clause of all literals. Compaction
into the arena needs room for the live clauses. -/
structure Proceeds (k : Nat) (a : Arena) (es : List Entry) : Prop where
  edit : ∀ i < a.len, ∀ op : ClauseOp, op.Allowed (a.header i) →
    ∃ a', (onClause i op.run).run? a = .ok ((), a') ∧ a'.len = a.len ∧
      ∀ j < a.len, j ≠ i → a'.header j = a.header j ∧ a'.lits j = a.lits j
  append : k + 1 < 2 ^ 32 → ∀ lits status, Ends Exhausted ((append lits status).run? a) fun r => r.1 = a.len ∧
    (Faithful r.2 (es ++ [⟨r.1, lits.toFinset, status, false⟩]) ↔ ∃ l, l ∉ lits)
  appendAscending : k + 1 < 2 ^ 32 → ∀ lits status, lits.Pairwise (· < ·) →
    Ends Exhausted ((appendAscending lits status).run? a) fun r => r.1 = a.len ∧
      (Faithful r.2 (es ++ [⟨r.1, lits.toFinset, status, false⟩]) ↔ ∃ l, l ∉ lits)
  shrink : ∃ a', shrink.run? a = .ok ((), a')
  copyFrom : ∀ k' src es', Reachable k' src es' → k' < 2 ^ 32 → (es'.filter Entry.live).length ≤ a.capacity →
    ((es'.filter Entry.live).map fun e => e.lits.card).sum ≤ a.litCapacity →
    ∃ a', (compactFrom src).run? a = .ok ((), a')

namespace Stores

theorem faithful (h : Stores k a es) : Faithful a es := by
  refine ⟨fun i _ => h.inside_cells i, fun i _ j _ hij p hp => ?_, fun i hi => ⟨a.text i, h.lits_ok hi, h.ascends i⟩,
    fun i hi hcap => ?_, fun e he => ?_, ?_⟩
  · obtain ⟨⟨hi, hi'⟩, hj, hj'⟩ := hp
    rcases h.apart hij with hempty | hempty | hap | hap
    · rw [hempty] at hi'
      exact Nat.not_le.2 hi' hi
    · rw [hempty] at hj'
      exact Nat.not_le.2 hj' hj
    · omega
    · omega
  · have hcap : i < a.headers.size := hcap
    rw [← h.vacant i hi, header_eq hcap, Array.getElem?_eq_getElem hcap]
  · have hs := h.shows e he
    refine ⟨hs.slot_lt, ?_, hs.status, hs.molten⟩
    rw [h.lits_ok hs.slot_lt, ← hs.lits]
    rfl
  · have hstatus (i : Nat) (c : List Lit) (hc : a.body i = some c) :
        (a.header i).status = .ok ((Status.ofCode? (a.header i).code).getD .deleted) := by
      obtain ⟨s, hs⟩ := h.labelled i (lt_of_body hc)
      rw [Header.status_eq_ok_iff.1 hs, Status.ofCode?_code, hs]
      rfl
    rw [h.labelled.mapLive_ok (g := fun i c => (i, c.toFinset, (Status.ofCode? (a.header i).code).getD .deleted))
      fun i c hc => ?_, filterMap_body]
    · refine congrArg Except.ok ?_
      show a.survivors.map _ = _
      rw [h.survivors_eq, List.map_map]
      refine List.map_congr_left fun e he => ?_
      have hs := h.shows e (List.mem_filter.1 he).1
      simp [hs.lits, hs.code]
    · rw [h.readable.lits_clauseAt (body_eq_some_iff.1 hc).1, text_of_body hc]
      show (Except.ok c >>= fun c => (a.header i).status >>= fun s => pure (i, c.toFinset, s)) = _
      rw [hstatus i c hc]
      rfl

/-- The live clauses have as many literals as those of the list. -/
theorem volume_eq (h : Stores k a es) : volume a.bodies = ((es.filter Entry.live).map fun e => e.lits.card).sum := by
  have hbodies : a.bodies = (es.filter Entry.live).map fun e => a.text e.slot := by
    rw [bodies_eq_map]
    show a.survivors.map a.text = _
    rw [h.survivors_eq, List.map_map]
    rfl
  rw [hbodies, volume, List.map_map]
  refine congrArg List.sum (List.map_congr_left fun e he => ?_)
  have hs := h.shows e (List.mem_filter.1 he).1
  rw [← hs.lits, List.toFinset_card_of_nodup (nodup_of_pairwise_lt hs.ascends)]
  rfl

/-- A clause is shown exactly if it misses a literal. -/
theorem faithful_iff {status : Status}
    (hstores : (∃ l, l ∉ lits) → Stores k a' (es ++ [⟨i, lits.toFinset, status, false⟩]))
    (hempty : (∀ l, l ∈ lits) → a'.lits i = .ok []) :
    Faithful a' (es ++ [⟨i, lits.toFinset, status, false⟩]) ↔ ∃ l, l ∉ lits := by
  refine ⟨fun hf => ?_, fun hl => (hstores hl).faithful⟩
  by_contra hall
  rw [not_exists_not] at hall
  obtain ⟨-, hentry, -, -⟩ := hf.entry _ (List.mem_append_right _ (List.mem_singleton_self _))
  rw [hempty hall] at hentry
  have hnone : ([] : List Lit).toFinset = lits.toFinset := Except.ok.inj hentry
  have hmem : (default : Lit) ∈ lits.toFinset := List.mem_toFinset.2 (hall _)
  rw [← hnone] at hmem
  exact absurd hmem (Finset.notMem_empty _)

theorem proceeds (h : Stores k a es) : Proceeds k a es := by
  refine ⟨fun i hi op hop => ?_, fun hk lits status => ?_, fun hk lits status hlits => ?_,
    ⟨_, shrink_eq h.readable h.volume_le⟩, fun k' src es' hsrc hk' hn hroom => ?_⟩
  · obtain ⟨a', hrun, hstores, hlen, hframe⟩ := h.edit_ok hi hop
    refine ⟨a', hrun, hlen, fun j hj hji => ⟨(hframe j hji).1, ?_⟩⟩
    rw [hstores.lits_ok (hlen ▸ hj), h.lits_ok hj, (hframe j hji).2]
  · have hstep := h.run_append hk lits status
    unfold Update.run?
    rcases hrun : (Arena.append lits status).run.run a with ⟨f | i, a'⟩ <;> rw [hrun] at hstep
    · exact hstep.1
    · exact ⟨hstep.1, faithful_iff hstep.2.1 hstep.2.2⟩
  · have hstep := h.run_appendAscending hk hlits status
    unfold Update.run?
    rcases hrun : (Arena.appendAscending lits status).run.run a with ⟨f | i, a'⟩ <;> rw [hrun] at hstep
    · exact hstep.1
    · exact ⟨hstep.1, faithful_iff hstep.2.1 hstep.2.2⟩
  · have hs := hsrc.stores hk'
    rw [← hs.length_bodies] at hn
    rw [← hs.volume_eq] at hroom
    have hends := compactFrom_eq (E := fun _ => False) hs.readable h.cells_lt (Or.inr ⟨hn, hroom⟩)
    obtain ⟨r, hrun, rfl, _⟩ := hends.exists_ok fun _ => id
    exact ⟨_, hrun⟩

/-- The clause of all literals, where there is room for it. -/
theorem lost_of_forall_mem (h : Stores k a es) (hk : k + 1 < 2 ^ 32) (hlits : lits.Pairwise (· < ·))
    (hall : ∀ l, l ∈ lits) (status : Status) (hslot : a.clauseCount.toNat + 1 ≤ a.capacity)
    (hroom : a.litCount.toNat + lits.length ≤ a.litCapacity) :
    ∃ a', (Arena.appendAscending lits status).run? a = .ok (a.len, a') ∧ a'.lits a.len = .ok [] ∧
      ¬Faithful a' (es ++ [⟨a.len, lits.toFinset, status, false⟩]) := by
  have hstep := h.run_appendAscending hk hlits status
  have hrun : (Arena.appendAscending lits status).run.run a = _ :=
    Arena.run_appendAscending hlits (Nat.lt_of_le_of_lt hroom h.cells_lt)
  rw [if_neg (Nat.not_lt.2 hslot), if_neg (Nat.not_lt.2 hroom)] at hrun
  rw [hrun] at hstep
  obtain ⟨hi, hstores, hempty⟩ := hstep
  rw [hi] at hrun hstores hempty
  refine ⟨_, Update.run?_eq_ok_iff.2 hrun, hempty hall, fun hf => ?_⟩
  obtain ⟨l, hl⟩ := (faithful_iff hstores hempty).1 hf
  exact hl (hall l)

end Stores

end Arena

end CnfSimp
