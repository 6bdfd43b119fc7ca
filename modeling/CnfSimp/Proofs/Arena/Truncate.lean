import CnfSimp.Proofs.Arena.Refinement

/-!
# Truncating an arena

Truncation moves the counters back. The headers behind them stay, and a reservation of slots that no append fills puts
them in use again.

* `Arena.truncate`: keeps the clauses of the first slots and their literals.
* `ArenaOp`, `Arena.step`: a run of appends, reservations and compactions, which goes on after an operation that faults.
  `Arena.Moves` says what one step can do to the slots.
* `Arena.Resurfaces`, `Arena.Exposes`: a header behind the slots in use is in use again, and a step hands its slot out
  bare, that is, without a clause.
* `truncated_resurfaces_iff`: a clause that was cut off resurfaces exactly if its slot is handed out bare before an
  append fills it, and compaction drops every other bare slot.
* `truncated_clause_resurfaces`: a run that brings a clause back, and compaction keeps it.
-/

namespace CnfSimp

/-- An operation of a run. -/
inductive ArenaOp where
  | append (lits : List Lit) (status : Status)
  | appendAscending (lits : List Lit) (status : Status)
  | reserveClauses (n : UInt32)
  | reserveLits (n : UInt64)
  | shrink
  deriving DecidableEq

/-- The operation on the arena. It answers the slot that it installs a clause in, if it does. -/
def ArenaOp.run : ArenaOp → Update Arena (Option Nat)
  | .append lits status => do return some (← Arena.append lits status)
  | .appendAscending lits status => do return some (← Arena.appendAscending lits status)
  | .reserveClauses n => do
    let _ ← Arena.reserveClauses n
    return none
  | .reserveLits n => do
    let _ ← Arena.reserveLits n
    return none
  | .shrink => do
    Arena.shrink
    return none

/-- One operation of a run: the slot that it installs a clause in, and what it leaves behind. -/
structure ArenaStep where
  installed? : Option Nat
  after : Arena
  deriving DecidableEq

namespace Arena

/-- Where the literals of the first `n` slots end. -/
def litEnd (a : Arena) (n : Nat) : Nat :=
  ((List.range n).map fun i => (a.header i).start.toNat + (a.header i).size.toNat).foldr max 0

/-- Keeps the first `n` slots, and the literals up to the end of the clauses in them. -/
def truncate (n : UInt32) : Update Arena Unit := do
  resize n
  resizeLits (.ofNat ((← get).litEnd n.toNat))

/-- An operation on an arena. One that faults installs nothing. -/
def step (a : Arena) (q : ArenaOp) : ArenaStep :=
  match q.run.run.run a with
  | (.ok installed?, after) => ⟨installed?, after⟩
  | (.error _, after) => ⟨none, after⟩

/-- What a run leaves behind. Whether its operations succeed or fail, each starts from what the one before it left. -/
def after (a : Arena) : List ArenaOp → Arena
  | [] => a
  | q :: qs => (a.step q).after.after qs

/-- The slots that an operation puts in use bare, without a clause. -/
def bareSlots (a : Arena) (q : ArenaOp) : List Nat :=
  match (a.step q).installed? with
  | some _ => []
  | none => List.range' a.len ((a.step q).after.len - a.len)

/-- At some point of a run the header `h` is the live header of slot `i`, and no append has filled the slot. -/
def Resurfaces (h : Header) (i : Nat) (a : Arena) : List ArenaOp → Prop
  | [] => a.alive i ∧ a.header i = h
  | q :: qs =>
    (a.alive i ∧ a.header i = h) ∨ (a.step q).installed? ≠ some i ∧ Resurfaces h i (a.step q).after qs

/-- At some point of a run slot `i` is put in use bare, and no append has filled it. -/
def Exposes (i : Nat) (a : Arena) : List ArenaOp → Prop
  | [] => False
  | q :: qs => i ∈ a.bareSlots q ∨ (a.step q).installed? ≠ some i ∧ Exposes i (a.step q).after qs

/-- The slots that a run put in use bare after its last compaction. -/
def bareAfter (a : Arena) : List ArenaOp → List Nat
  | [] => []
  | q :: qs => (if .shrink ∈ qs then [] else a.bareSlots q) ++ (a.step q).after.bareAfter qs

/-- No append and no reservation of a run takes slots out of use, as one does that takes the counter of the slots around
to a place inside the row. -/
def Grows (a : Arena) : List ArenaOp → Prop
  | [] => True
  | q :: qs => (q ≠ .shrink → a.len ≤ (a.step q).after.len) ∧ (a.step q).after.Grows qs

/-! ## One operation -/

/-- The rows of slots are the same from a slot on, and as many slots are in use. -/
structure SameFrom (n : Nat) (a a' : Arena) : Prop where
  slots : a'.headers.size = a.headers.size
  clauseCount : a'.clauseCount = a.clauseCount
  header : ∀ i, n ≤ i → a'.header i = a.header i

instance (n : Nat) : Std.Refl (SameFrom n) := ⟨fun _ => ⟨rfl, rfl, fun _ _ => rfl⟩⟩

instance (n : Nat) : IsTrans Arena (SameFrom n) :=
  ⟨fun _ _ _ h h' => ⟨h'.slots.trans h.slots, h'.clauseCount.trans h.clauseCount,
    fun i hi => (h'.header i hi).trans (h.header i hi)⟩⟩

/-- Slots are given back and left vacant, and those that were not in use stay as they were. -/
structure GivesBack (a a' : Arena) : Prop where
  slots : a'.headers.size = a.headers.size
  len_le : a'.len ≤ a.len
  header : ∀ i, a.len ≤ i → a'.header i = a.header i
  vacant : ∀ i, a'.len ≤ i → i < a.len → a'.header i = .vacant

/-- What one operation can do to the slots, in use or not: an append that succeeds fills the first one that is not in
use; a reservation, also that of an append that fails, only moves the counter; and compaction gives slots back. -/
inductive Moves (a : Arena) : ArenaOp → Option Nat → Arena → Prop
  | installs {q : ArenaOp} {a' : Arena} : q ≠ .shrink → a'.len = a.len + 1 →
      (∀ i, i ≠ a.len → a'.header i = a.header i) → Moves a q (some a.len) a'
  | counts {q : ArenaOp} {a' : Arena} : q ≠ .shrink → (∀ i, a'.header i = a.header i) → Moves a q none a'
  | compacts {a' : Arena} : a.GivesBack a' → Moves a .shrink none a'

variable {a a' : Arena} {es : List Entry} {i k m n pos : Nat} {is : List Nat} {q : ArenaOp} {qs : List ArenaOp}
  {scratch : Option (List Lit)}

theorem SameFrom.len (h : SameFrom n a a') : a'.len = a.len := by
  unfold Arena.len capacity
  rw [h.slots, h.clauseCount]

theorem SameFrom.givesBack (h : SameFrom n a a') (hn : n ≤ a.len) : a.GivesBack a' :=
  ⟨h.slots, Nat.le_of_eq h.len, fun i hi => h.header i (Nat.le_trans hn hi),
    fun _ hi hlt => absurd (h.len ▸ hi) (Nat.not_le.2 hlt)⟩

/-- Packing writes only the slots that it packs clauses into. -/
theorem packFrom_keeps (hn : n + is.length ≤ m) : (packFrom scratch n pos is).Keeps (SameFrom m) := by
  induction is generalizing scratch n pos with
  | nil => exact .pure _
  | cons i is ih =>
    rw [List.length_cons] at hn
    have hrest (scratch : Option (List Lit)) (pos : Nat) : (packFrom scratch (n + 1) pos is).Keeps (SameFrom m) :=
      ih (by omega)
    have hheader (h : Header) : (modify (withHeader · n h) : Update Arena Unit).Keeps (SameFrom m) :=
      .modify fun a => ⟨Array.size_setIfInBounds, rfl, fun i hi => header_withHeader_of_ne (by omega) h⟩
    have hcells (cells : Arena → Array Lit) :
        (modify fun a => { a with cells := cells a } : Update Arena Unit).Keeps (SameFrom m) :=
      .modify fun _ => ⟨rfl, rfl, fun _ _ => rfl⟩
    rw [packFrom]
    refine .bind .get fun _ => .bind (.lift _) fun c => .bind (.lift _) fun status => ?_
    split
    · refine .bind (.require _ _) fun _ => ?_
      cases scratch with
      | none => exact .bind (fun _ => ⟨rfl, rfl, fun _ _ => rfl⟩) fun _ => .bind (hheader _) fun _ => hrest _ _
      | some lits => exact .bind (hcells _) fun _ => .bind (hheader _) fun _ => hrest _ _
    · exact hrest _ _

/-- Packing fills as many slots as there are clauses. -/
theorem packFrom_ends (scratch : Option (List Lit)) (n pos : Nat) (is : List Nat) (a : Arena) :
    Ends (fun _ => True) ((packFrom scratch n pos is).run? a) fun r => r.1.1 = n + is.length := by
  induction is generalizing scratch n pos a with
  | nil => exact rfl
  | cons i is ih =>
    have hrest (scratch : Option (List Lit)) (pos : Nat) (a : Arena) :
        Ends (fun _ => True) ((packFrom scratch (n + 1) pos is).run? a) fun r => r.1.1 = n + (i :: is).length :=
      (ih scratch (n + 1) pos a).imp fun r hr => by rw [hr, List.length_cons, Nat.add_assoc, Nat.add_comm 1]
    rw [packFrom]
    refine Update.ends_bind fun _ _ => Update.ends_bind fun c _ => Update.ends_bind fun status _ => ?_
    split
    · refine Update.ends_bind fun _ _ => ?_
      cases scratch with
      | none => exact Update.ends_bind fun _ _ => Update.ends_bind fun _ _ => hrest _ _ _
      | some lits => exact Update.ends_bind fun _ _ => Update.ends_bind fun _ _ => hrest _ _ _
    · exact hrest _ _ _

/-- There are at most as many live clauses as slots in use. -/
theorem length_le_of_live (h : a.live = .ok is) : is.length ≤ a.len := by
  rw [← List.length_range (n := a.len)]
  exact length_le_of_filterMapM h

theorem mem_bareSlots : i ∈ a.bareSlots q ↔
    (a.step q).installed? = none ∧ a.len ≤ i ∧ i < (a.step q).after.len := by
  unfold bareSlots
  cases (a.step q).installed? with
  | none =>
    rw [List.mem_range'_1]
    exact ⟨fun h => ⟨rfl, h.1, by omega⟩, fun h => ⟨h.2.1, by omega⟩⟩
  | some j => exact ⟨nofun, nofun⟩

namespace Moves

variable {installed? : Option Nat}

/-- A slot behind those in use keeps its header unless a clause is installed there, and comes into use only bare. -/
theorem behind (h : a.Moves q installed? a') (hi : a.len ≤ i) (hne : installed? ≠ some i) :
    a'.header i = a.header i ∧ (i < a'.len → installed? = none) := by
  cases h with
  | installs _ hlen hheader =>
    have hia : i ≠ a.len := fun hia => hne (congrArg some hia.symm)
    exact ⟨hheader i hia, fun hlt => absurd hlt (by omega)⟩
  | counts _ hheader => exact ⟨hheader i, fun _ => rfl⟩
  | compacts hback => exact ⟨hback.header i hi, fun _ => rfl⟩

/-- A slot in use keeps its header, except in a compaction. -/
theorem before (h : a.Moves q installed? a') (hq : q ≠ .shrink) (hi : i < a.len) : a'.header i = a.header i := by
  cases h with
  | installs _ _ hheader => exact hheader i (Nat.ne_of_lt hi)
  | counts _ hheader => exact hheader i
  | compacts _ => exact absurd rfl hq

/-- A live header behind the slots that are left in use was behind those in use before. -/
theorem live (h : a.Moves q installed? a') (hgrows : q ≠ .shrink → a.len ≤ a'.len) (hi : a'.len ≤ i)
    (hlive : (a'.header i).live) : a.len ≤ i ∧ installed? ≠ some i := by
  cases h with
  | installs _ hlen _ =>
    rw [hlen] at hi
    exact ⟨Nat.le_of_succ_le hi, fun hia => Nat.ne_of_lt hi (Option.some.inj hia)⟩
  | counts hq _ => exact ⟨Nat.le_trans (hgrows hq) hi, nofun⟩
  | compacts hback =>
    refine ⟨Nat.le_of_not_lt fun hlt => ?_, nofun⟩
    rw [hback.vacant i hi hlt] at hlive
    cases hlive

end Moves

section Steps

variable (hslots : a.headers.size < 2 ^ 32)
include hslots

/-- Closing the row behind slots that have been written. -/
theorem SameFrom.givesBack_closed (h : SameFrom n a a') (hn : n ≤ a.len) (lits : Nat) :
    a.GivesBack (a'.closed n lits) := by
  have hsize : (a'.closed n lits).headers.size = a.headers.size := (size_overwrite _ _ _).trans h.slots
  have hle := a.len_le_slots
  have hlen : (a'.closed n lits).len = n := by
    unfold Arena.len capacity
    rw [hsize, show (a'.closed n lits).clauseCount.toNat = n from Nat.mod_eq_of_lt (by omega)]
    omega
  refine ⟨hsize, by rwa [hlen], fun i hi => ?_, fun i hi hlt => ?_⟩
  · rw [header_closed_of_len_le _ (Nat.le_trans hn hi) (by rwa [h.len]), h.header i (Nat.le_trans hn hi)]
  · exact header_closed_of_lt _ (hlen ▸ hi) (by rwa [h.len])

/-- Compaction, whether it faults or not. -/
theorem shrink_givesBack : a.GivesBack (shrink.run.run a).2 := by
  have hstay : a.GivesBack a := (refl_of (SameFrom 0) a).givesBack (Nat.zero_le _)
  simp only [shrink, Update.run_bind, Update.run_get, Update.run_lift]
  cases hlive : a.live with
  | error f => exact hstay
  | ok is =>
    have hlen := length_le_of_live hlive
    have hpack (scratch : Option (List Lit)) :
        a.GivesBack ((packFrom scratch 0 0 is >>= fun r => close r.1 r.2).run.run a).2 := by
      have hkeeps : SameFrom is.length a ((packFrom scratch 0 0 is).run.run a).2 :=
        packFrom_keeps (Nat.zero_add _).le a
      have hends := packFrom_ends scratch 0 0 is a
      unfold Update.run? at hends
      rw [Update.run_bind]
      generalize (packFrom scratch 0 0 is).run.run a = o at hkeeps hends ⊢
      obtain ⟨_ | ⟨n, pos⟩, a'⟩ := o
      · exact hkeeps.givesBack hlen
      · obtain rfl : n = is.length := hends.trans (Nat.zero_add _)
        exact hkeeps.givesBack_closed hslots hlen pos
    dsimp only
    cases a.blocksAscend is with
    | error f => exact hstay
    | ok b =>
      dsimp only
      cases b with
      | true => exact hpack none
      | false =>
        rw [if_neg Bool.false_ne_true, Update.run_bind, Update.run_lift]
        cases is.mapM a.lits with
        | error f => exact hstay
        | ok blocks => exact hpack (some blocks.flatten)

/-- An append, whether it finds room or not. -/
theorem run_appendAscending_slots (lits : List Lit) (status : Status) :
    match (appendAscending lits status).run.run a with
    | (.ok i, a') => i = a.len ∧ a'.headers.size = a.headers.size ∧ a'.len = a.len + 1 ∧
      ∀ j, j ≠ a.len → a'.header j = a.header j
    | (.error _, a') => a'.headers = a.headers := by
  simp only [appendAscending, Update.run_bind, Update.run_require, run_reserveClauses, run_reserveLits,
    Update.run_modify, Update.run_pure, UInt32.toNat_one]
  by_cases hasc : ascending lits
  · rw [if_pos hasc]
    dsimp only
    by_cases hroom : a.clauseCount.toNat + 1 ≤ a.headers.size
    · have hlen : a.len = a.clauseCount.toNat := Nat.min_eq_left (Nat.le_of_succ_le hroom)
      have hnext : (a.clauseCount + 1).toNat = a.clauseCount.toNat + 1 := by
        rw [UInt32.toNat_add, UInt32.toNat_one]
        omega
      rw [capacity, if_pos hroom]
      dsimp only
      cases (sum64 a.litCount.toNat (UInt64.ofNat lits.length).toNat >>= _ : Except Fault Nat) with
      | error f => exact rfl
      | ok start =>
        refine ⟨hlen.symm, Array.size_setIfInBounds, ?_, fun j hj => header_withHeader_of_ne (hlen ▸ hj) _⟩
        rw [hlen, len, capacity, Array.size_setIfInBounds, hnext]
        exact Nat.min_eq_left hroom
    · rw [capacity, if_neg hroom]
  · rw [if_neg hasc]

/-- What every operation can do. -/
theorem step_moves (q : ArenaOp) :
    a.Moves q (a.step q).installed? (a.step q).after ∧ (a.step q).after.headers.size = a.headers.size := by
  have happend (lits : List Lit) (status : Status) (hq : q ≠ .shrink)
      (hrun : q.run = do return some (← Arena.appendAscending lits status)) :
      a.Moves q (a.step q).installed? (a.step q).after ∧ (a.step q).after.headers.size = a.headers.size := by
    have hmoves := run_appendAscending_slots hslots lits status
    rw [step, hrun, Update.run_bind]
    generalize (Arena.appendAscending lits status).run.run a = o at hmoves ⊢
    obtain ⟨_ | i, a'⟩ := o
    · exact ⟨.counts hq fun i => congrArg (fun hs : Array Header => hs[i]?.getD _) hmoves, congrArg _ hmoves⟩
    · obtain ⟨rfl, hsize, hlen, hheader⟩ := hmoves
      exact ⟨.installs hq hlen hheader, hsize⟩
  cases q with
  | append lits status => exact happend _ _ nofun rfl
  | appendAscending lits status => exact happend _ _ nofun rfl
  | reserveClauses n =>
    rw [step, ArenaOp.run, Update.run_bind, run_reserveClauses]
    cases (if a.clauseCount.toNat + n.toNat ≤ a.capacity then _ else _ : Except Fault Nat) <;>
      exact ⟨.counts nofun fun _ => rfl, rfl⟩
  | reserveLits n =>
    rw [step, ArenaOp.run, Update.run_bind, run_reserveLits]
    cases (sum64 a.litCount.toNat n.toNat >>= _ : Except Fault Nat) <;> exact ⟨.counts nofun fun _ => rfl, rfl⟩
  | shrink =>
    have hback := shrink_givesBack hslots
    rw [step, ArenaOp.run, Update.run_bind]
    generalize Arena.shrink.run.run a = o at hback ⊢
    obtain ⟨_ | _, a'⟩ := o <;> exact ⟨.compacts hback, hback.slots⟩

/-- No operation makes the row of slots longer. -/
theorem slots_step_lt (q : ArenaOp) : (a.step q).after.headers.size < 2 ^ 32 := by
  rwa [(step_moves hslots q).2]

/-! ## Runs -/

omit hslots in
theorem Resurfaces.of_shown {h : Header} (hi : a.alive i ∧ a.header i = h) (qs : List ArenaOp) :
    a.Resurfaces h i qs := by
  cases qs with
  | nil => exact hi
  | cons q qs => exact Or.inl hi

/-- A live header behind the slots in use resurfaces exactly if its slot is put in use bare before it is filled. -/
theorem resurfaces_iff_exposes (hi : a.len ≤ i) (hlive : (a.header i).live) :
    a.Resurfaces (a.header i) i qs ↔ a.Exposes i qs := by
  induction qs generalizing a with
  | nil => exact iff_of_false (fun h => Nat.not_lt.2 hi (alive_iff.1 h.1).1) id
  | cons q qs ih =>
    rw [Resurfaces, Exposes, or_iff_right fun h => Nat.not_lt.2 hi (alive_iff.1 h.1).1]
    by_cases hne : (a.step q).installed? = some i
    · refine iff_of_false (fun h => h.1 hne) ?_
      rintro (hbare | h)
      · exact nomatch (mem_bareSlots.1 hbare).1.symm.trans hne
      · exact h.1 hne
    obtain ⟨hheader, hbare⟩ := (step_moves hslots q).1.behind hi hne
    by_cases hin : i < (a.step q).after.len
    · have hal : (a.step q).after.alive i := alive_iff.2 ⟨hin, by rwa [hheader]⟩
      exact iff_of_true ⟨hne, .of_shown ⟨hal, hheader⟩ qs⟩ (Or.inl (mem_bareSlots.2 ⟨hbare hin, hi, hin⟩))
    · have hout : i ∉ a.bareSlots q := fun h => hin (mem_bareSlots.1 h).2.2
      have hrest := ih (slots_step_lt hslots q) (Nat.le_of_not_lt hin) (by rwa [hheader])
      rw [or_iff_right hout, ← hrest, hheader]

/-- Slots in use keep their headers until the next compaction. -/
theorem header_after (hgrows : a.Grows qs) (hqs : .shrink ∉ qs) (hi : i < a.len) :
    (a.after qs).header i = a.header i := by
  induction qs generalizing a with
  | nil => rfl
  | cons q qs ih =>
    rw [List.mem_cons, not_or] at hqs
    have hle := hgrows.1 (Ne.symm hqs.1)
    rw [after, ih (slots_step_lt hslots q) hgrows.2 hqs.2 (Nat.lt_of_lt_of_le hi hle),
      (step_moves hslots q).1.before (Ne.symm hqs.1) hi]

/-- A bare slot that is live in the end held its header behind the slots in use when the run began. -/
theorem header_of_mem_bareAfter (hgrows : a.Grows qs) (hi : i ∈ a.bareAfter qs)
    (hlive : ((a.after qs).header i).live) :
    a.len ≤ i ∧ (a.after qs).header i = a.header i ∧ a.Exposes i qs := by
  induction qs generalizing a with
  | nil => cases hi
  | cons q qs ih =>
    have hslots' := slots_step_lt hslots q
    have hmoves := (step_moves hslots q).1
    rcases List.mem_append.1 hi with hi | hi
    · split at hi
      · cases hi
      · next hqs =>
        obtain ⟨hnone, hle, hlt⟩ := mem_bareSlots.1 hi
        have hheader := (hmoves.behind hle (by rw [hnone]; exact nofun)).1
        exact ⟨hle, (header_after hslots' hgrows.2 hqs hlt).trans hheader, Or.inl hi⟩
    · obtain ⟨hle, hsame, hexposes⟩ := ih hslots' hgrows.2 hi hlive
      obtain ⟨hout, hne⟩ := hmoves.live hgrows.1 hle (hsame ▸ hlive)
      exact ⟨hout, hsame.trans (hmoves.behind hout hne).1, Or.inr ⟨hne, hexposes⟩⟩

end Steps

/-! ## Truncation -/

/-- The arena with the clauses of the first slots. -/
def truncated (a : Arena) (n : UInt32) : Arena :=
  { a with clauseCount := n, litCount := .ofNat (a.litEnd n.toNat) }

theorem len_truncated {n : UInt32} (hn : n.toNat ≤ a.len) : (a.truncated n).len = n.toNat :=
  Nat.min_eq_left (Nat.le_trans hn a.len_le_slots)

theorem body_truncated {n : UInt32} (hn : n.toNat ≤ a.len) (hi : i < n.toNat) :
    (a.truncated n).body i = a.body i := by
  have halive : (a.truncated n).alive i = a.alive i := by
    unfold alive
    rw [len_truncated hn, decide_eq_true hi, decide_eq_true (Nat.lt_of_lt_of_le hi hn)]
    rfl
  unfold body
  rw [halive]
  rfl

theorem run?_resize {n : UInt32} (hn : n.toNat ≤ a.capacity) :
    (resize n).run? a = .ok ((), { a with clauseCount := n }) := by
  simp [resize, hn]

theorem run?_resizeLits {n : UInt64} (hn : n.toNat ≤ a.litCapacity) :
    (resizeLits n).run? a = .ok ((), { a with litCount := n }) := by
  simp [resizeLits, hn]

namespace Stores

variable (h : Stores k a es)
include h

/-- The literals of the first slots end where all literals do, or before. -/
theorem litEnd_le (n : Nat) : a.litEnd n ≤ a.numLits := by
  unfold litEnd
  induction List.range n with
  | nil => exact Nat.zero_le _
  | cons i is ih => exact Nat.max_le.2 ⟨h.inside i, ih⟩

theorem litEnd_le_cells (n : Nat) : a.litEnd n ≤ a.cells.size := Nat.le_trans (h.litEnd_le n) a.numLits_le_cells

theorem toNat_litEnd (n : Nat) : (UInt64.ofNat (a.litEnd n)).toNat = a.litEnd n :=
  Nat.mod_eq_of_lt (Nat.lt_of_le_of_lt (h.litEnd_le_cells n) h.cells_lt)

theorem numLits_truncated (n : UInt32) : (a.truncated n).numLits = a.litEnd n.toNat := by
  show min (UInt64.ofNat _).toNat _ = _
  rw [h.toNat_litEnd]
  exact Nat.min_eq_left (h.litEnd_le_cells _)

theorem run?_truncate {n : UInt32} (hn : n.toNat ≤ a.len) : (truncate n).run? a = .ok ((), a.truncated n) := by
  have hslots : n.toNat ≤ a.capacity := Nat.le_trans hn a.len_le_slots
  have hcells : (UInt64.ofNat (a.litEnd n.toNat)).toNat ≤ a.litCapacity := by
    rw [h.toNat_litEnd]
    exact h.litEnd_le_cells _
  rw [truncate, Update.run?_bind, run?_resize hslots, ok_bind, Update.run?_bind, Update.run?_get, ok_bind]
  exact run?_resizeLits hcells

end Stores

end Arena

open Arena in
/-- Let an arena have become `a` by appends, operations on single clauses and compactions, and truncate it to its first
`n` slots. These keep their clauses, and in any run of appends, reservations and compactions, which may fail, a clause
that was cut off comes back, with the header it had, exactly if its slot is put in use bare before an append fills it.
No other bare slot is live, so compaction drops it, unless the counter of the slots has wrapped around. -/
theorem truncated_resurfaces_iff {k : Nat} {a : Arena} {es : List Entry} (h : Reachable k a es) (hk : k < 2 ^ 32)
    {n : UInt32} (hn : n.toNat ≤ a.len) : ∃ a', (truncate n).run? a = .ok ((), a') ∧ a'.len = n.toNat ∧
      a'.numLits = a.litEnd n.toNat ∧ (∀ i < n.toNat, a'.body i = a.body i) ∧
      ∀ qs, (∀ i, n.toNat ≤ i → a.alive i → (a'.Resurfaces (a.header i) i qs ↔ a'.Exposes i qs)) ∧
        (a'.Grows qs → ∀ i ∈ a'.bareAfter qs, (a'.after qs).alive i →
          n.toNat ≤ i ∧ a.alive i ∧ (a'.after qs).header i = a.header i ∧ a'.Exposes i qs) := by
  have hs := h.stores hk
  have hlen := len_truncated hn
  refine ⟨a.truncated n, hs.run?_truncate hn, hlen, hs.numLits_truncated n, fun i hi => body_truncated hn hi,
    fun qs => ⟨fun i hi hal => ?_, fun hgrows i hi hal => ?_⟩⟩
  · exact resurfaces_iff_exposes (a := a.truncated n) hs.slots_lt (hlen ▸ hi) (alive_iff.1 hal).2
  · obtain ⟨hle, hsame, hexposes⟩ :=
      header_of_mem_bareAfter (a := a.truncated n) hs.slots_lt hgrows hi (alive_iff.1 hal).2
    have hlive : (a.header i).live := hsame ▸ (alive_iff.1 hal).2
    refine ⟨hlen ▸ hle, alive_iff.2 ⟨Nat.lt_of_not_le fun hout => ?_, hlive⟩, hsame, hexposes⟩
    rw [hs.vacant i hout] at hlive
    cases hlive

open Arena in
/-- Two clauses, the second one cut off. A reservation brings it back, unless an append fills its slot first. -/
theorem truncated_resurfaces_iff_two_clauses :
    let a : Arena := ⟨#[⟨0, 2, 5, 0, false⟩, ⟨2, 1, 32, 0, false⟩, .vacant], #[⟨0⟩, ⟨2⟩, ⟨5⟩], 2, 3⟩
    let bare : List ArenaOp := [.reserveClauses 1]
    let filled : List ArenaOp := [.append [⟨4⟩] .learnt, .reserveClauses 1]
    ∃ es, Reachable 2 a es ∧ ∃ a', (truncate 1).run? a = .ok ((), a') ∧
      a'.Resurfaces (a.header 1) 1 bare ∧ ¬a'.Resurfaces (a.header 1) 1 filled ∧
      2 ∈ a'.bareAfter filled ∧ ¬(a'.after filled).alive 2 := by
  intro a bare filled
  let a₁ : Arena := ⟨#[⟨0, 2, 5, 0, false⟩, .vacant, .vacant], #[⟨0⟩, ⟨2⟩, default], 1, 2⟩
  let a' : Arena := ⟨#[⟨0, 2, 5, 0, false⟩, ⟨2, 1, 32, 0, false⟩, .vacant], #[⟨0⟩, ⟨2⟩, ⟨5⟩], 1, 2⟩
  have hnew : allocate 3 3 = .ok ⟨#[.vacant, .vacant, .vacant], #[default, default, default], 0, 0⟩ := by decide
  have hfirst : (append [⟨0⟩, ⟨2⟩] .irredundant).run?
      ⟨#[.vacant, .vacant, .vacant], #[default, default, default], 0, 0⟩ = .ok (0, a₁) := by decide
  have hsecond : (append [⟨5⟩] .irredundant).run? a₁ = .ok (1, a) := by decide
  have hmissing : (⟨4⟩ : Lit) ∉ ([⟨0⟩, ⟨2⟩] : List Lit) ∧ (⟨4⟩ : Lit) ∉ ([⟨5⟩] : List Lit) := by decide
  have h := ((Reachable.allocate hnew).append ⟨⟨4⟩, hmissing.1⟩ hfirst).append ⟨⟨4⟩, hmissing.2⟩ hsecond
  obtain ⟨b, hrun, _, _, _, hqs⟩ := truncated_resurfaces_iff h (by decide) (n := 1) (by decide)
  have hrun' : (truncate 1).run? a = .ok ((), a') := by decide
  obtain rfl : b = a' := by
    rw [hrun', Except.ok.injEq, Prod.mk.injEq] at hrun
    exact hrun.2.symm
  refine ⟨_, h, a', hrun', ((hqs bare).1 1 (by decide) (by decide)).2 (Or.inl (by decide)), fun hr => ?_, by decide,
    fun hal => ?_⟩
  · rcases ((hqs filled).1 1 (by decide) (by decide)).1 hr with hbare | ⟨hne, _⟩
    · exact absurd hbare (by decide)
    · exact hne (by decide)
  · obtain ⟨_, hold, _⟩ := (hqs filled).2 ⟨fun _ => by decide, fun _ => by decide, trivial⟩ 2 (by decide) hal
    exact absurd hold (by decide)

open Arena in
/-- The clauses `{1, 2}` and `{-3}`, of which only the first is kept. A reservation of one slot brings the second one
back, and compaction keeps it. -/
theorem truncated_clause_resurfaces :
    (do
      let a ← allocate 4 8
      let ((), a) ← (do
        appendAll [[1, 2], [-3]]
        truncate 1
        let _ ← reserveClauses 1
        shrink : Update Arena Unit).run? a
      a.mapLive fun _ c => c.lits) = .ok [[⟨0⟩, ⟨2⟩], [⟨5⟩]] := by
  decide +kernel

end CnfSimp
