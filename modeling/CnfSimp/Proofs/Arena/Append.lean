import CnfSimp.Proofs.Arena.Edit

/-!
# New arenas and appends

* `Arena.blank`: an arena with nothing in its rows; an allocation gives it unless a capacity is zero or there is no row
  of so many cells (`Arena.allocate_eq_ok_iff`).
* `Arena.Room`: there is room for so many clauses and literals.
* `Arena.appended`: an arena with one more clause; appending gives it where there is room, and faults elsewhere
  (`Arena.appendAscending_ends`).
* `Arena.Extends`: an arena with a list of clauses more, behind the slots that were in use.
-/

namespace CnfSimp

namespace Arena

variable {a a' a'' : Arena} {j n : Nat} {c lits : List Lit} {rs rs' : List (List Lit)} {s : Status}

section Allocate

variable {slots : UInt32} {cells : UInt64}

/-- The arena with nothing in its rows. -/
def blank (slots : UInt32) (cells : UInt64) : Arena :=
  ⟨.replicate slots.toNat .vacant, .replicate cells.toNat default, 0, 0⟩

theorem allocate_eq_ok_iff :
    allocate slots cells = .ok a ↔ slots ≠ 0 ∧ cells ≠ 0 ∧ cells.toNat < 2 ^ 61 ∧ a = blank slots cells := by
  unfold allocate
  split
  · next hslots => exact iff_of_false nofun fun h => h.1 hslots
  split
  · next hcells => exact iff_of_false nofun fun h => h.2.1 hcells
  split
  · next hlong =>
    refine iff_of_false nofun fun h => ?_
    have := h.2.2.1
    omega
  · next hslots hcells hshort =>
    exact ⟨fun h => ⟨hslots, hcells, by omega, (Except.ok.inj h).symm⟩, fun h => congrArg Except.ok h.2.2.2.symm⟩

/-- No row is as long as `2 ^ 61` cells. -/
theorem allocate_eq_error (hslots : slots ≠ 0) (hcells : 2 ^ 61 ≤ cells.toNat) :
    allocate slots cells = .error .capacityOverflow := by
  have hne : cells ≠ 0 := by
    rintro rfl
    simp at hcells
  unfold allocate
  rw [if_neg hslots, if_neg hne, if_pos (by omega)]

@[simp]
theorem slots_blank : (blank slots cells).headers.size = slots.toNat := Array.size_replicate

@[simp]
theorem cells_blank : (blank slots cells).cells.size = cells.toNat := Array.size_replicate

@[simp]
theorem clauseCount_blank : (blank slots cells).clauseCount = 0 := rfl

@[simp]
theorem litCount_blank : (blank slots cells).litCount = 0 := rfl

@[simp]
theorem header_blank (i : Nat) : (blank slots cells).header i = .vacant := by
  unfold header blank
  rw [Array.getElem?_replicate]
  split <;> rfl

end Allocate

/-- There is room for more clauses and literals. -/
def Room (a : Arena) (clauses lits : Nat) : Prop :=
  a.clauseCount.toNat + clauses ≤ a.headers.size ∧ a.litCount.toNat + lits ≤ a.cells.size

/-- The arena with a clause appended. -/
def appended (a : Arena) (lits : List Lit) (s : Status) : Arena where
  headers := a.headers.setIfInBounds a.len
    (.install (.ofNat a.litCount.toNat) (.ofNat lits.length) (signature lits) s)
  cells := overwrite a.cells a.litCount.toNat lits
  clauseCount := a.clauseCount + 1
  litCount := a.litCount + .ofNat lits.length

theorem run_reserveClauses (a : Arena) (n : UInt32) : (reserveClauses n).run.run a =
    (if a.clauseCount.toNat + n.toNat ≤ a.capacity then .ok a.clauseCount.toNat
      else .error (.clauseRegionExhausted a.clauseCount.toNat n.toNat a.capacity),
    { a with clauseCount := a.clauseCount + n }) := by
  simp only [reserveClauses, Update.run_bind, Update.run_get, Update.run_set, Update.run_require]
  by_cases hle : a.clauseCount.toNat + n.toNat ≤ a.capacity
  · rw [if_pos hle, if_pos hle]
    rfl
  · rw [if_neg hle, if_neg hle]

theorem run_reserveLits (a : Arena) (n : UInt64) : (reserveLits n).run.run a =
    (sum64 a.litCount.toNat n.toNat >>= fun stop => if stop ≤ a.litCapacity then .ok a.litCount.toNat
      else .error (.literalRegionExhausted a.litCount.toNat n.toNat a.litCapacity),
    { a with litCount := a.litCount + n }) := by
  simp only [reserveLits, Update.run_bind, Update.run_get, Update.run_set, Update.run_lift, Update.run_require]
  cases sum64 a.litCount.toNat n.toNat with
  | error e => rfl
  | ok stop =>
    by_cases hle : stop ≤ a.litCapacity
    · simp only [ok_bind, if_pos hle]
      rfl
    · simp only [ok_bind, if_neg hle]

theorem run?_reserveClauses (a : Arena) (n : UInt32) : (reserveClauses n).run? a =
    if a.clauseCount.toNat + n.toNat ≤ a.capacity then
      .ok (a.clauseCount.toNat, { a with clauseCount := a.clauseCount + n })
    else .error (.clauseRegionExhausted a.clauseCount.toNat n.toNat a.capacity) := by
  unfold Update.run?
  rw [run_reserveClauses]
  by_cases hr : a.clauseCount.toNat + n.toNat ≤ a.capacity
  · rw [if_pos hr, if_pos hr]
  · rw [if_neg hr, if_neg hr]

theorem run?_reserveLits (a : Arena) (n : UInt64) (h : a.cells.size < 2 ^ 64) : (reserveLits n).run? a =
    if a.litCount.toNat + n.toNat ≤ a.litCapacity then
      .ok (a.litCount.toNat, { a with litCount := a.litCount + n })
    else if a.litCount.toNat + n.toNat < 2 ^ 64 then
      .error (.literalRegionExhausted a.litCount.toNat n.toNat a.litCapacity)
    else .error .overflow := by
  have hcap : a.litCapacity < 2 ^ 64 := h
  unfold Update.run?
  rw [run_reserveLits]
  by_cases h64 : a.litCount.toNat + n.toNat < 2 ^ 64
  · rw [sum64_ok h64, ok_bind, if_pos h64]
    by_cases hr : a.litCount.toNat + n.toNat ≤ a.litCapacity
    · rw [if_pos hr, if_pos hr]
    · rw [if_neg hr, if_neg hr]
  · rw [if_neg (by omega), if_neg h64, show sum64 a.litCount.toNat n.toNat = .error .overflow from if_neg h64]
    rfl

/-- Appending a clause for which there is room, or otherwise faulting. -/
theorem appendAscending_ends {E : Fault → Prop} (ha : a.Wf) (hlits : lits.Pairwise (· < ·))
    (hlen : lits.length < 2 ^ 32) (hroom : (∀ f, E f) ∨ a.Room 1 lits.length) :
    Ends E ((appendAscending lits s).run? a) fun r =>
      r = (a.len, a.appended lits s) ∧ a.Room 1 lits.length := by
  have hword : (UInt64.ofNat lits.length).toNat = lits.length := Nat.mod_eq_of_lt (by omega)
  have hone : (1 : UInt32).toNat = 1 := rfl
  simp only [appendAscending, Update.run?_bind, Update.run?_require, ascending_iff.2 hlits, if_true, ok_bind,
    run?_reserveClauses, hone]
  split
  · next h₁ =>
    have hcount : a.len = a.clauseCount.toNat := Nat.min_eq_left (by omega)
    simp only [ok_bind]
    rw [run?_reserveLits ⟨a.headers, a.cells, a.clauseCount + 1, a.litCount⟩ _ ha.cells_lt]
    simp only [hword]
    split
    · next h₂ =>
      simp only [ok_bind, Update.run?_modify, Update.run?_pure, ends_ok]
      exact ⟨by rw [hcount, appended, hcount], h₁, h₂⟩
    · next h₂ =>
      have hE := hroom.resolve_right fun hr => h₂ hr.2
      split <;> exact hE _
  · next h₁ => exact hroom.resolve_right (fun hr => h₁ hr.1) _

section Appended

variable (hr : a.Room 1 lits.length)
include hr

theorem Room.len_eq : a.len = a.clauseCount.toNat :=
  Nat.min_eq_left (by have := hr.1; unfold capacity; omega)

theorem Room.numLits_eq : a.numLits = a.litCount.toNat :=
  Nat.min_eq_left (by have := hr.2; unfold litCapacity; omega)

theorem header_appended (j : Nat) : (a.appended lits s).header j = if j = a.len then
    .install (.ofNat a.litCount.toNat) (.ofNat lits.length) (signature lits) s else a.header j :=
  header_withHeader (by rw [hr.len_eq]; exact hr.1) _

variable (ha : a.Wf)
include ha

theorem clauseCount_appended : (a.appended lits s).clauseCount.toNat = a.clauseCount.toNat + 1 := by
  have := hr.1
  have := ha.slots_lt
  show (a.clauseCount + 1).toNat = _
  rw [UInt32.toNat_add, UInt32.toNat_one]
  omega

theorem litCount_appended : (a.appended lits s).litCount.toNat = a.litCount.toNat + lits.length := by
  have := hr.2
  have := ha.cells_lt
  show (a.litCount + .ofNat lits.length).toNat = _
  rw [UInt64.toNat_add, show (UInt64.ofNat lits.length).toNat = lits.length from Nat.mod_eq_of_lt (by omega)]
  omega

theorem len_appended : (a.appended lits s).len = a.len + 1 := by
  have := hr.1
  unfold len capacity
  rw [clauseCount_appended hr ha, show (a.appended lits s).headers.size = a.headers.size by simp [appended]]
  omega

theorem numLits_appended : (a.appended lits s).numLits = a.numLits + lits.length := by
  have := hr.2
  unfold numLits litCapacity
  rw [litCount_appended hr ha, show (a.appended lits s).cells.size = a.cells.size from size_overwrite _ _ _]
  omega

/-- Room that is left for more. -/
theorem Room.appended {clauses n : Nat} (h : a.Room (clauses + 1) (n + lits.length)) :
    (a.appended lits s).Room clauses n := by
  refine ⟨?_, ?_⟩
  · rw [clauseCount_appended hr ha, show (a.appended lits s).headers.size = a.headers.size by simp [Arena.appended]]
    have := h.1
    omega
  · rw [litCount_appended hr ha, show (a.appended lits s).cells.size = a.cells.size from size_overwrite _ _ _]
    have := h.2
    omega

variable (hlen : lits.length < 2 ^ 32)
include hlen

theorem text_appended (hj : j ≤ a.len) : (a.appended lits s).text j = if j = a.len then lits else a.text j := by
  have hroom := hr.2
  have hcells := ha.cells_lt
  have hstart : (UInt64.ofNat a.litCount.toNat).toNat = a.litCount.toNat := by rw [UInt64.ofNat_toNat]
  have hsize : (UInt32.ofNat lits.length).toNat = lits.length := Nat.mod_eq_of_lt hlen
  unfold text
  rw [header_appended hr]
  by_cases he : j = a.len
  · rw [if_pos he, if_pos he]
    show slice (overwrite _ _ _) (UInt64.ofNat a.litCount.toNat).toNat (UInt32.ofNat lits.length).toNat = _
    rw [hstart, hsize]
    exact slice_overwrite hroom
  · rw [if_neg he, if_neg he]
    refine slice_overwrite_of_disjoint fun k _ hk => Or.inl ?_
    have := ha.inside j (by omega)
    rw [hr.numLits_eq] at this
    omega

section Body

variable (hs : s ≠ .deleted)
include hs

/-- Appending adds one clause. -/
theorem body_appended (j : Nat) : (a.appended lits s).body j = if j = a.len then some lits else a.body j := by
  unfold body alive
  rw [len_appended hr ha, header_appended hr]
  by_cases he : j = a.len
  · rw [if_pos he, text_appended hr ha hlen (Nat.le_of_eq he), if_pos he, if_pos he,
      if_pos (by simp [he, Header.live, Header.install, Status.code_inj, hs])]
  · rw [if_neg he, if_neg he]
    by_cases hj : j < a.len
    · rw [text_appended hr ha hlen (Nat.le_of_lt hj), if_neg he, decide_eq_true hj, decide_eq_true (by omega)]
    · rw [decide_eq_false hj, decide_eq_false (by omega)]
      rfl

theorem Wf.appended (hlits : lits.Pairwise (· < ·)) : (a.appended lits s).Wf := by
  have hstart : (UInt64.ofNat a.litCount.toNat).toNat = a.litCount.toNat := by rw [UInt64.ofNat_toNat]
  have hsize : (UInt32.ofNat lits.length).toNat = lits.length := Nat.mod_eq_of_lt hlen
  refine ⟨?_, ?_, fun j hj => ?_, fun j hj => ?_, fun j c hc => ?_⟩
  · rw [show (a.appended lits s).headers.size = a.headers.size by simp [Arena.appended]]
    exact ha.slots_lt
  · rw [show (a.appended lits s).cells.size = a.cells.size from size_overwrite _ _ _]
    exact ha.cells_lt
  · rw [len_appended hr ha] at hj
    rw [header_appended hr]
    split
    · exact ⟨s, Header.status_eq_ok_iff.2 rfl⟩
    · exact ha.status j (by omega)
  · rw [len_appended hr ha] at hj
    rw [header_appended hr, numLits_appended hr ha, hr.numLits_eq]
    split
    · show (UInt64.ofNat a.litCount.toNat).toNat + (UInt32.ofNat lits.length).toNat ≤ _
      omega
    · have := ha.inside j (by omega)
      rw [hr.numLits_eq] at this
      omega
  · rw [body_appended hr ha hlen hs] at hc
    split at hc
    · rwa [← Option.some.inj hc]
    · exact ha.ascends j c hc

end Body

omit hlen in
theorem Ordered.appended (ho : a.Ordered) : (a.appended lits s).Ordered := by
  have hstart : (UInt64.ofNat a.litCount.toNat).toNat = a.litCount.toNat := by rw [UInt64.ofNat_toNat]
  intro j k hjk hk
  rw [len_appended hr ha] at hk
  rw [header_appended hr, if_neg (by omega), header_appended hr]
  split
  · show _ ≤ (UInt64.ofNat a.litCount.toNat).toNat
    rw [hstart, ← hr.numLits_eq]
    exact ha.inside j (by omega)
  · exact ho j k hjk (by omega)

theorem Within.appended (ho : a.Within n) (hlits : ∀ l ∈ lits, l.var < n) : (a.appended lits s).Within n := by
  intro j hj l hl
  rw [len_appended hr ha] at hj
  rw [text_appended hr ha hlen (by omega)] at hl
  split at hl
  · exact hlits l hl
  · exact ho j (by omega) l hl

end Appended

/-! ## Several clauses -/

/-- There is room for the given clauses. -/
def RoomFor (a : Arena) (rs : List (List Lit)) : Prop := rs = [] ∨ a.Room rs.length (rs.map List.length).sum

/-- The arena `a'` holds the clauses of `a` and behind them those of a list. -/
structure Extends (a a' : Arena) (rs : List (List Lit)) : Prop where
  wf : a'.Wf
  len : a'.len = a.len + rs.length
  numLits : a'.numLits = a.numLits + (rs.map List.length).sum
  slots : a'.headers.size = a.headers.size
  cells : a'.cells.size = a.cells.size
  text : ∀ j < a.len, a'.text j = a.text j
  old : ∀ j < a.len, a'.body j = a.body j
  new : ∀ k, a'.body (a.len + k) = rs[k]?
  ordered : a.Ordered → a'.Ordered
  within : ∀ n, a.Within n → (∀ r ∈ rs, ∀ l ∈ r, l.var < n) → a'.Within n
  room : ∀ more, a.RoomFor (rs ++ more) → a'.RoomFor more
  signed : a.Signed → a'.Signed

namespace Extends

theorem refl (ha : a.Wf) : a.Extends a [] where
  wf := ha
  len := rfl
  numLits := rfl
  slots := rfl
  cells := rfl
  text _ _ := rfl
  old _ _ := rfl
  new k := by
    unfold Arena.body alive
    rw [decide_eq_false (by omega)]
    rfl
  ordered h := h
  within _ h _ := h
  room _ h := h
  signed h := h

theorem trans (h : a.Extends a' rs) (h' : a'.Extends a'' rs') : a.Extends a'' (rs ++ rs') where
  wf := h'.wf
  len := by rw [h'.len, h.len, List.length_append, Nat.add_assoc]
  numLits := by rw [h'.numLits, h.numLits, List.map_append, List.sum_append, Nat.add_assoc]
  slots := h'.slots.trans h.slots
  cells := h'.cells.trans h.cells
  text j hj := (h'.text j (by rw [h.len]; omega)).trans (h.text j hj)
  old j hj := (h'.old j (by rw [h.len]; omega)).trans (h.old j hj)
  new k := by
    rw [List.getElem?_append]
    split
    · rw [h'.old _ (by rw [h.len]; omega), h.new]
    · rw [← h'.new, h.len]
      congr 1
      omega
  ordered ho := h'.ordered (h.ordered ho)
  within n ho hlt := h'.within n (h.within n ho fun r hr => hlt r (List.mem_append_left _ hr))
    fun r hr => hlt r (List.mem_append_right _ hr)
  room more hr := h'.room more (h.room (rs' ++ more) (by rwa [← List.append_assoc]))
  signed hs := h'.signed (h.signed hs)

/-- The clauses are the old ones and the new ones. -/
theorem body_iff (h : a.Extends a' rs) :
    a'.body j = some c ↔ a.body j = some c ∨ ∃ k, j = a.len + k ∧ rs[k]? = some c := by
  by_cases hj : j < a.len
  · rw [h.old j hj]
    refine ⟨Or.inl, fun hc => hc.resolve_right ?_⟩
    rintro ⟨k, rfl, _⟩
    omega
  · obtain ⟨k, rfl⟩ := Nat.exists_eq_add_of_le (Nat.le_of_not_lt hj)
    rw [h.new]
    constructor
    · exact fun hk => Or.inr ⟨k, rfl, hk⟩
    · rintro (hc | ⟨k', hk, hc⟩)
      · exact absurd (lt_of_body hc) hj
      · rwa [Nat.add_left_cancel hk]

theorem mem_bodies_iff (h : a.Extends a' rs) : c ∈ a'.bodies ↔ c ∈ a.bodies ∨ c ∈ rs := by
  rw [mem_bodies, mem_bodies]
  simp only [h.body_iff, exists_or]
  refine or_congr_right ?_
  rw [List.mem_iff_getElem?]
  constructor
  · rintro ⟨_, k, _, hk⟩
    exact ⟨k, hk⟩
  · rintro ⟨k, hk⟩
    exact ⟨_, k, rfl, hk⟩

end Extends

/-- Appending one clause extends the arena. -/
theorem extends_appended (hr : a.Room 1 lits.length) (ha : a.Wf) (hlen : lits.length < 2 ^ 32)
    (hlits : lits.Pairwise (· < ·)) (hs : s ≠ .deleted) : a.Extends (a.appended lits s) [lits] where
  wf := Wf.appended hr ha hlen hs hlits
  len := len_appended hr ha
  numLits := numLits_appended hr ha
  slots := by simp [appended]
  cells := size_overwrite _ _ _
  text j hj := by rw [text_appended hr ha hlen (Nat.le_of_lt hj), if_neg (Nat.ne_of_lt hj)]
  old j hj := by rw [body_appended hr ha hlen hs, if_neg (Nat.ne_of_lt hj)]
  new k := by
    rw [body_appended hr ha hlen hs]
    cases k with
    | zero => exact if_pos rfl
    | succ k =>
      rw [if_neg (by omega)]
      exact body_eq_none_iff.2 (by rw [alive, decide_eq_false (by omega)]; rfl)
  ordered := Ordered.appended hr ha
  within n ho hlt := Within.appended hr ha hlen ho (hlt lits (List.mem_singleton_self _))
  room more h := by
    rcases h with h | h
    · cases h
    · refine Or.inr (Room.appended hr ha ?_)
      simpa [Nat.add_comm] using h
  signed hsig j c hc := by
    rw [body_appended hr ha hlen hs] at hc
    rw [header_appended hr]
    split at hc
    · next he => rw [if_pos he, ← Option.some.inj hc, Header.install]
    · next he =>
      rw [if_neg he]
      exact hsig j c hc

/-- As much room as a list of clauses takes, none of them empty, is room for it. -/
theorem roomFor_of_free (hc : rs.length ≤ a.freeClauses) (hl : (rs.map List.length).sum ≤ a.freeLits)
    (hne : [] ∉ rs) : a.RoomFor rs := by
  cases rs with
  | nil => exact Or.inl rfl
  | cons r rs =>
    have hr : 0 < r.length := List.length_pos_iff.2 fun h => hne (h ▸ List.mem_cons_self)
    rw [List.length_cons] at hc
    rw [List.map_cons, List.sum_cons] at hl
    unfold freeClauses len capacity at hc
    unfold freeLits numLits litCapacity at hl
    refine Or.inr ⟨?_, ?_⟩
    · rw [List.length_cons]
      omega
    · rw [List.map_cons, List.sum_cons]
      omega

/-- Room for a list is room for its first part. -/
theorem RoomFor.left {more : List (List Lit)} (h : a.RoomFor (rs ++ more)) : a.RoomFor rs := by
  rcases h with h | h
  · exact Or.inl (List.append_eq_nil_iff.1 h).1
  · exact Or.inr ⟨Nat.le_trans (by simp) h.1, Nat.le_trans (by simp) h.2⟩

/-- Room for a list is room for its first clause. -/
theorem RoomFor.head {more : List (List Lit)} (h : a.RoomFor (lits :: more)) : a.Room 1 lits.length := by
  rcases h with h | h
  · cases h
  · refine ⟨Nat.le_trans (by simp) h.1, Nat.le_trans (by simp) h.2⟩

end Arena

end CnfSimp
