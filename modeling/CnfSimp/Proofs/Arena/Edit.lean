import CnfSimp.Proofs.Arena.View
import CnfSimp.Proofs.Clause.Rewriting

/-!
# Changing an arena

What the operations on single clauses do to the clauses of an arena. Each is an explicit arena, with its bodies and the
invariant.

* `Arena.melted`, `Arena.promoted`, `Arena.erased`: an arena after a clause was melted, made irredundant, or lost a
  literal.
* `Arena.Melts`: live clauses are melted, one after another, and nothing else changes.
* `Arena.Ordered`: the blocks lie in the order of their slots. `Arena.Separated`: no cell is in two blocks, so that
  writing into one changes no other.
* `Arena.Signed`: the live clauses have their signatures. Whatever trims or extends an arena keeps that up.
* `Arena.Trims`: nothing was added; every slot holds a part of what it held, and is live only if it was.
-/

namespace CnfSimp

namespace Arena

variable {a a' a'' : Arena} {i j n : Nat} {c lits : List Lit} {l : Lit}

/-- What an operation on a clause leaves of the arena, also if it faults. -/
theorem run_onClause {α : Type} (h : i < a.headers.size) (op : Update Clause α) :
    (onClause i op).run.run a = ((op.run.run (a.clauseAt i)).1,
      { a with
        headers := a.headers.setIfInBounds i (op.run.run (a.clauseAt i)).2.header
        cells := (op.run.run (a.clauseAt i)).2.cells }) := by
  have hget : a.headers[i]? = some (a.header i) := by rw [header_eq h, Array.getElem?_eq_getElem h]
  show onClause i op a = _
  unfold onClause
  rw [hget]
  rfl

theorem run?_onClause {α : Type} (h : i < a.headers.size) (op : Update Clause α) :
    (onClause i op).run? a = op.run? (a.clauseAt i) >>= fun r =>
      .ok (r.1, { a with headers := a.headers.setIfInBounds i r.2.header, cells := r.2.cells }) := by
  unfold Update.run?
  rw [run_onClause h]
  rcases op.run.run (a.clauseAt i) with ⟨_ | _, _⟩ <;> rfl

/-- The arena with another header in a slot. -/
def withHeader (a : Arena) (i : Nat) (h : Header) : Arena := { a with headers := a.headers.setIfInBounds i h }

theorem header_withHeader_of_ne (hj : j ≠ i) (h : Header) : (a.withHeader i h).header j = a.header j :=
  congrArg (Option.getD · _) (Array.getElem?_setIfInBounds_ne (Ne.symm hj))

theorem header_withHeader (hi : i < a.headers.size) (h : Header) :
    (a.withHeader i h).header j = if j = i then h else a.header j := by
  by_cases hj : j = i
  · subst hj
    unfold withHeader header
    rw [Array.getElem?_setIfInBounds, if_pos rfl, if_pos hi, if_pos rfl, Option.getD_some]
  · rw [header_withHeader_of_ne hj, if_neg hj]

theorem withHeader_self (hi : i < a.headers.size) : a.withHeader i (a.header i) = a := by
  have hheaders : a.headers.setIfInBounds i (a.header i) = a.headers := by
    apply Array.ext_getElem?
    intro k
    rw [Array.getElem?_setIfInBounds]
    split
    · next hk => rw [← hk, header_eq hi, Array.getElem?_eq_getElem hi]
    · rfl
  rw [withHeader, hheaders]

@[simp]
theorem len_withHeader (a : Arena) (i : Nat) (h : Header) : (a.withHeader i h).len = a.len := by
  simp [withHeader, len, capacity]

@[simp]
theorem numLits_withHeader (a : Arena) (i : Nat) (h : Header) : (a.withHeader i h).numLits = a.numLits := rfl

/-! ## Order and trimming -/

/-- The blocks of the slots in use lie in the order of the slots. -/
def Ordered (a : Arena) : Prop :=
  ∀ i j, i < j → j < a.len → (a.header i).start.toNat + (a.header i).size.toNat ≤ (a.header j).start.toNat

/-- A cell belongs to the block of a slot. -/
def Owns (a : Arena) (i p : Nat) : Prop :=
  (a.header i).start.toNat ≤ p ∧ p < (a.header i).start.toNat + (a.header i).size.toNat

/-- The blocks of the slots in use share no cells. -/
def Separated (a : Arena) : Prop := ∀ i < a.len, ∀ j < a.len, i ≠ j → ∀ p, ¬(a.Owns i p ∧ a.Owns j p)

/-- Blocks in the order of their slots share no cells. -/
theorem Ordered.separated (ho : a.Ordered) : a.Separated := by
  rintro i hi j hj hij p ⟨⟨hip, hpi⟩, hjp, hpj⟩
  rcases Nat.lt_or_gt_of_ne hij with hlt | hlt
  · have := ho i j hlt hj
    omega
  · have := ho j i hlt hi
    omega

/-- Blocks that start where they did and are no longer than they were share no cells if they did not before. -/
theorem Separated.of_blocks (hd : a.Separated) (hlen : a'.len = a.len)
    (hstart : ∀ i, (a'.header i).start = (a.header i).start)
    (hsize : ∀ i, (a'.header i).size.toNat ≤ (a.header i).size.toNat) : a'.Separated := by
  have howns {i p : Nat} (h : a'.Owns i p) : a.Owns i p := by
    unfold Owns at h ⊢
    rw [hstart] at h
    have := hsize i
    omega
  intro i hi j hj hij p ⟨hip, hjp⟩
  rw [hlen] at hi hj
  exact hd i hi j hj hij p ⟨howns hip, howns hjp⟩

/-- The headers of the live clauses have their signatures. -/
def Signed (a : Arena) : Prop := ∀ i c, a.body i = some c → (a.header i).sig = signature c

theorem signed_iff : a.Signed ↔ ∀ i < a.len, a.alive i → (a.header i).sig = signature (a.text i) := by
  refine ⟨fun h i _ hi => h i _ (body_eq_some_iff.2 ⟨hi, rfl⟩), fun h i c hc => ?_⟩
  obtain ⟨hal, rfl⟩ := body_eq_some_iff.1 hc
  exact h i (lt_of_body hc) hal

instance : Decidable a.Signed := decidable_of_iff _ signed_iff.symm

/-- Nothing was added: the rows and counters are as before, every slot holds a part of what it held, and is live only
if it was. -/
structure Trims (a a' : Arena) : Prop where
  clauseCount : a'.clauseCount = a.clauseCount
  litCount : a'.litCount = a.litCount
  slots : a'.headers.size = a.headers.size
  cells : a'.cells.size = a.cells.size
  text : ∀ i < a.len, (a'.text i).Sublist (a.text i)
  alive : ∀ i, a'.alive i → a.alive i
  signed : a.Signed → a'.Signed

namespace Trims

theorem refl (a : Arena) : a.Trims a := ⟨rfl, rfl, rfl, rfl, fun _ _ => .refl _, fun _ h => h, id⟩

section

variable (h : a.Trims a')
include h

theorem len : a'.len = a.len := by
  unfold Arena.len capacity
  rw [h.clauseCount, h.slots]

theorem numLits : a'.numLits = a.numLits := by
  unfold Arena.numLits litCapacity
  rw [h.litCount, h.cells]

theorem freeClauses : a'.freeClauses = a.freeClauses := by
  unfold Arena.freeClauses capacity
  rw [h.len, h.slots]

theorem freeLits : a'.freeLits = a.freeLits := by
  unfold Arena.freeLits litCapacity
  rw [h.numLits, h.cells]

theorem trans (h' : a'.Trims a'') : a.Trims a'' where
  clauseCount := h'.clauseCount.trans h.clauseCount
  litCount := h'.litCount.trans h.litCount
  slots := h'.slots.trans h.slots
  cells := h'.cells.trans h.cells
  text i hi := (h'.text i (h.len ▸ hi)).trans (h.text i hi)
  alive i hi := h.alive i (h'.alive i hi)
  signed hs := h'.signed (h.signed hs)

/-- A clause that is left is a part of the one it was. -/
theorem body {c' : List Lit} (hc : a'.body i = some c') : ∃ c, a.body i = some c ∧ c'.Sublist c := by
  obtain ⟨hal, rfl⟩ := body_eq_some_iff.1 hc
  have hal := h.alive i hal
  exact ⟨a.text i, body_eq_some_iff.2 ⟨hal, rfl⟩, h.text i (alive_iff.1 hal).1⟩

theorem within (ho : a.Within n) : a'.Within n := fun i hi l hl => by
  rw [h.len] at hi
  exact ho i hi l ((h.text i hi).subset hl)

end

end Trims

/-- A change of one header that keeps the block changes no literals. -/
theorem text_withHeader {h : Header} (hi : i < a.headers.size) (hstart : h.start = (a.header i).start)
    (hsize : h.size = (a.header i).size) (j : Nat) : (a.withHeader i h).text j = a.text j := by
  unfold text
  rw [header_withHeader hi]
  by_cases hj : j = i
  · rw [if_pos hj, hj, hstart, hsize]
    rfl
  · rw [if_neg hj]
    rfl

/-- A change of one header that keeps the block and the signature trims the arena, if the clause is live only if it
was. -/
theorem trims_withHeader {h : Header} (hi : i < a.headers.size) (hstart : h.start = (a.header i).start)
    (hsize : h.size = (a.header i).size) (hsig : h.sig = (a.header i).sig) (hlive : h.live → (a.header i).live) :
    a.Trims (a.withHeader i h) := by
  have halive (j : Nat) (hj : (a.withHeader i h).alive j) : a.alive j := by
    obtain ⟨hlt, hj⟩ := alive_iff.1 hj
    rw [len_withHeader] at hlt
    rw [header_withHeader hi] at hj
    refine alive_iff.2 ⟨hlt, ?_⟩
    split at hj
    · next he => exact he ▸ hlive hj
    · exact hj
  refine ⟨rfl, rfl, by simp [withHeader], rfl, fun j _ => by rw [text_withHeader hi hstart hsize], halive,
    fun hs j c hc => ?_⟩
  obtain ⟨hal, htext⟩ := body_eq_some_iff.1 hc
  rw [text_withHeader hi hstart hsize] at htext
  have hj := hs j c (body_eq_some_iff.2 ⟨halive j hal, htext⟩)
  rw [header_withHeader hi]
  split
  · next he => rw [hsig, ← he, hj]
  · exact hj

section Block

variable {h : Header} (hi : i < a.headers.size)
include hi

theorem start_withHeader (hstart : h.start = (a.header i).start) (j : Nat) :
    ((a.withHeader i h).header j).start = (a.header j).start := by
  rw [header_withHeader hi]
  split
  · next he => rw [hstart, he]
  · rfl

theorem size_withHeader (hsize : h.size = (a.header i).size) (j : Nat) :
    ((a.withHeader i h).header j).size = (a.header j).size := by
  rw [header_withHeader hi]
  split
  · next he => rw [hsize, he]
  · rfl

theorem sig_withHeader (hsig : h.sig = (a.header i).sig) (j : Nat) :
    ((a.withHeader i h).header j).sig = (a.header j).sig := by
  rw [header_withHeader hi]
  split
  · next he => rw [hsig, he]
  · rfl

variable (hstart : h.start = (a.header i).start) (hsize : h.size = (a.header i).size)
include hstart hsize

/-- A change of one header that keeps the block keeps the order. -/
theorem Ordered.withHeader (ho : a.Ordered) : (a.withHeader i h).Ordered := by
  intro j k hjk hk
  rw [len_withHeader] at hk
  rw [start_withHeader hi hstart, start_withHeader hi hstart, size_withHeader hi hsize]
  exact ho j k hjk hk

theorem Separated.withHeader (hd : a.Separated) : (a.withHeader i h).Separated :=
  hd.of_blocks (len_withHeader a i h) (start_withHeader hi hstart) fun j =>
    Nat.le_of_eq (congrArg _ (size_withHeader hi hsize j))

end Block

/-- A change of one header that keeps the block keeps the invariant. -/
theorem Wf.withHeader {h : Header} (ha : a.Wf) (hi : i < a.len) (hstart : h.start = (a.header i).start)
    (hsize : h.size = (a.header i).size) (hsig : h.sig = (a.header i).sig) (hlive : h.live → (a.header i).live)
    (hstatus : ∃ s, h.status = .ok s) : (a.withHeader i h).Wf := by
  have hi' := Nat.lt_of_lt_of_le hi a.len_le_slots
  have ht := trims_withHeader hi' hstart hsize hsig hlive
  refine ⟨?_, ha.cells_lt, fun j hj => ?_, fun j hj => ?_, fun j c hc => ?_⟩
  · rw [ht.slots]
    exact ha.slots_lt
  · rw [len_withHeader] at hj
    rw [header_withHeader hi']
    split
    · exact hstatus
    · exact ha.status j hj
  · rw [len_withHeader] at hj
    rw [header_withHeader hi', numLits_withHeader]
    split
    · rw [hstart, hsize]
      exact ha.inside i hi
    · exact ha.inside j hj
  · obtain ⟨c₀, hc₀, hsub⟩ := ht.body hc
    exact (ha.ascends j c₀ hc₀).sublist hsub

/-! ## Melting -/

/-- The arena with a clause melted. -/
def melted (a : Arena) (i : Nat) : Arena := a.withHeader i { a.header i with molten := true }

theorem melt_ok (h : i < a.len) : a.melt i = .ok (a.melted i) := by
  have hi := Nat.lt_of_lt_of_le h a.len_le_slots
  unfold melt
  rw [run?_onClause hi]
  rfl

theorem trims_melted (h : i < a.len) : a.Trims (a.melted i) :=
  trims_withHeader (Nat.lt_of_lt_of_le h a.len_le_slots) rfl rfl rfl fun h => by simp [Header.live] at h

theorem text_melted (h : i < a.len) (j : Nat) : (a.melted i).text j = a.text j :=
  text_withHeader (h := { a.header i with molten := true }) (Nat.lt_of_lt_of_le h a.len_le_slots) rfl rfl j

theorem alive_melted (h : i < a.len) (j : Nat) : (a.melted i).alive j = (decide (j ≠ i) && a.alive j) := by
  unfold melted alive
  rw [header_withHeader (Nat.lt_of_lt_of_le h a.len_le_slots), len_withHeader]
  by_cases hj : j = i
  · rw [if_pos hj]
    simp [Header.live, hj]
  · rw [if_neg hj]
    simp [hj]

/-- Melting takes one clause away. -/
theorem body_melted (h : i < a.len) (j : Nat) : (a.melted i).body j = if j = i then none else a.body j := by
  unfold body
  rw [text_melted h, alive_melted h]
  by_cases hj : j = i <;> simp [hj]

theorem Wf.melted (ha : a.Wf) (h : i < a.len) : (a.melted i).Wf := by
  obtain ⟨s, hs⟩ := ha.status i h
  exact ha.withHeader h rfl rfl rfl (fun h => by simp [Header.live] at h)
    ⟨s, Header.status_eq_ok_iff.2 (Header.status_eq_ok_iff.1 hs)⟩

theorem Readable.melted (ha : a.Readable) (h : i < a.len) : (a.melted i).Readable := by
  have hi := Nat.lt_of_lt_of_le h a.len_le_slots
  refine ⟨ha.cells_lt, fun j hj => ?_, fun j hj => ?_⟩
  · rw [(trims_melted h).len] at hj
    rw [Arena.melted, header_withHeader hi]
    split
    · obtain ⟨s, hs⟩ := ha.status i h
      exact ⟨s, Header.status_eq_ok_iff.2 (Header.status_eq_ok_iff.1 hs)⟩
    · exact ha.status j hj
  · rw [alive_melted h, Bool.and_eq_true] at hj
    rw [Arena.melted, header_withHeader hi, if_neg (of_decide_eq_true hj.1)]
    exact ha.inside j hj.2

theorem Ordered.melted (ho : a.Ordered) (h : i < a.len) : (a.melted i).Ordered :=
  ho.withHeader (Nat.lt_of_lt_of_le h a.len_le_slots) rfl rfl

theorem Separated.melted (hd : a.Separated) (h : i < a.len) : (a.melted i).Separated :=
  hd.withHeader (Nat.lt_of_lt_of_le h a.len_le_slots) rfl rfl

/-- The arena with several clauses melted. -/
def meltedAll (a : Arena) (is : List Nat) : Arena := is.foldl melted a

/-- Melting several clauses. -/
theorem meltedAll_ok (is : List Nat) (ha : a.Wf) (h : ∀ i ∈ is, i < a.len) :
    is.foldlM melt a = .ok (a.meltedAll is) ∧ (a.meltedAll is).Wf ∧ a.Trims (a.meltedAll is) ∧
      (a.Ordered → (a.meltedAll is).Ordered) ∧
      (∀ j, (a.meltedAll is).text j = a.text j) ∧
      ∀ j, (a.meltedAll is).body j = if j ∈ is then none else a.body j := by
  induction is generalizing a with
  | nil => exact ⟨rfl, ha, .refl a, id, fun _ => rfl, by simp [meltedAll]⟩
  | cons i is ih =>
    have hi := h i List.mem_cons_self
    have ht := trims_melted hi
    obtain ⟨hrun, hwf, htrims, hord, htext, hbody⟩ := ih (ha.melted hi) fun j hj => by
      rw [ht.len]
      exact h j (List.mem_cons_of_mem _ hj)
    refine ⟨?_, hwf, ht.trans htrims, fun ho => hord (ho.melted hi), fun j => ?_, fun j => ?_⟩
    · rw [List.foldlM_cons, melt_ok hi, ok_bind, hrun]
      rfl
    · exact (htext j).trans (text_melted hi j)
    · show ((a.melted i).meltedAll is).body j = _
      rw [hbody, body_melted hi]
      by_cases hj : j = i <;> by_cases hj' : j ∈ is <;> simp [hj, hj']

/-- Live clauses are melted, one after another, and nothing else happens. -/
inductive Melts : Arena → List Nat → Arena → Prop
  | nil (a : Arena) : Melts a [] a
  | cons {a a' : Arena} {i : Nat} {is : List Nat} : a.alive i → Melts (a.melted i) is a' → Melts a (i :: is) a'

namespace Melts

variable {is js : List Nat}

theorem one (hi : a.alive i) : a.Melts [i] (a.melted i) := .cons hi (.nil _)

theorem trans (h : a.Melts is a') (h' : a'.Melts js a'') : a.Melts (is ++ js) a'' := by
  induction h with
  | nil => exact h'
  | cons hi _ ih => exact .cons hi (ih h')

variable (h : a.Melts is a')
include h

theorem trims : a.Trims a' := by
  induction h with
  | nil a => exact .refl a
  | cons hi _ ih => exact (trims_melted (alive_iff.1 hi).1).trans ih

theorem text (j : Nat) : a'.text j = a.text j := by
  induction h with
  | nil => rfl
  | cons hi _ ih => exact ih.trans (text_melted (alive_iff.1 hi).1 j)

/-- A clause is live afterwards if it was and is not one of those melted. -/
theorem alive_eq (j : Nat) : a'.alive j = (decide (j ∉ is) && a.alive j) := by
  induction h with
  | nil => simp
  | cons hi _ ih =>
    rw [ih, alive_melted (alive_iff.1 hi).1]
    simp only [List.mem_cons, not_or, Bool.decide_and, Bool.and_left_comm, Bool.and_assoc]

/-- The clauses melted were live. -/
theorem alive (hj : j ∈ is) : a.alive j := by
  induction h with
  | nil => cases hj
  | cons hi _ ih =>
    rcases List.mem_cons.1 hj with rfl | hj
    · exact hi
    · have hj := ih hj
      rw [alive_melted (alive_iff.1 hi).1, Bool.and_eq_true] at hj
      exact hj.2

/-- None is melted twice. -/
theorem nodup : is.Nodup := by
  induction h with
  | nil => exact List.nodup_nil
  | cons hi h ih =>
    refine List.nodup_cons.2 ⟨fun hmem => ?_, ih⟩
    have hal := h.alive hmem
    simp [alive_melted (alive_iff.1 hi).1] at hal

end Melts

/-! ## Promoting -/

/-- The arena with a clause made irredundant. -/
def promoted (a : Arena) (i : Nat) : Arena :=
  a.withHeader i { a.header i with code := Status.irredundant.code }

theorem setStatus_ok (h : i < a.len) (hs : (a.header i).status = .ok .learnt) :
    (onClause i (Clause.setStatus .irredundant)).run? a = .ok ((), a.promoted i) := by
  have hi := Nat.lt_of_lt_of_le h a.len_le_slots
  rw [run?_onClause hi, Clause.run?_setStatus (c := a.clauseAt i) hs]
  rfl

section Promoted

variable (h : i < a.len) (hs : (a.header i).status = .ok .learnt)
include h hs

theorem trims_promoted : a.Trims (a.promoted i) :=
  trims_withHeader (Nat.lt_of_lt_of_le h a.len_le_slots) rfl rfl rfl fun hl => by
    simp only [Header.live, Bool.and_eq_true] at hl ⊢
    exact ⟨by rw [Header.status_eq_ok_iff.1 hs]; decide, hl.2⟩

/-- Promoting changes no literals. -/
theorem body_promoted (j : Nat) : (a.promoted i).body j = a.body j := by
  have hi := Nat.lt_of_lt_of_le h a.len_le_slots
  have hlive : (a.header i).live = !(a.header i).molten := by
    rw [Header.live, Header.status_eq_ok_iff.1 hs]
    rfl
  unfold promoted body text alive
  rw [header_withHeader hi, len_withHeader]
  by_cases hj : j = i
  · rw [if_pos hj, hj, hlive]
    rfl
  · rw [if_neg hj]
    rfl

theorem Wf.promoted (ha : a.Wf) : (a.promoted i).Wf :=
  ha.withHeader h rfl rfl rfl
    (fun hl => by
      simp only [Header.live, Bool.and_eq_true] at hl ⊢
      exact ⟨by rw [Header.status_eq_ok_iff.1 hs]; decide, hl.2⟩)
    ⟨.irredundant, Header.status_eq_ok_iff.2 rfl⟩

omit hs in
theorem Ordered.promoted (ho : a.Ordered) : (a.promoted i).Ordered :=
  ho.withHeader (Nat.lt_of_lt_of_le h a.len_le_slots) rfl rfl

omit hs in
theorem Separated.promoted (hd : a.Separated) : (a.promoted i).Separated :=
  hd.withHeader (Nat.lt_of_lt_of_le h a.len_le_slots) rfl rfl

end Promoted

/-! ## Erasing a literal -/

/-- The arena with a literal taken out of a clause. -/
def erased (a : Arena) (i : Nat) (l : Lit) : Arena :=
  { a with
    headers := a.headers.setIfInBounds i { a.header i with
      size := .ofNat ((a.header i).size.toNat - 1), sig := signature ((a.text i).erase l) }
    cells := overwrite a.cells (a.header i).start.toNat ((a.text i).erase l) }

section Erased

variable (ha : a.Wf) (hd : a.Separated) (h : i < a.len) (hl : l ∈ a.text i)

theorem header_erased (h : i < a.len) (l : Lit) (j : Nat) : (a.erased i l).header j = if j = i then
    { a.header i with
      size := .ofNat ((a.header i).size.toNat - 1), sig := signature ((a.text i).erase l) } else a.header j :=
  header_withHeader (Nat.lt_of_lt_of_le h a.len_le_slots) _

theorem len_erased (a : Arena) (i : Nat) (l : Lit) : (a.erased i l).len = a.len := len_withHeader a i _

theorem numLits_erased (a : Arena) (i : Nat) (l : Lit) : (a.erased i l).numLits = a.numLits := by
  simp [erased, numLits, litCapacity]

theorem alive_erased (h : i < a.len) (l : Lit) (j : Nat) : (a.erased i l).alive j = a.alive j := by
  unfold alive
  rw [header_erased h, len_erased]
  split
  · next he => rw [he]; rfl
  · rfl

theorem size_header_erased (h : i < a.len) (l : Lit) (j : Nat) :
    ((a.erased i l).header j).size.toNat ≤ (a.header j).size.toNat := by
  rw [header_erased h]
  split
  · next he =>
    rw [he]
    show (UInt32.ofNat _).toNat ≤ _
    rw [show (UInt32.ofNat ((a.header i).size.toNat - 1)).toNat = _ from
      Nat.mod_eq_of_lt (Nat.lt_of_le_of_lt (Nat.sub_le _ _) (a.header i).size.toNat_lt)]
    exact Nat.sub_le _ _
  · exact Nat.le_refl _

theorem start_header_erased (h : i < a.len) (l : Lit) (j : Nat) :
    ((a.erased i l).header j).start = (a.header j).start := by
  rw [header_erased h]
  split
  · next he => rw [he]
  · rfl

theorem run?_erase (hi : i < a.headers.size)
    (hin : (a.header i).start.toNat + (a.header i).size.toNat ≤ a.cells.size) (h64 : a.cells.size < 2 ^ 64)
    (hl : l ∈ a.text i) : (onClause i (Clause.erase l)).run? a = .ok (true, a.erased i l) := by
  have hlits : (a.clauseAt i).lits = .ok (a.text i) := block_ok hin (Nat.lt_of_le_of_lt hin h64)
  have hlen : ((a.text i).erase l).length = (a.header i).size.toNat - 1 := by
    rw [List.length_erase_of_mem hl, text, length_slice hin]
  rw [run?_onClause hi, Clause.run?_erase hlits hl, ok_bind, Clause.rewritten, hlen]
  rfl

omit ha hd in
theorem run?_erase_of_notMem (hi : i < a.headers.size) {xs : List Lit} (hlits : (a.clauseAt i).lits = .ok xs)
    (hl : l ∉ xs) : (onClause i (Clause.erase l)).run? a = .ok (false, a) := by
  rw [run?_onClause hi, Clause.run?_erase_of_notMem hlits hl, ok_bind]
  exact congrArg (fun b => Except.ok (false, b)) (withHeader_self hi)

include ha h hl in
theorem erase_ok : (onClause i (Clause.erase l)).run? a = .ok (true, a.erased i l) :=
  run?_erase (Nat.lt_of_lt_of_le h a.len_le_slots) (ha.inside_cells h) ha.cells_lt hl

omit ha hd in
/-- Erasing changes the literals of one slot, if no block overlaps that of the slot. -/
theorem text_erased_of_apart (hi : i < a.headers.size)
    (hin : (a.header i).start.toNat + (a.header i).size.toNat ≤ a.cells.size) (hl : l ∈ a.text i)
    (hap : j ≠ i → ∀ p, (a.header j).start.toNat ≤ p → p < (a.header j).start.toNat + (a.header j).size.toNat →
      p < (a.header i).start.toNat ∨ (a.header i).start.toNat + (a.header i).size.toNat ≤ p) :
    (a.erased i l).text j = if j = i then (a.text i).erase l else a.text j := by
  have hlen : ((a.text i).erase l).length = (a.header i).size.toNat - 1 := by
    rw [List.length_erase_of_mem hl, text, length_slice hin]
  unfold text
  rw [show (a.erased i l).header j = _ from header_withHeader hi _]
  by_cases he : j = i
  · rw [if_pos he, if_pos he]
    show slice (overwrite _ _ _) _ (UInt32.ofNat ((a.header i).size.toNat - 1)).toNat = _
    rw [show (UInt32.ofNat ((a.header i).size.toNat - 1)).toNat = _ from
      Nat.mod_eq_of_lt (Nat.lt_of_le_of_lt (Nat.sub_le _ _) (a.header i).size.toNat_lt), ← hlen]
    exact slice_overwrite (by omega)
  · rw [if_neg he, if_neg he]
    refine slice_overwrite_of_disjoint fun p hp hp' => ?_
    rcases hap he p hp hp' with hlt | hle
    · exact Or.inl hlt
    · exact Or.inr (by omega)

include ha hd h hl in
theorem text_erased (hj : j < a.len) : (a.erased i l).text j = if j = i then (a.text i).erase l else a.text j := by
  refine text_erased_of_apart (Nat.lt_of_lt_of_le h a.len_le_slots) (ha.inside_cells h) hl fun he p hp hp' => ?_
  have hap := hd i h j hj (Ne.symm he) p
  unfold Owns at hap
  omega

include ha hd h hl in
theorem body_erased (hal : a.alive i) (j : Nat) :
    (a.erased i l).body j = if j = i then some ((a.text i).erase l) else a.body j := by
  unfold body
  rw [alive_erased h]
  by_cases hj : a.alive j
  · rw [if_pos hj, if_pos hj, text_erased ha hd h hl (alive_iff.1 hj).1]
    split <;> rfl
  · rw [if_neg hj, if_neg hj, if_neg fun he : j = i => hj (he ▸ hal)]

include ha hd h hl in
theorem trims_erased : a.Trims (a.erased i l) := by
  refine ⟨rfl, rfl, by simp [erased], size_overwrite _ _ _, fun j hj => ?_, fun j hj => ?_, fun hs j c hc => ?_⟩
  · rw [text_erased ha hd h hl hj]
    split
    · next he =>
      rw [he]
      exact List.erase_sublist
    · exact .refl _
  · rwa [alive_erased h] at hj
  · obtain ⟨hal, htext⟩ := body_eq_some_iff.1 hc
    rw [alive_erased h] at hal
    rw [text_erased ha hd h hl (alive_iff.1 hal).1] at htext
    rw [header_erased h]
    split at htext
    · next he => rw [if_pos he, ← htext]
    · next he =>
      rw [if_neg he]
      exact hs j c (body_eq_some_iff.2 ⟨hal, htext⟩)

include ha hd h hl in
theorem Wf.erased : (a.erased i l).Wf := by
  have ht := trims_erased ha hd h hl
  refine ⟨?_, ?_, fun j hj => ?_, fun j hj => ?_, fun j c hc => ?_⟩
  · rw [ht.slots]
    exact ha.slots_lt
  · rw [ht.cells]
    exact ha.cells_lt
  · rw [len_erased] at hj
    obtain ⟨s, hs⟩ := ha.status j hj
    refine ⟨s, Header.status_eq_ok_iff.2 ?_⟩
    rw [← Header.status_eq_ok_iff.1 hs, header_erased h]
    split
    · next he => rw [he]
    · rfl
  · rw [len_erased] at hj
    rw [numLits_erased, start_header_erased h]
    exact Nat.le_trans (Nat.add_le_add_left (size_header_erased h l j) _) (ha.inside j hj)
  · obtain ⟨c₀, hc₀, hsub⟩ := ht.body hc
    exact (ha.ascends j c₀ hc₀).sublist hsub

include h in
theorem Ordered.erased (ho : a.Ordered) : (a.erased i l).Ordered := by
  intro j k hjk hk
  rw [len_erased] at hk
  rw [start_header_erased h, start_header_erased h]
  exact Nat.le_trans (Nat.add_le_add_left (size_header_erased h l j) _) (ho j k hjk hk)

include hd h in
theorem Separated.erased : (a.erased i l).Separated :=
  hd.of_blocks (len_erased a i l) (start_header_erased h l) (size_header_erased h l)

end Erased

end Arena

end CnfSimp
