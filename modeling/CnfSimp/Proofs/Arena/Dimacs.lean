import CnfSimp.Proofs.Arena.Append
import CnfSimp.Proofs.Assignment

/-!
# Arenas of given clauses

* `Lit.ofInt`, `clauseOfInts`: the literal of a nonzero integer, and the clause that is stored for a list of them.
  Storing a clause does not change when it holds (`holds_clauseOfInts`).
* `Arena.ofDimacs_ends`: an arena that was built from clauses is well-formed and holds exactly these, in order. They
  have their signatures (`Arena.signed_ofDimacs`).
-/

namespace CnfSimp

variable {E : Fault → Prop} {i : Int} {c : List Int} {l : Lit} {v : Assignment} {n : Nat}

/-- The literal of a nonzero integer. -/
def Lit.ofInt (i : Int) : Lit := .ofVar (i.natAbs - 1) (i < 0)

theorem Lit.ofDimacs_ok (h : i ≠ 0) : Lit.ofDimacs i = .ok (.ofInt i) := if_neg h

/-- An integer that stands for a literal of one of the first `n` variables, in 32 bits. -/
def IsLit (n : Nat) (i : Int) : Prop := i ≠ 0 ∧ i.natAbs ≤ n ∧ i < 2 ^ 31

instance : DecidablePred (IsLit n) := fun i => inferInstanceAs (Decidable (i ≠ 0 ∧ i.natAbs ≤ n ∧ i < 2 ^ 31))

theorem Lit.var_ofInt (hn : n ≤ 2 ^ 31) (h : IsLit n i) : (Lit.ofInt i).var = i.natAbs - 1 := by
  obtain ⟨h₀, h₁, _⟩ := h
  exact var_ofVar (by omega) _

theorem Lit.isNeg_ofInt (hn : n ≤ 2 ^ 31) (h : IsLit n i) : (Lit.ofInt i).isNeg = decide (i < 0) := by
  obtain ⟨h₀, h₁, _⟩ := h
  exact isNeg_ofVar (by omega) _

theorem Lit.var_ofInt_lt (hn : n ≤ 2 ^ 31) (h : IsLit n i) : (Lit.ofInt i).var < n := by
  rw [var_ofInt hn h]
  obtain ⟨h₀, h₁, _⟩ := h
  omega

/-- The stored form of a clause: sorted, without repetitions. -/
def clauseOfInts (c : List Int) : List Lit := dedupAdjacent (sortLits (c.map Lit.ofInt))

theorem mem_clauseOfInts : l ∈ clauseOfInts c ↔ ∃ i ∈ c, Lit.ofInt i = l := by
  unfold clauseOfInts sortLits
  rw [mem_dedupAdjacent, mem_sortBy, List.mem_map]

theorem pairwise_clauseOfInts (c : List Int) : (clauseOfInts c).Pairwise (· < ·) :=
  pairwise_dedupAdjacent (pairwise_sortLits _)

theorem length_clauseOfInts_le (c : List Int) : (clauseOfInts c).length ≤ c.length := by
  have h := (dedupAdjacent_sublist (sortLits (c.map Lit.ofInt))).length_le
  rwa [sortLits, length_sortBy, List.length_map] at h

theorem sum_length_clauseOfInts_le (clauses : List (List Int)) :
    ((clauses.map clauseOfInts).map List.length).sum ≤ (clauses.map List.length).sum := by
  induction clauses with
  | nil => exact Nat.le_refl _
  | cons c clauses ih =>
    simp only [List.map_cons, List.sum_cons]
    exact Nat.add_le_add (length_clauseOfInts_le c) ih

/-- A stored clause holds exactly if one of its integers does. -/
theorem holds_clauseOfInts : Holds v (clauseOfInts c) ↔ ∃ i ∈ c, (Lit.ofInt i).Holds v := by
  unfold Holds
  simp only [mem_clauseOfInts]
  constructor
  · rintro ⟨_, ⟨i, hi, rfl⟩, hv⟩
    exact ⟨i, hi, hv⟩
  · rintro ⟨i, hi, hv⟩
    exact ⟨_, ⟨i, hi, rfl⟩, hv⟩

/-- There is one code that no 32-bit integer has, so stored clauses are not too long for their size to be stored. -/
theorem length_clauseOfInts_lt (hn : n ≤ 2 ^ 31) (hc : ∀ i ∈ c, IsLit n i) : (clauseOfInts c).length < 2 ^ 32 := by
  have hlast : Lit.positive (2 ^ 31 - 1) ∉ clauseOfInts c := fun h => by
    obtain ⟨i, hi, he⟩ := mem_clauseOfInts.1 h
    have hv := congrArg Lit.var he
    have hs := congrArg Lit.isNeg he
    rw [Lit.var_ofInt hn (hc i hi), Lit.var_positive (by decide)] at hv
    rw [Lit.isNeg_ofInt hn (hc i hi), show (Lit.positive (2 ^ 31 - 1)).isNeg = false from
      Lit.isNeg_ofVar (by decide) false, decide_eq_false_iff_not] at hs
    obtain ⟨_, _, hlt⟩ := hc i hi
    omega
  exact length_lt_of_notMem (pairwise_clauseOfInts c) hlast

namespace Arena

variable {a a' : Arena} {rs : List (List Lit)} {clauses : List (List Int)}

/-- The clauses of an extended arena. -/
theorem Extends.bodies_eq (h : a.Extends a' rs) : a'.bodies = a.bodies ++ rs := by
  unfold bodies crefs
  rw [h.len, List.range_add, List.filterMap_append, List.filterMap_map]
  congr 1
  · exact List.filterMap_congr fun j hj => h.old j (List.mem_range.1 hj)
  · simp only [Function.comp_def, h.new]
    exact filterMap_getElem?_range rs

/-- A new arena of the given capacities. -/
theorem allocate_ends {slots : UInt32} {cells : UInt64}
    (h : (∀ f, E f) ∨ slots ≠ 0 ∧ cells ≠ 0 ∧ cells.toNat < 2 ^ 61) :
    Ends E (allocate slots cells) fun a => a.Wf ∧ a.Ordered ∧ a.len = 0 ∧ (∀ n, a.Within n) ∧
      a.clauseCount = 0 ∧ a.litCount = 0 ∧ a.headers.size = slots.toNat ∧ a.cells.size = cells.toNat := by
  cases hrun : allocate slots cells with
  | error f =>
    refine h.elim (fun h => h f) fun h => ?_
    rw [allocate_eq_ok_iff.2 ⟨h.1, h.2.1, h.2.2, rfl⟩] at hrun
    cases hrun
  | ok a =>
    obtain ⟨-, -, -, rfl⟩ := allocate_eq_ok_iff.1 hrun
    have hlen : (blank slots cells).len = 0 := Nat.zero_min _
    refine ⟨⟨?_, ?_, fun i hi => ?_, fun i hi => ?_, fun i c hc => ?_⟩, fun i j _ hj => ?_, hlen,
      fun n i hi => ?_, rfl, rfl, slots_blank, cells_blank⟩
    · rw [slots_blank]
      exact slots.toNat_lt
    · rw [cells_blank]
      exact cells.toNat_lt
    · omega
    · omega
    · have := lt_of_body hc
      omega
    · omega
    · omega

/-- A new arena for given totals, with one slot and one cell at least. -/
theorem allocate_max_ends {k m : Nat} (h : (∀ f, E f) ∨ k < 2 ^ 32 ∧ m < 2 ^ 61) :
    Ends E (allocate (.ofNat (max k 1)) (.ofNat (max m 1))) fun a =>
      (a.Wf ∧ a.Ordered ∧ a.len = 0 ∧ (∀ n, a.Within n) ∧ a.clauseCount = 0 ∧ a.litCount = 0) ∧
        (k < 2 ^ 32 → a.headers.size = max k 1) ∧ (m < 2 ^ 64 → a.cells.size = max m 1) := by
  have hslots (hlt : k < 2 ^ 32) : (UInt32.ofNat (max k 1)).toNat = max k 1 := Nat.mod_eq_of_lt (by omega)
  have hcells (hlt : m < 2 ^ 64) : (UInt64.ofNat (max m 1)).toNat = max m 1 := Nat.mod_eq_of_lt (by omega)
  refine (allocate_ends (h.imp_right fun h => ⟨fun h0 => ?_, fun h0 => ?_, ?_⟩)).imp ?_
  · have hsize := hslots h.1
    rw [h0, UInt32.toNat_zero] at hsize
    omega
  · have hsize := hcells (by omega)
    rw [h0, UInt64.toNat_zero] at hsize
    omega
  · rw [hcells (by omega)]
    omega
  · rintro a ⟨ha, ho, hlen, hwithin, hcount, hlits, hsize, hsize'⟩
    exact ⟨⟨ha, ho, hlen, hwithin, hcount, hlits⟩, fun hlt => hsize.trans (hslots hlt),
      fun hlt => hsize'.trans (hcells hlt)⟩

/-- Appending a clause of integers. -/
theorem append_ends {c : List Int} {s : Status} (ha : a.Wf) (hn : n ≤ 2 ^ 31) (hc : ∀ i ∈ c, IsLit n i)
    (hs : s ≠ .deleted) (hroom : (∀ f, E f) ∨ a.Room 1 (clauseOfInts c).length) :
    Ends E ((append (c.map Lit.ofInt) s).run? a) fun r => a.Extends r.2 [clauseOfInts c] := by
  have hlen := length_clauseOfInts_lt hn hc
  have hasc := pairwise_clauseOfInts c
  refine (appendAscending_ends ha hasc hlen hroom).imp ?_
  rintro _ ⟨rfl, hr⟩
  exact extends_appended hr ha hlen hasc hs

/-- Appending clauses of integers. -/
theorem appendAll_ends (ha : a.Wf) (hn : n ≤ 2 ^ 31) (hc : ∀ c ∈ clauses, ∀ i ∈ c, IsLit n i)
    (hroom : (∀ f, E f) ∨ a.RoomFor (clauses.map clauseOfInts)) :
    Ends E ((appendAll clauses).run? a) fun r => a.Extends r.2 (clauses.map clauseOfInts) := by
  unfold appendAll
  induction clauses generalizing a with
  | nil => exact .refl ha
  | cons c clauses ih =>
    have hcc := hc c List.mem_cons_self
    have hmap : c.mapM Lit.ofDimacs = .ok (c.map Lit.ofInt) := mapM_ok fun i hi => Lit.ofDimacs_ok (hcc i hi).1
    rw [List.forM]
    simp only [Update.run?_bind, Update.run?_lift, hmap, ok_bind, Update.run?_pure]
    refine Ends.bind (P := fun r => a.Extends r.2 [clauseOfInts c]) ?_ ?_
    · refine (append_ends ha hn hcc (by decide) (hroom.imp_right RoomFor.head)).bind ?_
      intro r hr
      exact hr
    · rintro ⟨_, a₁⟩ hext
      refine (ih hext.wf (fun d hd => hc d (List.mem_cons_of_mem _ hd)) (hroom.imp_right (hext.room _))).imp ?_
      intro r hr
      exact hext.trans hr

/-- An arena built from clauses extends an empty one. -/
theorem ofDimacs_extends (hn : n ≤ 2 ^ 31) (hc : ∀ c ∈ clauses, ∀ i ∈ c, IsLit n i)
    (hroom : (∀ f, E f) ∨ clauses.length < 2 ^ 32 ∧ (clauses.map List.length).sum < 2 ^ 61) :
    Ends E (ofDimacs clauses) fun a' => ∃ a : Arena, a.Ordered ∧ a.len = 0 ∧ a.Within n ∧
      a.Extends a' (clauses.map clauseOfInts) := by
  have hsum := sum_length_clauseOfInts_le clauses
  unfold ofDimacs
  simp only [totalOf_eq_sum]
  refine (allocate_max_ends hroom).bind ?_
  rintro a ⟨⟨ha, ho, hlen, hwithin, hcount, hlits⟩, hslots, hcells⟩
  refine (appendAll_ends ha hn hc (hroom.imp_right fun h => Or.inr ⟨?_, ?_⟩)).bind ?_
  · rw [hcount, hslots h.1, List.length_map]
    show 0 + _ ≤ _
    omega
  · rw [hlits, hcells (by omega)]
    show 0 + _ ≤ _
    omega
  rintro ⟨_, a'⟩ hext
  exact ⟨a, ho, hlen, hwithin n, hext⟩

/-- An arena built from clauses holds exactly these. -/
theorem ofDimacs_ends (hn : n ≤ 2 ^ 31) (hc : ∀ c ∈ clauses, ∀ i ∈ c, IsLit n i)
    (hroom : (∀ f, E f) ∨ clauses.length < 2 ^ 32 ∧ (clauses.map List.length).sum < 2 ^ 61) :
    Ends E (ofDimacs clauses) fun a => a.Wf ∧ a.Ordered ∧ a.Within n ∧ a.bodies = clauses.map clauseOfInts := by
  refine (ofDimacs_extends hn hc hroom).imp fun a' ⟨a, ho, hlen, hwithin, hext⟩ => ?_
  refine ⟨hext.wf, hext.ordered ho, hext.within n hwithin ?_, ?_⟩
  · intro r hr l hl
    obtain ⟨c, hcm, rfl⟩ := List.mem_map.1 hr
    obtain ⟨i, hi, rfl⟩ := mem_clauseOfInts.1 hl
    exact Lit.var_ofInt_lt hn (hc c hcm i hi)
  · rw [hext.bodies_eq]
    simp [bodies, crefs, hlen]

/-- The clauses of an arena built from clauses have their signatures. -/
theorem signed_ofDimacs (hn : n ≤ 2 ^ 31) (hc : ∀ c ∈ clauses, ∀ i ∈ c, IsLit n i) (h : ofDimacs clauses = .ok a) :
    a.Signed := by
  obtain ⟨a₀, _, hlen, _, hext⟩ := (ofDimacs_extends (E := fun _ => True) hn hc (Or.inl fun _ => trivial)).of_ok h
  refine hext.signed fun i c hb => ?_
  have := lt_of_body hb
  omega

end Arena

end CnfSimp
