import Mathlib
import CnfSimp.Lit

/-!
# The order of literals

Literals are ordered as their codes, so that the two literals of a variable are neighbours.

* `Lit.lt_iff`, `Lit.le_iff`: the order in codes; `Lit.var_eq_iff`: the literals of one variable.
* `ascending_iff`: a clause is ascending if every literal is below all that follow.
* `dedupAdjacent_eq_destutter`, `pairwise_dedupAdjacent`: dropping adjacent repetitions is `List.destutter`, and a
  sorted clause without them is ascending.
* `firstLits`: the literals of the first codes. A clause of all literals is as long as there are codes, and every other
  one is shorter (`length_of_forall_mem`, `length_lt_of_notMem`).
* `signature_and_not`: the signature of a part of a clause has no bit that the signature of the clause lacks.
-/

namespace CnfSimp

namespace Lit

variable {l k m : Lit}

/-- A literal is given by its code. -/
theorem index_inj : l.index = k.index ↔ l = k := by
  refine ⟨fun h => ?_, fun h => h ▸ rfl⟩
  obtain ⟨l⟩ := l
  obtain ⟨k⟩ := k
  exact congrArg Lit.mk (UInt32.toNat_inj.1 h)

theorem lt_iff : l < k ↔ l.index < k.index := Iff.rfl

theorem le_iff : l ≤ k ↔ l.index ≤ k.index := Iff.rfl

theorem lt_irrefl (l : Lit) : ¬l < l := fun h => Nat.lt_irrefl _ (lt_iff.1 h)

theorem lt_trans (h : l < k) (h' : k < m) : l < m := Nat.lt_trans (lt_iff.1 h) h'

instance : @Std.Irrefl Lit (· < ·) := ⟨lt_irrefl⟩

instance : @Std.Antisymm Lit (· < ·) := ⟨fun l _ h h' => absurd (lt_trans h h') (lt_irrefl l)⟩

theorem le_trans (h : l ≤ k) (h' : k ≤ m) : l ≤ m := Nat.le_trans (le_iff.1 h) h'

theorem le_total (l k : Lit) : l ≤ k ∨ k ≤ l := Nat.le_total l.index k.index

theorem lt_of_le_of_ne (h : l ≤ k) (hne : l ≠ k) : l < k :=
  lt_iff.2 (Nat.lt_of_le_of_ne (le_iff.1 h) fun e => hne (index_inj.1 e))

/-- Codes are 32-bit numbers. -/
theorem index_lt (l : Lit) : l.index < 2 ^ 32 := l.code.toNat_lt

/-- A literal differs from its negation. -/
theorem not_ne (l : Lit) : l.not ≠ l := by
  intro h
  have := congrArg isNeg h
  simp at this

theorem ne_not (l : Lit) : l ≠ l.not := fun h => not_ne l h.symm

/-- Negation is injective. -/
theorem not_inj : l.not = k.not ↔ l = k :=
  ⟨fun h => by rw [← Lit.not_not l, h, Lit.not_not], fun h => h ▸ rfl⟩

/-- A literal is given by its variable and its sign. -/
theorem ext_var (hv : l.var = k.var) (hn : l.isNeg = k.isNeg) : l = k := by
  rw [← ofVar_var_isNeg l, hv, hn, ofVar_var_isNeg]

/-- The literals of one variable are a literal and its negation. -/
theorem var_eq_iff : l.var = k.var ↔ l = k ∨ l = k.not := by
  constructor
  · intro h
    by_cases hn : l.isNeg = k.isNeg
    · exact Or.inl (ext_var h hn)
    · refine Or.inr (ext_var (by rw [h, var_not]) ?_)
      rw [isNeg_not]
      cases hl : l.isNeg <;> cases hk : k.isNeg <;> simp_all
  · rintro (rfl | rfl)
    · rfl
    · exact var_not k

theorem var_positive {v : Nat} (h : v < 2 ^ 31) : (positive v).var = v := var_ofVar h false

theorem var_negative {v : Nat} (h : v < 2 ^ 31) : (negative v).var = v := var_ofVar h true

theorem not_positive {v : Nat} (h : v < 2 ^ 31) : (positive v).not = negative v := by
  rw [not, var_positive h, show (positive v).isNeg = false from isNeg_ofVar h false]
  rfl

theorem not_negative {v : Nat} (h : v < 2 ^ 31) : (negative v).not = positive v := by
  rw [← not_positive h, Lit.not_not]

/-- The literals of a variable. -/
theorem var_eq_iff_positive_or_negative {v : Nat} (h : v < 2 ^ 31) : l.var = v ↔ l = positive v ∨ l = negative v := by
  rw [← not_positive h, ← var_eq_iff, var_positive h]

/-- A code below that of the room for `n` variables is that of one of the first `n + 1` variables. -/
theorem index_lt_litSlots {n : Nat} (h : l.var < n) : l.index < litSlots n := by
  have := l.index_eq
  have := Bool.toNat_lt l.isNeg
  unfold litSlots
  omega

end Lit

/-! ## Ascending clauses -/

section Ascending

variable {lits : List Lit}

/-- In a transitive relation, adjacent elements are related if all are. -/
theorem allAdjacent_iff {α : Type} {r : α → α → Bool} (trans : ∀ x y z, r x y → r y z → r x z) {xs : List α} :
    allAdjacent r xs ↔ xs.Pairwise (r · ·) := by
  fun_induction allAdjacent r xs with
  | case1 x y xs ih =>
    rw [Bool.and_eq_true, ih]
    refine ⟨fun ⟨hxy, h⟩ => List.pairwise_cons.2 ⟨fun z hz => ?_, h⟩, fun h => ?_⟩
    · rcases List.mem_cons.1 hz with rfl | hz
      · exact hxy
      · exact trans x y z hxy ((List.pairwise_cons.1 h).1 z hz)
    · obtain ⟨hx, h⟩ := List.pairwise_cons.1 h
      exact ⟨hx y List.mem_cons_self, h⟩
  | case2 xs h =>
    rcases xs with _ | ⟨x, _ | ⟨y, xs⟩⟩
    · simp
    · simp
    · exact absurd rfl (h x y xs)

/-- A clause is ascending if every literal is below all that follow. -/
theorem ascending_iff : ascending lits ↔ lits.Pairwise (· < ·) := by
  rw [ascending, allAdjacent_iff (fun x y z => by simpa using Lit.lt_trans)]
  simp

/-- An ascending clause has no repetitions. -/
theorem nodup_of_pairwise_lt (h : lits.Pairwise (· < ·)) : lits.Nodup := by
  refine h.imp fun {l k} hlt => ?_
  rintro rfl
  exact Lit.lt_irrefl l hlt

/-- A clause without repetitions has at most as many literals as there are codes. -/
theorem length_le_of_nodup (h : lits.Nodup) : lits.length ≤ 2 ^ 32 := by
  have hnodup : (lits.map Lit.index).Nodup := h.map fun _ _ h => Lit.index_inj.1 h
  have hsub : lits.map Lit.index ⊆ List.range (2 ^ 32) := fun z hz => by
    obtain ⟨l, _, rfl⟩ := List.mem_map.1 hz
    exact List.mem_range.2 l.index_lt
  have := (List.subperm_of_subset hnodup hsub).length_le
  rwa [List.length_map, List.length_range] at this

/-- If it misses a literal, it has fewer. -/
theorem length_lt_of_notMem {l : Lit} (h : lits.Pairwise (· < ·)) (hl : l ∉ lits) : lits.length < 2 ^ 32 :=
  length_le_of_nodup (List.nodup_cons.2 ⟨hl, nodup_of_pairwise_lt h⟩)

/-- The literals of the first `n` codes, in order. -/
def firstLits (n : Nat) : List Lit := (List.range n).map fun k => ⟨.ofNat k⟩

theorem length_firstLits (n : Nat) : (firstLits n).length = n := by
  unfold firstLits
  rw [List.length_map, List.length_range]

theorem index_of_mem_firstLits {l : Lit} {n : Nat} (h : l ∈ firstLits n) : l.index < n := by
  obtain ⟨k, hk, rfl⟩ := List.mem_map.1 h
  exact Nat.lt_of_le_of_lt (Nat.mod_le k _) (List.mem_range.1 hk)

theorem pairwise_firstLits {n : Nat} (hn : n ≤ 2 ^ 32) : (firstLits n).Pairwise (· < ·) := by
  refine List.pairwise_map.2 (List.pairwise_lt_range.imp_of_mem fun {j k} hj hk hjk => ?_)
  have hj := List.mem_range.1 hj
  have hk := List.mem_range.1 hk
  have hword (m : Nat) (hm : m < n) : (UInt32.ofNat m).toNat = m := Nat.mod_eq_of_lt (by omega)
  rw [Lit.lt_iff]
  unfold Lit.index
  rw [hword j hj, hword k hk]
  exact hjk

theorem mem_firstLits (l : Lit) : l ∈ firstLits (2 ^ 32) :=
  List.mem_map.2 ⟨l.index, List.mem_range.2 l.index_lt, congrArg Lit.mk UInt32.ofNat_toNat⟩

/-- A clause of all literals. -/
theorem length_of_forall_mem (h : lits.Nodup) (hall : ∀ l, l ∈ lits) : lits.length = 2 ^ 32 := by
  have hfirst := nodup_of_pairwise_lt (pairwise_firstLits (Nat.le_refl (2 ^ 32)))
  have hle := (List.subperm_of_subset hfirst fun l _ => hall l).length_le
  rw [length_firstLits] at hle
  exact Nat.le_antisymm (length_le_of_nodup h) hle

/-- Dropping adjacent repetitions leaves a sublist. -/
theorem dedupAdjacent_sublist {α : Type} [BEq α] (xs : List α) : (dedupAdjacent xs).Sublist xs := by
  fun_induction dedupAdjacent xs with
  | case1 x y xs _ ih => exact ih.cons x
  | case2 x y xs _ ih => exact ih.cons_cons x
  | case3 => exact .refl _

/-- Dropping adjacent repetitions in terms of the library. -/
theorem dedupAdjacent_eq_destutter {α : Type} [DecidableEq α] (xs : List α) :
    dedupAdjacent xs = xs.destutter (· ≠ ·) := by
  fun_induction dedupAdjacent xs with
  | case1 x y xs hxy ih =>
    rw [ih, List.destutter_cons', List.destutter_cons', List.destutter'_cons_neg]
    · rw [eq_of_beq hxy]
    · simp [eq_of_beq hxy]
  | case2 x y xs hxy ih =>
    rw [ih, List.destutter_cons', List.destutter_cons', List.destutter'_cons_pos]
    simpa using hxy
  | case3 xs h =>
    rcases xs with _ | ⟨x, _ | ⟨y, xs⟩⟩
    · rfl
    · rfl
    · exact absurd rfl (h x y xs)

/-- A sorted clause without adjacent repetitions is ascending. -/
theorem pairwise_dedupAdjacent (h : lits.Pairwise (· ≤ ·)) : (dedupAdjacent lits).Pairwise (· < ·) := by
  fun_induction dedupAdjacent lits with
  | case1 x y xs hxy ih => exact ih (List.pairwise_cons.1 h).2
  | case2 x y xs hxy ih =>
    obtain ⟨hx, h⟩ := List.pairwise_cons.1 h
    refine List.pairwise_cons.2 ⟨fun z hz => ?_, ih h⟩
    rw [mem_dedupAdjacent] at hz
    have hlt : x < y := Lit.lt_of_le_of_ne (hx y List.mem_cons_self) (by simpa using hxy)
    rcases List.mem_cons.1 hz with rfl | hz
    · exact hlt
    · exact Nat.lt_of_lt_of_le (Lit.lt_iff.1 hlt) ((List.pairwise_cons.1 h).1 z hz)
  | case3 xs h' =>
    rcases xs with _ | ⟨x, _ | ⟨y, xs⟩⟩
    · exact .nil
    · exact List.pairwise_singleton _ _
    · exact absurd rfl (h' x y xs)

/-- Sorting sorts. -/
theorem pairwise_sortLits (lits : List Lit) : (sortLits lits).Pairwise (· ≤ ·) := by
  have h : (sortLits lits).Pairwise fun l k => decide (l ≤ k) :=
    pairwise_sortBy (fun l k => by simpa using Lit.le_total l k) (fun l k m => by simpa using Lit.le_trans) lits
  exact h.imp of_decide_eq_true

end Ascending

/-! ## Signatures -/

section Signature

variable {c d : List Lit} {l : Lit}

theorem foldl_hashBit (c : List Lit) (sig : UInt32) :
    c.foldl (fun sig l => sig ||| l.hashBit) sig = sig ||| signature c := by
  unfold signature
  induction c generalizing sig with
  | nil => simp
  | cons l c ih => rw [List.foldl_cons, List.foldl_cons, ih, ih (0 ||| _), UInt32.zero_or, UInt32.or_assoc]

theorem signature_append (c d : List Lit) : signature (c ++ d) = signature c ||| signature d := by
  rw [signature, List.foldl_append, foldl_hashBit]
  rfl

theorem signature_cons (l : Lit) (c : List Lit) : signature (l :: c) = l.hashBit ||| signature c := by
  unfold signature
  rw [List.foldl_cons, UInt32.zero_or, foldl_hashBit]
  rfl

/-- A signature has the bits of its literals. -/
theorem hashBit_or_signature (h : l ∈ d) : l.hashBit ||| signature d = signature d := by
  induction d with
  | nil => cases h
  | cons k d ih =>
    rw [signature_cons, ← UInt32.or_assoc]
    rcases List.mem_cons.1 h with rfl | h
    · rw [UInt32.or_self]
    · rw [UInt32.or_comm l.hashBit, UInt32.or_assoc, ih h]

theorem signature_or_signature (h : c ⊆ d) : signature c ||| signature d = signature d := by
  induction c with
  | nil => exact UInt32.zero_or
  | cons l c ih =>
    obtain ⟨hl, hc⟩ := List.cons_subset.1 h
    rw [signature_cons, UInt32.or_assoc, ih hc, hashBit_or_signature hl]

/-- No bit of a part of a clause is missing from the signature of the clause. -/
theorem signature_and_not (h : c ⊆ d) : signature c &&& ~~~signature d = 0 := by
  rw [← signature_or_signature h]
  apply UInt32.toBitVec_inj.1
  simp [BitVec.not_or, ← BitVec.and_assoc]

end Signature

end CnfSimp
