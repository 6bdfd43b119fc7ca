/-!
# Ordered sequences

List functions shared by clauses, occurrence lists and scores. All are structural, so they evaluate in proofs.

* `allAdjacent r xs`: every element and its successor are in relation `r`.
* `dedupAdjacent`: every run of equal elements shrinks to one (`mem_dedupAdjacent`).
* `sortBy le`: a stable sort, by insertion from the right (`sortBy_perm`, `pairwise_sortBy`).
* `mergeBy le`: two lists become one (`mergeBy_perm`), the left element first unless the right one is strictly below it.
* `selectM p xs`: the elements that pass a test that may fail.
* `splitWhere p xs`: the parts between the elements that pass a test.
* `totalOf ns`: the sum of a list of numbers.
-/

namespace CnfSimp

variable {α : Type}

/-- Every element and its successor are in relation `r`. -/
def allAdjacent (r : α → α → Bool) : List α → Bool
  | x :: y :: xs => r x y && allAdjacent r (y :: xs)
  | _ => true

/-- Keeps the first element of every run of equal ones. -/
def dedupAdjacent [BEq α] : List α → List α
  | x :: y :: xs => if x == y then dedupAdjacent (y :: xs) else x :: dedupAdjacent (y :: xs)
  | xs => xs

/-- No element is lost with its duplicates. -/
@[simp]
theorem mem_dedupAdjacent [BEq α] [LawfulBEq α] {z : α} {xs : List α} : z ∈ dedupAdjacent xs ↔ z ∈ xs := by
  fun_induction dedupAdjacent xs with
  | case1 x y xs h ih => rw [ih, List.mem_cons (b := x), eq_of_beq h]; simp
  | case2 x y xs h ih => rw [List.mem_cons, ih, List.mem_cons (b := x)]
  | case3 => rfl

/-- Inserts an element before the first one that it does not exceed. -/
def insertBy (le : α → α → Bool) (x : α) : List α → List α
  | [] => [x]
  | y :: ys => if le x y then x :: y :: ys else y :: insertBy le x ys

/-- Sorts; equal elements keep their order. -/
def sortBy (le : α → α → Bool) (xs : List α) : List α :=
  xs.foldr (insertBy le) []

/-- An insertion adds one element. -/
theorem insertBy_perm (le : α → α → Bool) (x : α) (ys : List α) : (insertBy le x ys).Perm (x :: ys) := by
  induction ys with
  | nil => exact .refl _
  | cons y ys ih =>
    rw [insertBy]
    split
    · exact .refl _
    · exact (ih.cons y).trans (.swap x y ys)

/-- Sorting keeps every element as often as it was there. -/
theorem sortBy_perm (le : α → α → Bool) (xs : List α) : (sortBy le xs).Perm xs := by
  induction xs with
  | nil => exact .refl _
  | cons x xs ih => exact (insertBy_perm le x _).trans (ih.cons x)

/-- Sorting keeps the elements. -/
@[simp]
theorem mem_sortBy {le : α → α → Bool} {z : α} {xs : List α} : z ∈ sortBy le xs ↔ z ∈ xs :=
  (sortBy_perm le xs).mem_iff

/-- Sorting keeps the length. -/
@[simp]
theorem length_sortBy (le : α → α → Bool) (xs : List α) : (sortBy le xs).length = xs.length :=
  (sortBy_perm le xs).length_eq

/-- Where the order is total and transitive, an insertion keeps a list sorted. -/
theorem pairwise_insertBy {le : α → α → Bool} (total : ∀ x y, le x y || le y x)
    (trans : ∀ x y z, le x y → le y z → le x z) (x : α) {ys : List α} (h : ys.Pairwise (le · ·)) :
    (insertBy le x ys).Pairwise (le · ·) := by
  induction ys with
  | nil => exact List.pairwise_singleton _ _
  | cons y ys ih =>
    obtain ⟨hy, hys⟩ := List.pairwise_cons.1 h
    rw [insertBy]
    split
    · rename_i hxy
      refine List.pairwise_cons.2 ⟨fun z hz => ?_, h⟩
      rcases List.mem_cons.1 hz with rfl | hz
      · exact hxy
      · exact trans x y z hxy (hy z hz)
    · rename_i hxy
      refine List.pairwise_cons.2 ⟨fun z hz => ?_, ih hys⟩
      rcases List.mem_cons.1 ((insertBy_perm le x ys).mem_iff.1 hz) with rfl | hz
      · simpa [hxy] using total z y
      · exact hy z hz

/-- Where the order is total and transitive, the result is sorted. -/
theorem pairwise_sortBy {le : α → α → Bool} (total : ∀ x y, le x y || le y x)
    (trans : ∀ x y z, le x y → le y z → le x z) (xs : List α) : (sortBy le xs).Pairwise (le · ·) := by
  induction xs with
  | nil => exact .nil
  | cons x xs ih => exact pairwise_insertBy total trans x ih

/-- One step of a merge: the elements of the right list that go before `x`, then `x` and the merged rest. -/
def mergeStep (le : α → α → Bool) (x : α) (rest : List α → List α) : List α → List α
  | [] => x :: rest []
  | y :: ys => if le x y then x :: rest (y :: ys) else y :: mergeStep le x rest ys

/-- Merges two lists, taking from the left one unless the right one's head is strictly below. -/
def mergeBy (le : α → α → Bool) : List α → List α → List α
  | [], ys => ys
  | x :: xs, ys => mergeStep le x (mergeBy le xs) ys

/-- A step of a merge holds `x`, the right list and what the merged rest adds to it. -/
theorem mergeStep_perm {le : α → α → Bool} (x : α) {xs : List α} {rest : List α → List α}
    (h : ∀ ys, (rest ys).Perm (xs ++ ys)) (ys : List α) : (mergeStep le x rest ys).Perm (x :: xs ++ ys) := by
  induction ys with
  | nil => exact (h []).cons x
  | cons y ys ih =>
    rw [mergeStep]
    split
    · exact (h (y :: ys)).cons x
    · exact (ih.cons y).trans List.perm_middle.symm

/-- A merge holds the elements of both lists. -/
theorem mergeBy_perm (le : α → α → Bool) (xs ys : List α) : (mergeBy le xs ys).Perm (xs ++ ys) := by
  induction xs generalizing ys with
  | nil => exact .refl _
  | cons x xs ih => exact mergeStep_perm x ih ys

/-- The elements that pass a test, in order, if the test answers for each of them. -/
def selectM {ε : Type} (p : α → Except ε Bool) : List α → Except ε (List α)
  | [] => .ok []
  | x :: xs => do
    let keep ← p x
    let rest ← selectM p xs
    return if keep then x :: rest else rest

/-- Adds an element in front: to the first part, or as the end of a new one. -/
def splitStep (p : α → Bool) (x : α) (parts : List (List α)) : List (List α) :=
  if p x then [] :: parts
  else match parts with
    | part :: parts => (x :: part) :: parts
    | [] => [[x]]

/-- The parts of a list between the elements that pass a test; always at least one. -/
def splitWhere (p : α → Bool) (xs : List α) : List (List α) :=
  xs.foldr (splitStep p) [[]]

/-- The sum of a list of numbers. -/
def totalOf (ns : List Nat) : Nat :=
  ns.foldr (· + ·) 0

end CnfSimp
