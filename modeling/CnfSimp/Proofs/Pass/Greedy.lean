import CnfSimp.Proofs.Pass.Models

/-!
# Greedy choices of variables

* `Arena.Eligible`: a variable occurs in live clauses, and its literals do not occur too often.
* `Arena.greedy`: walking a list, each variable is taken that is eligible and shares no live clause with one taken
  before.
* No two variables taken share a live clause (`Arena.pairwise_greedy`), and every eligible one that was not taken shares
  one with a variable that was (`Arena.exists_not_apart`).
-/

namespace CnfSimp.Arena

variable {a : Arena} {taken xs : List Nat} {posLimit negLimit x y : Nat}

instance (a : Arena) (x y : Nat) : Decidable (a.Apart x y) :=
  inferInstanceAs (Decidable (∀ c ∈ a.bodies, ∀ l ∈ c, ∀ k ∈ c, l.var = x → k.var ≠ y))

/-- The variable occurs in live clauses, and in so many with either literal at most. -/
def Eligible (a : Arena) (posLimit negLimit x : Nat) : Prop :=
  0 < (a.clausesWith (.positive x)).length + (a.clausesWith (.negative x)).length ∧
    (a.clausesWith (.positive x)).length ≤ posLimit ∧ (a.clausesWith (.negative x)).length ≤ negLimit

instance (a : Arena) (posLimit negLimit x : Nat) : Decidable (a.Eligible posLimit negLimit x) :=
  inferInstanceAs (Decidable (_ ∧ _ ∧ _))

/-- The variables taken from a list after some were taken: each that is eligible and shares no live clause with one
taken before. -/
def greedy (a : Arena) (posLimit negLimit : Nat) (taken : List Nat) : List Nat → List Nat
  | [] => []
  | x :: xs =>
    if a.Eligible posLimit negLimit x ∧ ∀ y ∈ taken, a.Apart y x then
      x :: a.greedy posLimit negLimit (x :: taken) xs
    else
      a.greedy posLimit negLimit taken xs

/-- Two variables that are not apart meet in a live clause. -/
theorem not_apart_iff : ¬a.Apart x y ↔ ∃ c ∈ a.bodies, ∃ l ∈ c, ∃ k ∈ c, l.var = x ∧ k.var = y := by
  unfold Apart
  push Not
  rfl

theorem not_eligible_iff : ¬a.Eligible posLimit negLimit x ↔
    (a.clausesWith (.positive x)).length + (a.clausesWith (.negative x)).length = 0 ∨
      posLimit < (a.clausesWith (.positive x)).length ∨ negLimit < (a.clausesWith (.negative x)).length := by
  unfold Eligible
  omega

/-- A variable that occurs is not apart from itself. -/
theorem Eligible.not_apart (h : a.Eligible posLimit negLimit x) (hx : x < 2 ^ 31) : ¬a.Apart x x := by
  have hmeet {l : Lit} (hl : l.var = x) (hlen : 0 < (a.clausesWith l).length) : ¬a.Apart x x := by
    obtain ⟨c, hc⟩ := List.exists_mem_of_length_pos hlen
    obtain ⟨hc, hlc⟩ := mem_clausesWith.1 hc
    exact not_apart_iff.2 ⟨c, hc, l, hlc, l, hlc, hl, hl⟩
  rcases Nat.add_pos_iff_pos_or_pos.1 h.1 with hpos | hneg
  · exact hmeet (Lit.var_positive hx) hpos
  · exact hmeet (Lit.var_negative hx) hneg

theorem greedy_sublist (a : Arena) (posLimit negLimit : Nat) (taken xs : List Nat) :
    (a.greedy posLimit negLimit taken xs).Sublist xs := by
  fun_induction greedy a posLimit negLimit taken xs with
  | case1 => exact .slnil
  | case2 taken x xs _ ih => exact ih.cons_cons x
  | case3 taken x xs _ ih => exact ih.cons x

theorem eligible_of_mem_greedy (h : x ∈ a.greedy posLimit negLimit taken xs) : a.Eligible posLimit negLimit x := by
  fun_induction greedy a posLimit negLimit taken xs with
  | case1 => cases h
  | case2 taken y xs hy ih =>
    rcases List.mem_cons.1 h with rfl | h
    · exact hy.1
    · exact ih h
  | case3 taken y xs _ ih => exact ih h

/-- What is taken shares no live clause with what was taken before. -/
theorem apart_of_mem_greedy (h : x ∈ a.greedy posLimit negLimit taken xs) (hy : y ∈ taken) : a.Apart y x := by
  fun_induction greedy a posLimit negLimit taken xs with
  | case1 => cases h
  | case2 taken z xs hz ih =>
    rcases List.mem_cons.1 h with rfl | h
    · exact hz.2 y hy
    · exact ih h (List.mem_cons_of_mem _ hy)
  | case3 taken z xs _ ih => exact ih h hy

theorem pairwise_greedy (a : Arena) (posLimit negLimit : Nat) (taken xs : List Nat) :
    (a.greedy posLimit negLimit taken xs).Pairwise a.Apart := by
  fun_induction greedy a posLimit negLimit taken xs with
  | case1 => exact .nil
  | case2 taken x xs _ ih =>
    exact List.pairwise_cons.2 ⟨fun y hy => apart_of_mem_greedy hy List.mem_cons_self, ih⟩
  | case3 taken x xs _ ih => exact ih

/-- So nothing is taken twice. -/
theorem nodup_greedy (a : Arena) (posLimit negLimit : Nat) (taken : List Nat) (hxs : ∀ x ∈ xs, x < 2 ^ 31) :
    (a.greedy posLimit negLimit taken xs).Nodup := by
  refine (a.pairwise_greedy posLimit negLimit taken xs).imp_of_mem fun {x y} hx _ hapart => ?_
  rintro rfl
  exact (eligible_of_mem_greedy hx).not_apart (hxs x ((a.greedy_sublist _ _ _ _).subset hx)) hapart

/-- What is eligible and was not taken shares a live clause with something that was. -/
theorem exists_not_apart (hx : x ∈ xs) (he : a.Eligible posLimit negLimit x)
    (hn : x ∉ a.greedy posLimit negLimit taken xs) :
    ∃ y, (y ∈ taken ∨ y ∈ a.greedy posLimit negLimit taken xs) ∧ ¬a.Apart y x := by
  fun_induction greedy a posLimit negLimit taken xs with
  | case1 => cases hx
  | case2 taken z xs _ ih =>
    obtain ⟨hne, hn⟩ := not_or.1 (mt List.mem_cons.2 hn)
    obtain ⟨y, hy, hmeet⟩ := ih ((List.mem_cons.1 hx).resolve_left hne) hn
    refine ⟨y, ?_, hmeet⟩
    simpa only [List.mem_cons, or_assoc, or_left_comm] using hy
  | case3 taken z xs hz ih =>
    rcases List.mem_cons.1 hx with rfl | hx
    · have hmeet : ∃ y ∈ taken, ¬a.Apart y x := by
        by_contra hall
        push Not at hall
        exact hz ⟨he, hall⟩
      obtain ⟨y, hy, hmeet⟩ := hmeet
      exact ⟨y, Or.inl hy, hmeet⟩
    · exact ih hx hn

end CnfSimp.Arena
