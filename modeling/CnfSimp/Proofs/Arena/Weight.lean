import CnfSimp.Proofs.Arena.Compact
import CnfSimp.Proofs.Assignment

/-!
# Weighing the clauses of an arena

Elimination sees a clause with both literals of a variable twice, so the number of clauses and the number of literals
can grow. They do not when tautologies count twice from the start.

* `Arena.total`: the sum of a weight over the live clauses. Trimming makes no such sum greater if parts of clauses weigh
  less (`Arena.Trims.total_le`).
* `Arena.mass`, `Arena.bulk`: the numbers of clauses and of literals with tautologies counted twice; `Arena.slack`: the
  literals of the tautologies.
-/

namespace CnfSimp

variable {c c' : List Lit}

theorem Tautology.of_subset (h : Tautology c') (hsub : ∀ l ∈ c', l ∈ c) : Tautology c := by
  obtain ⟨l, hl, hn⟩ := h
  exact ⟨l, hsub l hl, hsub _ hn⟩

/-- How often a clause counts. -/
def weight (c : List Lit) : Nat := if Tautology c then 2 else 1

theorem one_le_weight (c : List Lit) : 1 ≤ weight c := by
  unfold weight
  split <;> omega

theorem weight_le_two (c : List Lit) : weight c ≤ 2 := by
  unfold weight
  split <;> omega

/-- A part of a clause weighs no more. -/
theorem weight_le (h : c'.Sublist c) : weight c' ≤ weight c := by
  unfold weight
  by_cases ht : Tautology c'
  · simp [ht, ht.of_subset fun l hl => h.subset hl]
  · rw [if_neg ht]
    split <;> omega

namespace Arena

variable {a a' : Arena} {f : List Lit → Nat} {i d : Nat}

/-- The sum of a function over the live clauses. -/
def total (f : List Lit → Nat) (a : Arena) : Nat := (a.bodies.map f).sum

/-- The sum by slots. -/
theorem total_eq (f : List Lit → Nat) (a : Arena) : a.total f = (a.crefs.map fun i => (a.body i).elim 0 f).sum := by
  unfold total bodies
  induction a.crefs with
  | nil => rfl
  | cons i is ih =>
    rw [List.filterMap_cons, List.map_cons, List.sum_cons, ← ih]
    cases a.body i with
    | none => simp
    | some c => simp

/-- A sum with smaller terms. -/
theorem sum_map_le {is : List Nat} {g g' : Nat → Nat} (h : ∀ j ∈ is, g j ≤ g' j) :
    (is.map g).sum ≤ (is.map g').sum := by
  induction is with
  | nil => exact Nat.le_refl _
  | cons j is ih =>
    rw [List.map_cons, List.map_cons, List.sum_cons, List.sum_cons]
    exact Nat.add_le_add (h j List.mem_cons_self) (ih fun k hk => h k (List.mem_cons_of_mem _ hk))

/-- A sum with smaller terms, of which one is smaller by `d`. -/
theorem sum_map_add_le {is : List Nat} {g g' : Nat → Nat} (hi : i ∈ is) (h : ∀ j ∈ is, g j ≤ g' j)
    (hd : g i + d ≤ g' i) : (is.map g).sum + d ≤ (is.map g').sum := by
  induction is with
  | nil => cases hi
  | cons j is ih =>
    have hj := h j List.mem_cons_self
    have his := fun k hk => h k (List.mem_cons_of_mem _ hk)
    rw [List.map_cons, List.map_cons, List.sum_cons, List.sum_cons]
    rcases List.mem_cons.1 hi with rfl | hi
    · have := sum_map_le his
      omega
    · have := ih hi his
      omega

section Trims

variable (h : a.Trims a') (hf : ∀ c c' : List Lit, c'.Sublist c → f c' ≤ f c)
include h hf

/-- What a slot adds to the sum after trimming. -/
theorem Trims.elim_le (i : Nat) : (a'.body i).elim 0 f ≤ (a.body i).elim 0 f := by
  cases hb : a'.body i with
  | none => exact Nat.zero_le _
  | some c' =>
    obtain ⟨c, hc, hsub⟩ := h.body hb
    rw [hc]
    exact hf c c' hsub

/-- Trimming lowers the sum by at least what it takes from one slot. -/
theorem Trims.total_add_le (hi : i < a.len) (hd : (a'.body i).elim 0 f + d ≤ (a.body i).elim 0 f) :
    a'.total f + d ≤ a.total f := by
  rw [total_eq, total_eq, crefs, crefs, h.len]
  exact sum_map_add_le (List.mem_range.2 hi) (fun j _ => h.elim_le hf j) hd

theorem Trims.total_le : a'.total f ≤ a.total f := by
  rw [total_eq, total_eq, crefs, crefs, h.len]
  exact sum_map_le fun j _ => h.elim_le hf j

end Trims

/-! ## Clauses and literals -/

/-- The number of clauses, where tautologies count twice. -/
def mass (a : Arena) : Nat := a.total weight

/-- The number of literals, where those of tautologies count twice. -/
def bulk (a : Arena) : Nat := a.total fun c => weight c * c.length

/-- The number of literals of tautologies. -/
def slack (a : Arena) : Nat := a.total fun c => (weight c - 1) * c.length

theorem total_one (a : Arena) : a.total (fun _ => 1) = a.bodies.length := by
  unfold total
  simp

/-- Tautologies count once more. -/
theorem mass_eq_total (a : Arena) : a.mass = a.bodies.length + a.total fun c => weight c - 1 := by
  unfold mass total
  induction a.bodies with
  | nil => rfl
  | cons c cs ih =>
    have := one_le_weight c
    rw [List.map_cons, List.map_cons, List.sum_cons, List.sum_cons, List.length_cons, ih]
    omega

theorem length_bodies_le_mass (a : Arena) : a.bodies.length ≤ a.mass := by
  rw [a.mass_eq_total]
  exact Nat.le_add_right _ _

theorem bulk_eq (a : Arena) : a.bulk = volume a.bodies + a.slack := by
  unfold bulk slack total
  induction a.bodies with
  | nil => rfl
  | cons c cs ih =>
    have h : weight c * c.length = c.length + (weight c - 1) * c.length := by
      have := one_le_weight c
      rw [Nat.sub_mul, Nat.one_mul, Nat.add_sub_cancel' (Nat.le_mul_of_pos_left _ this)]
    simp only [List.map_cons, List.sum_cons, volume_cons, ih, h]
    omega

section Measures

variable (h : a.Trims a')
include h

theorem Trims.mass_le : a'.mass ≤ a.mass := h.total_le fun _ _ => weight_le

theorem Trims.bulk_le : a'.bulk ≤ a.bulk := h.total_le fun _ _ hsub => Nat.mul_le_mul (weight_le hsub) hsub.length_le

theorem Trims.slack_le : a'.slack ≤ a.slack :=
  h.total_le fun _ _ hsub => Nat.mul_le_mul (Nat.sub_le_sub_right (weight_le hsub) 1) hsub.length_le

/-- Losing a clause lowers the number of clauses. -/
theorem Trims.length_bodies_lt (hc : a.body i = some c) (hc' : a'.body i = none) :
    a'.bodies.length + 1 ≤ a.bodies.length := by
  rw [← total_one, ← total_one]
  refine h.total_add_le (fun _ _ _ => Nat.le_refl 1) (lt_of_body hc) ?_
  rw [hc, hc']
  exact Nat.le_refl 1

/-- Losing a literal lowers the number of literals. -/
theorem Trims.volume_lt (hc : a.body i = some c) (hc' : a'.body i = some c') (hlt : c'.length < c.length) :
    volume a'.bodies + 1 ≤ volume a.bodies := by
  refine h.total_add_le (fun _ _ hsub => hsub.length_le) (lt_of_body hc) ?_
  rw [hc, hc']
  exact hlt

theorem Trims.length_bodies_le : a'.bodies.length ≤ a.bodies.length := by
  rw [← total_one, ← total_one]
  exact h.total_le fun _ _ _ => Nat.le_refl 1

theorem Trims.volume_le : volume a'.bodies ≤ volume a.bodies := h.total_le fun _ _ hsub => hsub.length_le

/-- What trimming takes off weighs no less when tautologies count twice. -/
theorem Trims.mass_add_le : a'.mass + a.bodies.length ≤ a.mass + a'.bodies.length := by
  have hle : a'.total (fun c => weight c - 1) ≤ a.total fun c => weight c - 1 :=
    h.total_le fun _ _ hsub => Nat.sub_le_sub_right (weight_le hsub) 1
  have := a.mass_eq_total
  have := a'.mass_eq_total
  omega

theorem Trims.bulk_add_le : a'.bulk + volume a.bodies ≤ a.bulk + volume a'.bodies := by
  have := h.slack_le
  have := a.bulk_eq
  have := a'.bulk_eq
  omega

end Measures

/-- Melting clauses lowers a sum to which each contributes by as many. -/
theorem Melts.total_le {is : List Nat} {f : List Lit → Nat} (h : a.Melts is a')
    (hf : ∀ c c' : List Lit, c'.Sublist c → f c' ≤ f c) (h1 : ∀ c, 1 ≤ f c) : is.length + a'.total f ≤ a.total f := by
  induction h with
  | nil => simp
  | cons hi _ ih =>
    have hlt := (alive_iff.1 hi).1
    have hstep := (trims_melted hlt).total_add_le hf hlt (d := 1) (by
      rw [body_melted hlt, if_pos rfl, body_eq_some_iff.2 ⟨hi, rfl⟩]
      exact Nat.add_le_of_le_sub' (Nat.zero_le _) (h1 _))
    rw [List.length_cons]
    omega

theorem Melts.mass_le {is : List Nat} (h : a.Melts is a') : is.length + a'.mass ≤ a.mass :=
  h.total_le (fun _ _ => weight_le) one_le_weight

theorem Melts.length_bodies_le {is : List Nat} (h : a.Melts is a') :
    is.length + a'.bodies.length ≤ a.bodies.length := by
  rw [← total_one, ← total_one]
  exact h.total_le (fun _ _ _ => Nat.le_refl 1) fun _ => Nat.le_refl 1

end Arena

end CnfSimp
