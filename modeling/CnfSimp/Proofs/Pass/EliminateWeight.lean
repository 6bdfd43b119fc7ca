import CnfSimp.Proofs.Arena.Weight
import CnfSimp.Proofs.Pass.EliminateRun

/-!
# The weight of a formula under elimination

A clause with both literals of an eliminated variable is replaced as if it were two, so resolvents may outnumber the
clauses that go. With tautologies counted twice there are never more of them.

* `Eliminates.bodies_eq`: the clauses after an elimination are those without the variable, and the resolvents.
* `Eliminates.mass_le`, `Eliminates.bulk_le`, `Eliminates.slack_le`: none of the weights grows.
* `Arena.spread`: the number of variables that occur, together with the number of tautologies. It falls with every
  variable that loses clauses (`Eliminates.spread_lt`), so only so many do (`EliminatesAll.countP_le`).
* `eliminations_le`: together, the resolvents of variables that share no clauses weigh no more than the formula.
-/

namespace CnfSimp

variable {a a' : Arena} {c : List Lit} {cs rs : List (List Lit)} {l : Lit} {x y n limit : Nat} {xs : List Nat}

/-- Whether a clause has no literal of a variable. -/
def freeOf (x : Nat) (c : List Lit) : Bool := c.all fun l => l.var != x

theorem freeOf_iff : freeOf x c ↔ ∀ l ∈ c, l.var ≠ x := by
  unfold freeOf
  simp

theorem freeOf_eq (hx : x < 2 ^ 31) : freeOf x c = (!c.contains (.positive x) && !c.contains (.negative x)) := by
  rw [Bool.eq_iff_iff, freeOf_iff, Bool.and_eq_true, Bool.not_eq_true', Bool.not_eq_true']
  simp only [List.contains_eq_mem, decide_eq_false_iff_not]
  constructor
  · exact fun h => ⟨fun hp => h _ hp (Lit.var_positive hx), fun hn => h _ hn (Lit.var_negative hx)⟩
  · rintro ⟨hp, hn⟩ l hl hlx
    rcases (Lit.var_eq_iff_positive_or_negative hx).1 hlx with rfl | rfl
    · exact hp hl
    · exact hn hl

theorem two_le_weight (hx : x < 2 ^ 31) (hp : Lit.positive x ∈ c) (hn : Lit.negative x ∈ c) : weight c = 2 :=
  if_pos ⟨_, hp, by rwa [Lit.not_positive hx]⟩

/-- The clauses with one and those with the other literal of a variable, together with the weighted rest. -/
theorem sum_around_le (hx : x < 2 ^ 31) (g : List Lit → Nat) (cs : List (List Lit)) :
    ((cs.filter fun c => c.contains (.positive x)).map g).sum +
      ((cs.filter fun c => c.contains (.negative x)).map g).sum +
      ((cs.filter (freeOf x)).map fun c => weight c * g c).sum ≤ (cs.map fun c => weight c * g c).sum := by
  induction cs with
  | nil => exact Nat.le_refl _
  | cons c cs ih =>
    have hone := Nat.le_mul_of_pos_left (g c) (one_le_weight c)
    rw [List.filter_cons, List.filter_cons, List.filter_cons, freeOf_eq hx]
    simp only [List.contains_eq_mem] at ih ⊢
    by_cases hp : Lit.positive x ∈ c <;> by_cases hn : Lit.negative x ∈ c
    · have := two_le_weight hx hp hn
      simp [hp, hn, this]
      omega
    all_goals
      simp [hp, hn]
      omega

/-- The sum over a list of its parts that pass a test is no more than the sum over the list. -/
theorem sum_filter_le (p : List Lit → Bool) (g : List Lit → Nat) (cs : List (List Lit)) :
    ((cs.filter p).map g).sum ≤ (cs.map g).sum := by
  induction cs with
  | nil => exact Nat.le_refl _
  | cons c cs ih =>
    rw [List.filter_cons]
    split
    · simpa using ih
    · simp only [List.map_cons, List.sum_cons]
      omega

theorem sum_filter_add_le {p : List Lit → Bool} {g : List Lit → Nat} (hc : c ∈ cs) (hp : p c = false) :
    ((cs.filter p).map g).sum + g c ≤ (cs.map g).sum := by
  induction cs with
  | nil => cases hc
  | cons d cs ih =>
    rw [List.filter_cons]
    rcases List.mem_cons.1 hc with rfl | hc
    · have := sum_filter_le p g cs
      rw [hp, if_neg Bool.false_ne_true]
      simp only [List.map_cons, List.sum_cons]
      omega
    · have := ih hc
      split
      all_goals
        simp only [List.map_cons, List.sum_cons]
        omega

/-- A clause that is no tautology counts once. -/
theorem weight_eq_one (h : ¬Tautology c) : weight c = 1 := if_neg h

/-! ## One elimination -/

section Step

variable (ha : a.Wf) (hx : x < 2 ^ 31) (he : a.elimination limit x = some rs) (h : Eliminates a a' x rs)

include h in
/-- The clauses after an elimination. -/
theorem Eliminates.bodies_eq : a'.bodies = a.bodies.filter (freeOf x) ++ rs := by
  have hold (j : Nat) (hj : j < a.len) : a'.body j = (a.body j).filter (freeOf x) := by
    ext c
    rw [h.body_iff, Option.filter_eq_some_iff, freeOf_iff, or_iff_left]
    rintro ⟨k, rfl, _⟩
    omega
  have hnew (k : Nat) : a'.body (a.len + k) = rs[k]? := by
    ext c
    rw [h.body_iff]
    constructor
    · rintro (⟨hc, _⟩ | ⟨k', hk, hc⟩)
      · have := Arena.lt_of_body hc
        omega
      · rwa [Nat.add_left_cancel hk]
    · exact fun hc => Or.inr ⟨k, rfl, hc⟩
  unfold Arena.bodies Arena.crefs
  rw [h.len, List.range_add, List.filterMap_append, List.filterMap_map, List.filter_filterMap]
  congr 1
  · exact List.filterMap_congr fun j hj => hold j (List.mem_range.1 hj)
  · simp only [Function.comp_def, hnew]
    exact Arena.filterMap_getElem?_range rs

include ha he in
/-- Resolvents count once. -/
theorem sum_weight_resolvents (g : List Lit → Nat) : (rs.map fun c => weight c * g c).sum = (rs.map g).sum := by
  refine congrArg List.sum (List.map_congr_left fun r hr => ?_)
  rw [weight_eq_one (resolvent_props ha he hr).2.1, Nat.one_mul]

include ha hx he h

/-- No sum of weights grows by which the resolvents are no more than the clauses of the variable. -/
theorem Eliminates.total_le {g : List Lit → Nat} (hg : (rs.map g).sum ≤
      ((a.clausesWith (.positive x)).map g).sum + ((a.clausesWith (.negative x)).map g).sum) :
    a'.total (fun c => weight c * g c) ≤ a.total fun c => weight c * g c := by
  have := sum_around_le hx g a.bodies
  unfold Arena.total
  rw [h.bodies_eq, List.map_append, List.sum_append, sum_weight_resolvents ha he]
  unfold Arena.clausesWith at hg
  omega

theorem Eliminates.mass_le : a'.mass ≤ a.mass := by
  have hcount := (elimination_eq_some he).2.2.1
  have hle := h.total_le ha hx he (g := fun _ => 1) (by simpa using hcount)
  simpa [Arena.mass] using hle

theorem Eliminates.bulk_le : a'.bulk ≤ a.bulk :=
  h.total_le ha hx he (by simpa using (elimination_eq_some he).2.2.2)

omit hx in
/-- What only tautologies weigh does not grow. -/
theorem Eliminates.total_sub_le (g : List Lit → Nat) :
    a'.total (fun c => (weight c - 1) * g c) ≤ a.total fun c => (weight c - 1) * g c := by
  have hrs : (rs.map fun c => (weight c - 1) * g c).sum = 0 := by
    rw [List.map_congr_left (g := fun _ => 0) fun r hr => by
      rw [weight_eq_one (resolvent_props ha he hr).2.1, Nat.sub_self, Nat.zero_mul]]
    simp
  unfold Arena.total
  rw [h.bodies_eq, List.map_append, List.sum_append, hrs]
  exact sum_filter_le _ _ _

omit hx in
theorem Eliminates.slack_le : a'.slack ≤ a.slack := h.total_sub_le ha he List.length

end Step

/-! ## Variables that lose clauses -/

/-- Whether a variable occurs in a live clause. -/
def Arena.occurs (a : Arena) (x : Nat) : Bool := a.bodies.any fun c => !freeOf x c

theorem Arena.occurs_iff : a.occurs x ↔ ∃ c ∈ a.bodies, ∃ l ∈ c, l.var = x := by
  simp [occurs, freeOf]

/-- The number of the first `n` variables that occur, together with the number of tautologies. -/
def Arena.spread (a : Arena) (n : Nat) : Nat :=
  ((List.range n).map fun x => (a.occurs x).toNat).sum + a.total fun c => weight c - 1

/-- The spread falls if it falls in one of its parts and no variable is new. -/
theorem Arena.spread_add_le {d : Nat} (hvars : ∀ y, a'.occurs y → a.occurs y)
    (htotal : a'.total (fun c => weight c - 1) ≤ a.total fun c => weight c - 1)
    (hd : d = 0 ∨ (∃ x < n, a'.occurs x = false ∧ a.occurs x ∧ d = 1) ∨
      a'.total (fun c => weight c - 1) + d ≤ a.total fun c => weight c - 1) :
    a'.spread n + d ≤ a.spread n := by
  have hle (y : Nat) : (a'.occurs y).toNat ≤ (a.occurs y).toNat := by
    have := hvars y
    cases h : a'.occurs y with
    | false => exact Nat.zero_le _
    | true => exact Nat.le_of_eq (by rw [this h])
  have hsum : ((List.range n).map fun x => (a'.occurs x).toNat).sum ≤
      ((List.range n).map fun x => (a.occurs x).toNat).sum := sum_map_le fun y _ => hle y
  unfold spread
  rcases hd with rfl | ⟨x, hx, hnot, hocc, rfl⟩ | hd
  · omega
  · have := sum_map_add_le (d := 1) (List.mem_range.2 hx) (fun y _ => hle y) (by simp [hnot, hocc])
    omega
  · omega

/-- Trimming makes no variable occur. -/
theorem Arena.Trims.spread_le (h : a.Trims a') : a'.spread n ≤ a.spread n := by
  refine Arena.spread_add_le (d := 0) (fun y hy => ?_) (h.total_le fun _ _ hsub => ?_) (Or.inl rfl)
  · obtain ⟨c', hc', l, hl, hly⟩ := Arena.occurs_iff.1 hy
    obtain ⟨i, hi⟩ := Arena.mem_bodies.1 hc'
    obtain ⟨c, hc, hsub⟩ := h.body hi
    exact Arena.occurs_iff.2 ⟨c, Arena.mem_bodies.2 ⟨i, hc⟩, l, hsub.subset hl, hly⟩
  · exact Nat.sub_le_sub_right (weight_le hsub) 1

section Spread

variable (ha : a.Wf) (hx : x < 2 ^ 31) (he : a.elimination limit x = some rs) (h : Eliminates a a' x rs)
include ha hx he h

omit hx in
theorem Eliminates.occurs (hy : a'.occurs y) : a.occurs y := by
  obtain ⟨c, hc, l, hl, hly⟩ := Arena.occurs_iff.1 hy
  rcases h.mem_bodies_iff.1 hc with ⟨hc, _⟩ | hc
  · exact Arena.occurs_iff.2 ⟨c, hc, l, hl, hly⟩
  · obtain ⟨d, hd, hld, _⟩ := exists_parent_of_mem ha he hc hl
    exact Arena.occurs_iff.2 ⟨d, hd, l, hld, hly⟩

/-- A variable that loses clauses no longer occurs, or a tautology has gone. -/
theorem Eliminates.spread_lt (hxn : x < n) (hgone : a.retired x ≠ []) : a'.spread n + 1 ≤ a.spread n := by
  have htotal : a'.total (fun c => weight c - 1) ≤ a.total fun c => weight c - 1 := by
    simpa using h.total_sub_le ha he fun _ => 1
  refine Arena.spread_add_le (fun y => h.occurs ha he) htotal (Or.inr ?_)
  obtain ⟨g, hg⟩ := List.exists_mem_of_ne_nil _ hgone
  have hocc : a.occurs x := by
    obtain ⟨hw, hwx, hb⟩ := Arena.mem_retired hx hg
    exact Arena.occurs_iff.2 ⟨_, hb, _, hw, hwx⟩
  cases hstill : a'.occurs x with
  | false => exact Or.inl ⟨x, hxn, hstill, hocc, rfl⟩
  | true =>
    obtain ⟨r, hr, l, hl, hlx⟩ := Arena.occurs_iff.1 hstill
    have hr : r ∈ rs := (h.mem_bodies_iff.1 hr).resolve_left fun ⟨_, hne⟩ => hne l hl hlx
    obtain ⟨p, hp, q, hq, hxp, hxq, hap, haq, hres⟩ := exists_parents ha he hr
    obtain ⟨c, d, hcd, hlc, hnc, _⟩ := both_of_mem_resolve hx hap haq hxp hxq hres hl hlx
    -- The parent with both literals was a tautology, and no resolvent is one.
    have hc : c ∈ a.bodies := by
      rcases hcd with ⟨rfl, _⟩ | ⟨rfl, _⟩
      · exact hp
      · exact hq
    have hfree : freeOf x c = false := by
      rw [Bool.eq_false_iff, ne_eq, freeOf_iff]
      exact fun hfree => hfree l hlc hlx
    have hweight : weight c - 1 = 1 := by rw [weight, if_pos ⟨l, hlc, hnc⟩]
    have hrs : (rs.map fun c => weight c - 1) = rs.map fun _ => 0 := List.map_congr_left fun r hr => by
      rw [weight_eq_one (resolvent_props ha he hr).2.1]
    have hsum := sum_filter_add_le (g := fun c => weight c - 1) hc hfree
    refine Or.inr ?_
    unfold Arena.total
    rw [h.bodies_eq, List.map_append, List.sum_append, hrs]
    simp only [hweight] at hsum
    simpa using hsum

omit hx in
theorem Eliminates.spread_le : a'.spread n ≤ a.spread n := by
  have htotal : a'.total (fun c => weight c - 1) ≤ a.total fun c => weight c - 1 := by
    simpa using h.total_sub_le ha he fun _ => 1
  exact Arena.spread_add_le (d := 0) (fun y => h.occurs ha he) htotal (Or.inl rfl)

end Spread

/-! ## Runs of eliminations -/

section Run

variable {gone : List (List Removal)} (h : EliminatesAll limit a xs gone a') (ha : a.Wf) (hx : ∀ x ∈ xs, x < 2 ^ 31)
include h ha hx

theorem EliminatesAll.weights_le : a'.mass ≤ a.mass ∧ a'.bulk ≤ a.bulk ∧ a'.slack ≤ a.slack := by
  induction h with
  | nil => exact ⟨Nat.le_refl _, Nat.le_refl _, Nat.le_refl _⟩
  | skip _ _ ih => exact ih ha fun x hx' => hx x (List.mem_cons_of_mem _ hx')
  | @step a a₁ a' x xs gone rs he helim _ ih =>
    have hx2 := hx x List.mem_cons_self
    obtain ⟨hmass, hbulk, hslack⟩ := ih helim.wf fun y hy => hx y (List.mem_cons_of_mem _ hy)
    exact ⟨Nat.le_trans hmass (helim.mass_le ha hx2 he), Nat.le_trans hbulk (helim.bulk_le ha hx2 he),
      Nat.le_trans hslack (helim.slack_le ha he)⟩

/-- The number of variables that lose clauses. -/
theorem EliminatesAll.countP_le (hn : ∀ x ∈ xs, x < n) :
    gone.countP (!·.isEmpty) + a'.spread n ≤ a.spread n := by
  induction h with
  | nil => simp
  | skip _ _ ih =>
    simpa using ih ha (fun x hx' => hx x (List.mem_cons_of_mem _ hx')) fun x hx' => hn x (List.mem_cons_of_mem _ hx')
  | @step a a₁ a' x xs gone rs he helim _ ih =>
    have hx2 := hx x List.mem_cons_self
    have hxn := hn x List.mem_cons_self
    have ih := ih helim.wf (fun y hy => hx y (List.mem_cons_of_mem _ hy)) fun y hy => hn y (List.mem_cons_of_mem _ hy)
    by_cases hret : a.retired x = []
    · have := helim.spread_le ha he (n := n)
      simp only [hret, List.countP_cons, List.isEmpty_nil]
      simp
      omega
    · have := helim.spread_lt ha hx2 he hxn hret
      simp only [List.countP_cons, List.isEmpty_eq_false_iff.2 hret]
      simp
      omega

end Run

/-! ## Room for all resolvents -/

/-- The clauses of variables that share none, counted by both literals, weigh no more than all clauses together. -/
theorem sum_clausesWith_le (hx : ∀ x ∈ xs, x < 2 ^ 31) (hn : xs.Nodup)
    (hapart : ∀ x ∈ xs, ∀ y ∈ xs, x ≠ y → ∀ c ∈ cs, freeOf x c = true ∨ freeOf y c = true) (g : List Lit → Nat) :
    (xs.map fun x => ((cs.filter fun c => c.contains (.positive x)).map g).sum +
      ((cs.filter fun c => c.contains (.negative x)).map g).sum).sum ≤ (cs.map fun c => weight c * g c).sum := by
  induction xs generalizing cs with
  | nil => exact Nat.zero_le _
  | cons x xs ih =>
    obtain ⟨hxs, hn⟩ := List.nodup_cons.1 hn
    have hrest : ∀ y ∈ xs, y < 2 ^ 31 := fun y hy => hx y (List.mem_cons_of_mem _ hy)
    -- What has a literal of another variable has none of this one.
    have hsame (y : Nat) (hy : y ∈ xs) (l : Lit) (hl : l.var = y) :
        (cs.filter (freeOf x)).filter (fun c => c.contains l) = cs.filter fun c => c.contains l := by
      rw [List.filter_filter]
      refine List.filter_congr fun c hc => ?_
      cases hcl : c.contains l with
      | false => rfl
      | true =>
        rw [Bool.true_and]
        refine (hapart x List.mem_cons_self y (List.mem_cons_of_mem _ hy) (fun e => hxs (e ▸ hy)) c hc).resolve_right ?_
        rw [freeOf_iff]
        exact fun h => h l (List.contains_iff_mem.1 hcl) hl
    have hapart' : ∀ y ∈ xs, ∀ z ∈ xs, y ≠ z → ∀ c ∈ cs.filter (freeOf x), freeOf y c = true ∨ freeOf z c = true :=
      fun y hy z hz hne c hc =>
        hapart y (List.mem_cons_of_mem _ hy) z (List.mem_cons_of_mem _ hz) hne c (List.mem_filter.1 hc).1
    have ih := ih hrest hn hapart'
    rw [List.map_congr_left fun y hy => by
      rw [hsame y hy _ (Lit.var_positive (hrest y hy)), hsame y hy _ (Lit.var_negative (hrest y hy))]] at ih
    have := sum_around_le (hx x List.mem_cons_self) g cs
    rw [List.map_cons, List.sum_cons]
    omega

theorem sum_eliminations (a : Arena) (limit : Nat) (xs : List Nat) (g : List Lit → Nat) :
    ((a.eliminations limit xs).map g).sum = (xs.map fun x => (((a.elimination limit x).getD []).map g).sum).sum := by
  unfold Arena.eliminations
  induction xs with
  | nil => rfl
  | cons x xs ih => rw [List.flatMap_cons, List.map_append, List.sum_append, List.map_cons, List.sum_cons, ih]

/-- The resolvents of variables that share no clauses are no more than all clauses, and have no more literals. -/
theorem eliminations_le (hx : ∀ x ∈ xs, x < 2 ^ 31) (hn : xs.Nodup)
    (hapart : ∀ x ∈ xs, ∀ y ∈ xs, x ≠ y → a.Apart x y) :
    (a.eliminations limit xs).length ≤ a.mass ∧ volume (a.eliminations limit xs) ≤ a.bulk := by
  have hfree : ∀ x ∈ xs, ∀ y ∈ xs, x ≠ y → ∀ c ∈ a.bodies, freeOf x c = true ∨ freeOf y c = true := by
    intro x hxs y hys hne c hc
    by_contra h
    simp only [not_or, freeOf_iff, not_forall, not_not] at h
    obtain ⟨⟨l, hl, hlx⟩, k, hk, hky⟩ := h
    exact hapart x hxs y hys hne c hc l hl k hk hlx hky
  have hsum (g : List Lit → Nat) (hg : ∀ x rs, a.elimination limit x = some rs → (rs.map g).sum ≤
      ((a.clausesWith (.positive x)).map g).sum + ((a.clausesWith (.negative x)).map g).sum) :
      ((a.eliminations limit xs).map g).sum ≤ a.total fun c => weight c * g c := by
    refine Nat.le_trans ?_ (sum_clausesWith_le hx hn hfree g)
    rw [sum_eliminations]
    refine Arena.sum_map_le fun x _ => ?_
    cases he : a.elimination limit x with
    | none => exact Nat.zero_le _
    | some rs => exact hg x rs he
  constructor
  · have := hsum (fun _ => 1) fun x rs he => by simpa using (elimination_eq_some he).2.2.1
    simpa [Arena.mass] using this
  · have := hsum List.length fun x rs he => by simpa using (elimination_eq_some he).2.2.2
    exact this

end CnfSimp
