import CnfSimp.Proofs.Cells
import CnfSimp.Proofs.Literals
import CnfSimp.Clause.Basic

/-!
# Membership in a clause

* `Clause.length_of_lits`, `Clause.lit_ok`: a clause whose literals can be read has one at every position below its
  size.
* `Clause.Answers c l low high n`: the search for `l` between two positions answers after `n` turns. In a clause that
  can be read it does, sorted or not, as every turn leaves at most half of the positions (`Clause.answers_ok`).
* `Clause.has_ok`: in a sorted clause, and in one of two literals, the answer is whether the literal is there.
-/

namespace CnfSimp.Clause

variable {c : Clause} {xs : List Lit} {l : Lit} {low high k n : Nat}

/-! ## Reading -/

theorem length_of_lits (h : c.lits = .ok xs) : xs.length = c.size := by
  obtain ⟨-, hin, rfl⟩ := block_eq_ok_iff.1 h
  exact length_slice hin

theorem length_lt_of_lits (h : c.lits = .ok xs) : xs.length < 2 ^ 32 := length_of_lits h ▸ c.header.size.toNat_lt

/-- The literal at a position of the clause is in a cell. -/
theorem lit_of_cell (hk : k < c.size) (h64 : c.start + k < 2 ^ 64) (hget : c.cells[c.start + k]? = some l) :
    c.lit k = .ok l := by
  rw [lit, if_pos hk, cell, sum64_ok h64, ok_bind, hget]
  rfl

/-- The literal at a position of a clause that can be read. -/
theorem lit_ok (h : c.lits = .ok xs) (hk : k < xs.length) : c.lit k = .ok xs[k] := by
  have hlen := length_of_lits h
  obtain ⟨h64, hin, rfl⟩ := block_eq_ok_iff.1 h
  have hget : c.cells[c.start + k]? = some (slice c.cells c.start c.size)[k] := by
    rw [← List.getElem?_eq_getElem hk, getElem?_slice, if_pos (hlen ▸ hk)]
  exact lit_of_cell (hlen ▸ hk) (by omega) hget

theorem isSorted_ok (h : c.lits = .ok xs) (hsorted : xs.Pairwise (· ≤ ·)) : c.isSorted = .ok true := by
  have hadjacent : allAdjacent (fun l k : Lit => decide (l ≤ k)) xs :=
    (allAdjacent_iff fun x y z => by simpa using Lit.le_trans).2 (hsorted.imp decide_eq_true)
  rw [isSorted, h, ok_bind, hadjacent]
  rfl

/-! ## Turns of the search -/

/-- A turn of the search between positions of a clause that can be read: none of its sums and differences leaves its
word. -/
theorem turn_ok (h : c.lits = .ok xs) (hle : low ≤ high) (hmid : (low + high) / 2 < xs.length) :
    c.turn l low high = .ok (
      if xs[(low + high) / 2] < l then .narrow ((low + high) / 2 + 1) high
      else if l < xs[(low + high) / 2] then
        if (low + high) / 2 = 0 then .answer false else .narrow low ((low + high) / 2 - 1)
      else .answer true) := by
  have hlen := length_lt_of_lits h
  rw [turn, if_pos hle, sum64_ok (by omega), ok_bind]
  dsimp only
  rw [lit_ok h hmid, ok_bind]
  split
  · rw [sum64_ok (by omega), ok_bind]
    rfl
  split
  · split
    · rfl
    · next hpos =>
      have hdiff : diff64 ((low + high) / 2) 1 = .ok ((low + high) / 2 - 1) := if_pos (by omega)
      rw [hdiff, ok_bind]
      rfl
  · rfl

theorem turn_of_lt (hlt : high < low) : c.turn l low high = .ok (.answer false) := if_neg (by omega)

/-- The search between two positions answers after a number of turns. -/
inductive Answers (c : Clause) (l : Lit) : Nat → Nat → Nat → Prop
  | now {low high : Nat} {found : Bool} (h : c.turn l low high = .ok (.answer found)) : Answers c l low high 1
  | later {low high low' high' n : Nat} (h : c.turn l low high = .ok (.narrow low' high'))
      (rest : Answers c l low' high' n) : Answers c l low high (n + 1)

/-- Every turn halves the number of positions, so there are no more turns than it has binary digits, and a last one. -/
theorem answers_of_lt (h : c.lits = .ok xs) (hhigh : high < xs.length) (hdigits : high + 1 - low < 2 ^ n) :
    ∃ m ≤ n + 1, c.Answers l low high m := by
  induction n generalizing low high with
  | zero => exact ⟨1, Nat.le_refl 1, .now (turn_of_lt (by omega))⟩
  | succ n ih =>
    by_cases hle : low ≤ high
    · obtain ⟨turn, hturn⟩ : ∃ turn, c.turn l low high = .ok turn := ⟨_, turn_ok h hle (by omega)⟩
      cases turn with
      | answer found => exact ⟨1, by omega, .now hturn⟩
      | narrow low' high' =>
        obtain ⟨-, hhigh', hhalf⟩ := turn_narrows hturn
        rw [Nat.pow_succ] at hdigits
        have hrest : ∃ m ≤ n + 1, c.Answers l low' high' m := ih (by omega) (by omega)
        obtain ⟨m, hm, hanswers⟩ := hrest
        exact ⟨m + 1, by omega, .later hturn hanswers⟩
    · exact ⟨1, by omega, .now (turn_of_lt (by omega))⟩

theorem answers_ok (h : c.lits = .ok xs) (l : Lit) (hpos : 0 < xs.length) :
    ∃ n ≤ xs.length.log2 + 2, c.Answers l 0 (xs.length - 1) n :=
  answers_of_lt h (by omega) (by rw [Nat.sub_add_cancel hpos]; exact Nat.lt_log2_self)

/-! ## The answer -/

/-- A literal that is in the list stands between two positions, both included. -/
structure Brackets (xs : List Lit) (l : Lit) (low high : Nat) : Prop where
  inside : high < xs.length
  before : ∀ k (hk : k < xs.length), k < low → xs[k] < l
  behind : ∀ k (hk : k < xs.length), high < k → l < xs[k]

theorem getElem_le_getElem (hsorted : xs.Pairwise (· ≤ ·)) {j k : Nat} (hjk : j ≤ k) (hk : k < xs.length) :
    xs[j] ≤ xs[k] := by
  rcases Nat.lt_or_eq_of_le hjk with hjk | rfl
  · exact List.pairwise_iff_getElem.1 hsorted j k (by omega) hk hjk
  · exact Nat.le_refl _

/-- A literal that differs from those at every position is not in the list. -/
theorem notMem_of_index_ne (h : ∀ k (hk : k < xs.length), xs[k].index ≠ l.index) : l ∉ xs := fun hl => by
  obtain ⟨k, hk, rfl⟩ := List.mem_iff_getElem.1 hl
  exact h k hk rfl

/-- A turn answers right, or its new bounds are as good as the old ones. -/
theorem Brackets.turn (hb : Brackets xs l low high) (h : c.lits = .ok xs) (hsorted : xs.Pairwise (· ≤ ·)) :
    c.turn l low high = .ok (.answer (decide (l ∈ xs))) ∨
      ∃ low' high', c.turn l low high = .ok (.narrow low' high') ∧ Brackets xs l low' high' := by
  have hinside := hb.inside
  by_cases hle : low ≤ high
  · have hmid : (low + high) / 2 < xs.length := by omega
    rw [turn_ok h hle hmid]
    generalize (low + high) / 2 = mid at hmid
    by_cases hlt : xs[mid] < l
    · refine Or.inr ⟨mid + 1, high, by rw [if_pos hlt], hinside, fun k hk hkm => ?_, hb.behind⟩
      exact Nat.lt_of_le_of_lt (getElem_le_getElem hsorted (by omega) hmid) hlt
    by_cases hgt : l < xs[mid]
    · have hright (k : Nat) (hk : k < xs.length) (hmk : mid ≤ k) : l < xs[k] :=
        Nat.lt_of_lt_of_le hgt (getElem_le_getElem hsorted hmk hk)
      by_cases hzero : mid = 0
      · -- Nothing stands to the left of the first literal, and all others are greater.
        have hl : l ∉ xs := notMem_of_index_ne fun k hk => Nat.ne_of_gt (hright k hk (by omega))
        exact Or.inl (by rw [if_neg hlt, if_pos hgt, if_pos hzero, decide_eq_false hl])
      · refine Or.inr ⟨low, mid - 1, by rw [if_neg hlt, if_pos hgt, if_neg hzero], by omega, hb.before, ?_⟩
        exact fun k hk hkm => hright k hk (by omega)
    · have heq : xs[mid] = l := Lit.index_inj.1 (Nat.le_antisymm (Nat.le_of_not_lt hgt) (Nat.le_of_not_lt hlt))
      have hl : l ∈ xs := heq ▸ List.getElem_mem hmid
      exact Or.inl (by rw [if_neg hlt, if_neg hgt, decide_eq_true hl])
  · have hl : l ∉ xs := notMem_of_index_ne fun k hk => by
      rcases Nat.lt_or_ge k low with hklow | hklow
      · exact Nat.ne_of_lt (hb.before k hk hklow)
      · exact Nat.ne_of_gt (hb.behind k hk (by omega))
    exact Or.inl (by rw [turn_of_lt (by omega), decide_eq_false hl])

/-- The search finds what stands between its bounds. -/
theorem search_ok (hb : Brackets xs l low high) (h : c.lits = .ok xs) (hsorted : xs.Pairwise (· ≤ ·)) :
    c.search l low high = .ok (decide (l ∈ xs)) := by
  fun_induction search c l low high with
  | case1 low high found hturn =>
    rcases hb.turn h hsorted with hanswer | ⟨low', high', hnarrow, -⟩
    · rw [hturn] at hanswer
      cases hanswer
      rfl
    · rw [hturn] at hnarrow
      cases hnarrow
  | case2 low high low' high' hturn ih =>
    rcases hb.turn h hsorted with hanswer | ⟨low'', high'', hnarrow, hb'⟩
    · rw [hturn] at hanswer
      cases hanswer
    · rw [hturn] at hnarrow
      cases hnarrow
      exact ih hb'
  | case3 low high f hturn =>
    rcases hb.turn h hsorted with hanswer | ⟨low', high', hnarrow, -⟩
    · rw [hturn] at hanswer
      cases hanswer
    · rw [hturn] at hnarrow
      cases hnarrow

/-- Two literals are compared one after the other, whatever their order. -/
theorem has_pair (h : c.lits = .ok xs) (h2 : xs.length = 2) (l : Lit) : c.has l = .ok (decide (l ∈ xs)) := by
  have hsize : c.size = 2 := (length_of_lits h).symm.trans h2
  obtain ⟨x, y, rfl⟩ := List.length_eq_two.1 h2
  rw [has, if_neg (by rw [hsize]; decide), if_pos hsize, lit_ok h (k := 0) (by simp), ok_bind]
  dsimp only [List.getElem_cons_zero]
  split
  · next hx => exact congrArg Except.ok (decide_eq_true (by simp [hx])).symm
  · next hx =>
    rw [lit_ok h (k := 1) (by simp), ok_bind]
    refine congrArg Except.ok (decide_eq_decide.2 ?_)
    simp [Ne.symm hx, eq_comm]

/-- In a sorted clause of any size, and in one of two literals, a literal is found if it is there. -/
theorem has_ok (h : c.lits = .ok xs) (hsorted : xs.length = 2 ∨ xs.Pairwise (· ≤ ·)) (l : Lit) :
    c.has l = .ok (decide (l ∈ xs)) := by
  have hsize := length_of_lits h
  by_cases h2 : xs.length = 2
  · exact has_pair h h2 l
  replace hsorted := hsorted.resolve_left h2
  rw [has]
  by_cases h0 : c.size = 0
  · rw [if_pos h0, List.length_eq_zero_iff.1 (hsize.trans h0)]
    rfl
  have hlast : diff64 c.size 1 = .ok (xs.length - 1) := by rw [diff64, if_pos (by omega), hsize]
  rw [if_neg h0, if_neg (hsize ▸ h2), isSorted_ok h hsorted, ok_bind, if_pos rfl, hlast, ok_bind,
    lit_ok h (by omega), ok_bind]
  split
  · next hfirst =>
    have hl : l ∉ xs := notMem_of_index_ne fun k hk =>
      Nat.ne_of_gt (Nat.lt_of_lt_of_le hfirst (getElem_le_getElem hsorted (Nat.zero_le k) hk))
    rw [decide_eq_false hl]
    rfl
  rw [lit_ok h (by omega), ok_bind]
  split
  · next hlast =>
    have hl : l ∉ xs := notMem_of_index_ne fun k hk =>
      Nat.ne_of_lt (Nat.lt_of_le_of_lt (getElem_le_getElem hsorted (by omega) (by omega)) hlast)
    rw [decide_eq_false hl]
    rfl
  · exact search_ok ⟨by omega, fun k _ hk => absurd hk (Nat.not_lt_zero k), fun k hk hk' => by omega⟩ h hsorted

/-- **Membership.** In a clause that can be read and whose literals do not descend, or that has two literals in any
order, the answer is whether the literal is there: nothing outside the clause is read, and no position goes below zero
or beyond its word. The search ends after at most one turn more than the size of the clause has binary digits, also if
the clause is not sorted. -/
theorem has_exact (h : c.lits = .ok xs) :
    (xs.length = 2 ∨ xs.Pairwise (· ≤ ·) → ∀ l, c.has l = .ok (decide (l ∈ xs))) ∧
      (0 < xs.length → ∀ l, ∃ n ≤ xs.length.log2 + 2, c.Answers l 0 (xs.length - 1) n) :=
  ⟨has_ok h, fun hpos l => answers_ok h l hpos⟩

/-- A clause of five literals, one of them twice, between other cells; one between its literals and one below all of
them, which the cell before the clause holds. -/
theorem has_exact_five_literals :
    let c : Clause := ⟨⟨1, 5, 0, 0, false⟩, #[⟨1⟩, ⟨2⟩, ⟨4⟩, ⟨4⟩, ⟨7⟩, ⟨9⟩, ⟨10⟩]⟩
    c.has ⟨4⟩ = .ok true ∧ c.has ⟨5⟩ = .ok false ∧ c.has ⟨1⟩ = .ok false ∧ c.has ⟨9⟩ = .ok true ∧
      ∃ n ≤ 4, c.Answers ⟨1⟩ 0 4 n := by
  intro c
  have hlits : c.lits = .ok [⟨2⟩, ⟨4⟩, ⟨4⟩, ⟨7⟩, ⟨9⟩] := by decide
  obtain ⟨hhas, hanswers⟩ := has_exact hlits
  have hhas := hhas (Or.inr (by decide))
  exact ⟨hhas ⟨4⟩, hhas ⟨5⟩, hhas ⟨1⟩, hhas ⟨9⟩, hanswers (by decide) ⟨1⟩⟩

end CnfSimp.Clause
