import CnfSimp.Proofs.Arena.Compact
import CnfSimp.Proofs.Arena.Dimacs
import CnfSimp.Proofs.Occurrences.Build
import CnfSimp.Proofs.Pass.Models
import CnfSimp.Score

/-!
# Scores

* `Score.rank_total`, `Score.rank_trans`, `Score.var_eq_of_rank`: scores are ranked linearly, whatever the values are.
* `Score.tabulate`: the scores of all variables by the counts of their literals, in processing order.
* `Score.ofHistogram_ends`, `Score.ofOccurrences_ok`: both sources count the live clauses with a literal, one by walking
  them and the other by the lengths of its lists.
* `Score.sources_agree`: so they give the same scores, one for each variable, with the counts that an election reads.
-/

namespace CnfSimp

variable {E : Fault → Prop} {a : Arena} {t t₀ : Occurrences} {n : Nat} {count : Lit → Nat}

namespace Arena

/-- There are fewer clauses with a literal than a 32-bit word can count. -/
theorem Listable.length_clausesWith_lt (ha : a.Listable) (l : Lit) : (a.clausesWith l).length < 2 ^ 32 :=
  Nat.lt_of_le_of_lt (List.length_filter_le _ _) ha.length_bodies_lt

/-- A literal occurs once in each live clause that it occurs in. -/
theorem Listable.count_bodies (ha : a.Listable) (l : Lit) : a.bodies.flatten.count l = (a.clausesWith l).length := by
  have hnodup : ∀ c ∈ a.bodies, c.Nodup := fun c hc => by
    obtain ⟨i, hi⟩ := mem_bodies.1 hc
    exact ha.nodup i c hi
  unfold clausesWith
  generalize a.bodies = bodies at hnodup
  induction bodies with
  | nil => rfl
  | cons c bodies ih =>
    rw [List.flatten_cons, List.count_append, ih fun d hd => hnodup d (List.mem_cons_of_mem _ hd),
      (hnodup c List.mem_cons_self).count, List.filter_cons]
    by_cases hl : l ∈ c
    · simp [hl, Nat.add_comm]
    · simp [hl]

/-- Literals of the first variables have their lists among the first ones. -/
theorem Below.codesBelow {m : Nat} (ho : a.Below n) (hnm : n ≤ m) : a.CodesBelow (litSlots m) := fun i c hc l hl =>
  Lit.index_lt_litSlots (Nat.lt_of_lt_of_le (ho c (mem_bodies.2 ⟨i, hc⟩) l hl) hnm)

end Arena

namespace Occurrences.Exact

variable (ht : t.Exact a) {l : Lit}
include ht

/-- There is a list for every literal of a variable of the table. -/
theorem index_lt (hl : l.var < t.numVars) : l.index < t.size := by
  rw [ht.size]
  exact Lit.index_lt_litSlots hl

/-- A list is as long as there are clauses with the literal. -/
theorem length_listAt (l : Lit) : (t.listAt l.index).length = (a.clausesWith l).length := by
  rw [ht.listAt_index, ← Arena.map_text_slotsWith, List.length_map]

theorem len_ok (hl : l.var < t.numVars) : t.len l = .ok (a.clausesWith l).length := by
  rw [ht.wf.len_ok (ht.index_lt hl), ht.length_listAt]

end Occurrences.Exact

namespace Score

/-! ## Ranks -/

theorem rank_iff {s s' : Score} : s.rank s' ↔
    s'.value.toBits.toNat < s.value.toBits.toNat ∨ s'.value.toBits.toNat = s.value.toBits.toNat ∧ s.var ≤ s'.var := by
  simp [rank, UInt64.lt_iff_toNat_lt, UInt64.toNat_inj]

theorem rank_total (s s' : Score) : s.rank s' || s'.rank s := by
  rw [Bool.or_eq_true, rank_iff, rank_iff]
  omega

theorem rank_trans (s s' s'' : Score) : s.rank s' → s'.rank s'' → s.rank s'' := by
  rw [rank_iff, rank_iff, rank_iff]
  omega

/-- Only scores of one variable rank the same. -/
theorem var_eq_of_rank {s s' : Score} (h : s.rank s') (h' : s'.rank s) : s.var = s'.var := by
  rw [rank_iff] at h h'
  omega

/-! ## Counts -/

/-- The scores of the first variables in processing order, for the counts of their literals. -/
def tabulate (n : Nat) (count : Lit → Nat) : List Score :=
  sort ((List.range n).map fun v => ⟨v, count (.positive v), count (.negative v)⟩)

/-- Every variable has one score. -/
theorem map_var_tabulate (n : Nat) (count : Lit → Nat) : ((tabulate n count).map var).Perm (List.range n) := by
  have h := (sortBy_perm rank ((List.range n).map fun v => ⟨v, count (.positive v), count (.negative v)⟩)).map var
  rwa [List.map_map, show var ∘ _ = id from rfl, List.map_id] at h

theorem mem_tabulate {s : Score} (h : s ∈ tabulate n count) :
    s.var < n ∧ s.pos = count (.positive s.var) ∧ s.neg = count (.negative s.var) := by
  obtain ⟨v, hv, rfl⟩ := List.mem_map.1 (mem_sortBy.1 h)
  exact ⟨List.mem_range.1 hv, rfl, rfl⟩

/-- The order is strict. -/
theorem pairwise_tabulate (n : Nat) (count : Lit → Nat) :
    (tabulate n count).Pairwise fun s s' => s.rank s' ∧ ¬s'.rank s := by
  have hne : (tabulate n count).Pairwise fun s s' => s.var ≠ s'.var :=
    List.pairwise_map.1 ((map_var_tabulate n count).nodup_iff.2 List.nodup_range)
  have hsorted : (tabulate n count).Pairwise (rank · ·) := pairwise_sortBy rank_total rank_trans _
  exact (hsorted.and hne).imp fun ⟨h, hvar⟩ => ⟨h, fun h' => hvar (var_eq_of_rank h h')⟩

theorem var_lt_of_mem_range (hn : n ≤ 2 ^ 31) {v : Nat} (hv : v ∈ List.range n) :
    (Lit.positive v).var < n ∧ (Lit.negative v).var < n := by
  have hlt := List.mem_range.1 hv
  rw [Lit.var_positive (by omega), Lit.var_negative (by omega)]
  exact ⟨hlt, hlt⟩

/-- The histogram counts the live clauses with a literal. It faults only if there is no count for some literal. -/
theorem ofHistogram_ends (ha : a.Listable) (hn : n ≤ 2 ^ 31) (hE : E .outOfBounds ∨ a.CodesBelow (litSlots n)) :
    Ends E (ofHistogram a n) fun scores => scores = tabulate n fun l => (a.clausesWith l).length := by
  unfold ofHistogram
  refine (Occurrences.histogram_ends ha n hE).bind ?_
  rintro hist ⟨_, _, hget, _⟩
  have hcount (l : Lit) (hl : l.var < n) : hist[l.index]? = some (.ofNat (a.clausesWith l).length) := by
    rw [hget l.index (Lit.index_lt_litSlots hl), Arena.listed_crefs, ← List.length_map, Arena.map_text_slotsWith]
  have hword (l : Lit) : (UInt32.ofNat (a.clausesWith l).length).toNat = (a.clausesWith l).length :=
    Nat.mod_eq_of_lt (ha.length_clausesWith_lt l)
  refine Ends.bind (Ends.of_eq (mapM_ok fun v hv => ?_) rfl) fun _ h => congrArg sort h.symm
  obtain ⟨hpos, hneg⟩ := var_lt_of_mem_range hn hv
  simp only [hcount _ hpos, hcount _ hneg, hword]
  rfl

/-- The lengths of the lists of an exact table count the same. -/
theorem ofOccurrences_ok (ht : t.Exact a) (hn : n ≤ 2 ^ 31) (hnum : n ≤ t.numVars) :
    ofOccurrences t n = .ok (tabulate n fun l => (a.clausesWith l).length) := by
  have hlen (l : Lit) (hl : l.var < n) : t.len l = .ok (a.clausesWith l).length :=
    ht.len_ok (Nat.lt_of_lt_of_le hl hnum)
  unfold ofOccurrences
  rw [mapM_ok (g := fun v => ⟨v, (a.clausesWith (.positive v)).length, (a.clausesWith (.negative v)).length⟩)]
  · rfl
  intro v hv
  obtain ⟨hpos, hneg⟩ := var_lt_of_mem_range hn hv
  rw [hlen _ hpos, hlen _ hneg]
  rfl

/-- **The two sources agree.** The table that is built for an arena and the histogram of the arena give the same scores:
one for each variable, with the numbers of its occurrences in live clauses, which are the lengths that an election
reads, in the strict order of their ranks. -/
theorem sources_agree (ha : a.Listable) (ho : a.Below n) (hn : n ≤ 2 ^ 31) (hsize : t₀.size = litSlots t₀.numVars)
    (hnum : n ≤ t₀.numVars) :
    ∃ t scores, t₀.build a = .ok t ∧ ofHistogram a n = .ok scores ∧ ofOccurrences t n = .ok scores ∧
      (scores.map var).Perm (List.range n) ∧
      (∀ s ∈ scores, s.pos = a.bodies.flatten.count (.positive s.var) ∧
        s.neg = a.bodies.flatten.count (.negative s.var) ∧
        t.len (.positive s.var) = .ok s.pos ∧ t.len (.negative s.var) = .ok s.neg) ∧
      scores.Pairwise fun s s' => s.rank s' ∧ ¬s'.rank s := by
  obtain ⟨t, hbuild, hexact, hvars⟩ := (Occurrences.build_ends_of_listable (E := fun _ => False) ha
    (Or.inr ⟨hsize, ho.codesBelow hnum⟩)).exists_ok fun _ => id
  obtain ⟨scores, hhist, rfl⟩ := (ofHistogram_ends (E := fun _ => False) ha hn
    (Or.inr (ho.codesBelow (Nat.le_refl n)))).exists_ok fun _ => id
  have hnum' : n ≤ t.numVars := hvars.symm ▸ hnum
  refine ⟨t, _, hbuild, hhist, ofOccurrences_ok hexact hn hnum', map_var_tabulate n _, fun s hs => ?_,
    pairwise_tabulate n _⟩
  obtain ⟨hlt, hpos, hneg⟩ := mem_tabulate hs
  obtain ⟨hplt, hnlt⟩ := var_lt_of_mem_range hn (List.mem_range.2 hlt)
  rw [ha.count_bodies, ha.count_bodies, hpos, hneg]
  exact ⟨rfl, rfl, hexact.len_ok (Nat.lt_of_lt_of_le hplt hnum'), hexact.len_ok (Nat.lt_of_lt_of_le hnlt hnum')⟩

/-- The second clause is dead, so the third variable is tried first. -/
theorem sources_agree_four_clauses : ∃ a a' t, Arena.ofDimacs [[1, 2], [-1, 2], [-2, 3], [1, -2]] = .ok a ∧
    a.melt 1 = .ok a' ∧ (Occurrences.empty 3).build a' = .ok t ∧
    ofHistogram a' 3 = .ok [⟨2, 1, 0⟩, ⟨0, 2, 0⟩, ⟨1, 1, 2⟩] ∧
    ofOccurrences t 3 = .ok [⟨2, 1, 0⟩, ⟨0, 2, 0⟩, ⟨1, 1, 2⟩] ∧
    t.len (.negative 1) = .ok 2 ∧ a'.bodies.flatten.count (.negative 1) = 2 := by
  have hset : (do
    let a ← Arena.ofDimacs [[1, 2], [-1, 2], [-2, 3], [1, -2]]
    ofHistogram (← a.melt 1) 3) = .ok [⟨2, 1, 0⟩, ⟨0, 2, 0⟩, ⟨1, 1, 2⟩] := by decide +kernel
  simp only [bind_eq_ok_iff] at hset
  obtain ⟨a, hset, a', hmelt, hscores⟩ := hset
  obtain ⟨ha, _, hwithin, hbodies⟩ := (Arena.ofDimacs_ends (E := fun _ => True) (n := 3) (by decide) (by decide)
    (Or.inl fun _ => trivial)).of_ok hset
  have hlen : 1 < a.len := by
    have := List.length_filterMap_le a.body a.crefs
    rw [show a.crefs.filterMap a.body = a.bodies from rfl, hbodies, Arena.crefs, List.length_range] at this
    exact Nat.lt_of_lt_of_le (by decide) this
  obtain rfl : a.melted 1 = a' := Except.ok.inj ((Arena.melt_ok hlen).symm.trans hmelt)
  obtain ⟨t, scores, hbuild, hhist, hoccurs, _, hcounts, _⟩ := sources_agree (ha.melted hlen).listable
    ((Arena.trims_melted hlen).within hwithin).below (by decide)
    (show (Occurrences.empty 3).size = litSlots (Occurrences.empty 3).numVars from rfl) (Nat.le_refl 3)
  obtain rfl := Except.ok.inj (hscores.symm.trans hhist)
  obtain ⟨_, hneg, _, hlist⟩ := hcounts ⟨1, 1, 2⟩ (by decide)
  exact ⟨a, _, t, hset, hmelt, hbuild, hscores, hoccurs, hlist, hneg.symm⟩

end Score

end CnfSimp
