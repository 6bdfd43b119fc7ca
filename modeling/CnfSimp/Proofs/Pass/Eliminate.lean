import CnfSimp.Proofs.Occurrences.Build
import CnfSimp.Proofs.Pass.Models
import CnfSimp.Proofs.Resolution
import CnfSimp.Proofs.WorkingSet

/-!
# Variable elimination

* `Arena.elimination`: the resolvents that elimination puts in the place of the clauses of a variable, if it does; they
  depend on the clauses of the variable only. `resolvents_ok`: this is what the pass computes.
* `Eliminates`: one variable was eliminated, said of the clauses of the arenas. That preserves models
  (`Eliminates.preserves`) and leaves the clauses of other elected variables alone (`Eliminates.clausesWith_eq`).
* `eliminateVar_ends`: the pass does that to a variable, and faults only where it is out of room.
-/

namespace CnfSimp

variable {E : Fault → Prop} {a a' a₁ : Arena} {t : Occurrences} {w w' : WorkingSet} {l k : Lit} {c r : List Lit}
  {rs pos neg : List (List Lit)} {x y limit i j n : Nat} {v : Assignment}

/-! ## Resolvents -/

/-- All resolvents of two lists of clauses, in order. -/
def resolventsOn (pos neg : List (List Lit)) (pivot : Lit) : List (List Lit) :=
  (pos.flatMap fun p => neg.map fun n => (p, n)).filterMap fun q => resolve q.1 q.2 pivot

theorem mem_resolventsOn : r ∈ resolventsOn pos neg l ↔ ∃ p ∈ pos, ∃ n ∈ neg, resolve p n l = some r := by
  unfold resolventsOn
  rw [List.mem_filterMap]
  constructor
  · rintro ⟨⟨p, n⟩, hq, hr⟩
    obtain ⟨p', hp, hq⟩ := List.mem_flatMap.1 hq
    obtain ⟨n', hn, he⟩ := List.mem_map.1 hq
    cases he
    exact ⟨p, hp, n, hn, hr⟩
  · rintro ⟨p, hp, n, hn, hr⟩
    exact ⟨(p, n), List.mem_flatMap.2 ⟨p, hp, List.mem_map_of_mem hn⟩, hr⟩

/-- The resolvents that elimination puts in the place of the clauses of a variable; none if it leaves the variable. -/
def Arena.elimination (a : Arena) (limit x : Nat) : Option (List (List Lit)) :=
  let pos := a.clausesWith (.positive x)
  let neg := a.clausesWith (.negative x)
  let rs := resolventsOn pos neg (.positive x)
  if [] ∈ rs ∨ rs ≠ [] ∧ (pos.length + neg.length < rs.length ∨
    min ((pos ++ neg).map List.length).sum limit < (rs.map List.length).sum) then none else some rs

/-- Resolving pairs of clauses in use: all resolvents, unless one of them is empty or they exceed a limit. -/
theorem resolvePairs_ok (ha : a.Wf) {maxCount maxSize count size : Nat} {pairs : List (Nat × Nat)}
    (hpairs : ∀ q ∈ pairs, q.1 < a.len ∧ q.2 < a.len) (hrs : pairs.filterMap (fun q =>
      resolve (a.text q.1) (a.text q.2) l) = rs) :
    resolvePairs a l maxCount maxSize count size pairs = .ok (if [] ∈ rs ∨ rs ≠ [] ∧
      (maxCount < count + rs.length ∨ maxSize < size + (rs.map List.length).sum) then none else some rs) := by
  induction pairs generalizing count size rs with
  | nil =>
    subst hrs
    rfl
  | cons q pairs ih =>
    obtain ⟨p, n⟩ := q
    obtain ⟨hp, hn⟩ := hpairs (p, n) List.mem_cons_self
    have hpairs := fun q hq => hpairs q (List.mem_cons_of_mem _ hq)
    rw [resolvePairs, ha.lits_ok hp, ha.lits_ok hn, ok_bind, ok_bind]
    rw [List.filterMap_cons] at hrs
    cases hres : resolve (a.text p) (a.text n) l with
    | none =>
      simp only [hres] at hrs
      exact ih hpairs hrs
    | some lits =>
      simp only [hres] at hrs
      subst hrs
      cases lits with
      | nil => simp [pure, Except.pure]
      | cons k lits =>
        simp only
        split
        · next hwithin =>
          rw [if_pos]
          · rfl
          · refine Or.inr ⟨by simp, hwithin.imp (fun h => ?_) fun h => ?_⟩
            · exact Nat.lt_of_lt_of_le h (by simp)
            · exact Nat.lt_of_lt_of_le h (by simp)
        · next hfits =>
          rw [ih hpairs rfl, ok_bind]
          generalize pairs.filterMap (fun q => resolve (a.text q.1) (a.text q.2) l) = rest
          have hc : count + 1 + rest.length = count + ((k :: lits) :: rest).length := by
            rw [List.length_cons]
            omega
          have hs : size + (k :: lits).length + (rest.map List.length).sum =
              size + (((k :: lits) :: rest).map List.length).sum := by
            rw [List.map_cons, List.sum_cons]
            omega
          refine congrArg Except.ok ?_
          rw [hc, hs]
          by_cases hrest : rest = []
          · subst hrest
            rw [if_neg (by simp), if_neg]
            · rfl
            · rintro (h | ⟨_, h⟩)
              · simp at h
              · exact hfits (h.imp (fun h => by simpa using h) fun h => by simpa using h)
          · simp only [List.mem_cons, ne_eq, hrest, not_false_eq_true, true_and, reduceCtorEq, false_or]
            split <;> rfl

/-- The live clauses listed for a literal. -/
theorem Occurrences.Sound.liveOccurs_ok (hs : t.Sound a) (hc : t.Complete a l) (ha : a.Wf) (hl : l.index < t.size) :
    t.liveOccurs a l = .ok (a.slotsWith l) := by
  rw [Occurrences.liveOccurs, hs.wf.occurs_ok hl, ok_bind, selectM_ok (q := a.alive), hs.filter_alive hc]
  exact fun i hi => ha.isLive_ok (hs.lt _ i hi)

theorem lt_of_mem_slotsWith (h : i ∈ a.slotsWith l) : i < a.len := by
  obtain ⟨c, hc, _⟩ := Arena.mem_slotsWith.1 h
  exact Arena.lt_of_body hc

theorem totalSize_ok (ha : a.Wf) {is : List Nat} (h : ∀ i ∈ is, i < a.len) :
    a.totalSize is = .ok ((is.map a.text).map List.length).sum := by
  unfold Arena.totalSize
  rw [mapM_ok (g := fun i => (a.text i).length) fun i hi => by
    rw [Arena.clause_ok (h i hi), ok_bind, ha.size_clauseAt (h i hi)]
    rfl]
  simp [Function.comp_def, pure, Except.pure, totalOf_eq_sum]

/-- The pass computes the resolvents of the clauses of a variable. -/
theorem resolvents_ok (ha : a.Wf) (hs : t.Sound a) (hx : ∀ l : Lit, l = .positive x ∨ l = .negative x →
    t.Complete a l ∧ l.index < t.size) : resolvents a t limit x = .ok (a.elimination limit x) := by
  obtain ⟨hcp, hlp⟩ := hx (.positive x) (Or.inl rfl)
  obtain ⟨hcn, hln⟩ := hx (.negative x) (Or.inr rfl)
  have hslots : ∀ i ∈ a.slotsWith (.positive x) ++ a.slotsWith (.negative x), i < a.len := fun i hi =>
    (List.mem_append.1 hi).elim lt_of_mem_slotsWith lt_of_mem_slotsWith
  have hlen (l : Lit) : (a.slotsWith l).length = (a.clausesWith l).length := by
    rw [← a.map_text_slotsWith, List.length_map]
  have hpairs : ((a.slotsWith (.positive x)).flatMap fun p => (a.slotsWith (.negative x)).map fun n =>
      (p, n)).filterMap (fun q => resolve (a.text q.1) (a.text q.2) (.positive x)) =
      resolventsOn (a.clausesWith (.positive x)) (a.clausesWith (.negative x)) (.positive x) := by
    unfold resolventsOn
    rw [← a.map_text_slotsWith, ← a.map_text_slotsWith]
    simp only [List.filterMap_flatMap, List.flatMap_map, List.filterMap_map, Function.comp_def]
  unfold resolvents
  rw [hs.liveOccurs_ok hcp ha hlp, hs.liveOccurs_ok hcn ha hln, ok_bind, ok_bind]
  split
  · next hempty =>
    have hrs : resolventsOn (a.clausesWith (.positive x)) (a.clausesWith (.negative x)) (.positive x) = [] := by
      rw [← hpairs]
      rcases Bool.or_eq_true_iff.1 hempty with h | h
      · rw [List.isEmpty_iff.1 h]
        rfl
      · rw [List.isEmpty_iff.1 h]
        simp
    unfold Arena.elimination
    simp only [hrs]
    simp [pure, Except.pure]
  · rw [totalSize_ok ha hslots, ok_bind, resolvePairs_ok ha ?_ hpairs]
    · unfold Arena.elimination
      simp only [hlen, Nat.zero_add, List.map_append, a.map_text_slotsWith]
    · rintro ⟨p, n⟩ hq
      obtain ⟨p', hp, hq⟩ := List.mem_flatMap.1 hq
      obtain ⟨n', hn, he⟩ := List.mem_map.1 hq
      cases he
      exact ⟨lt_of_mem_slotsWith hp, lt_of_mem_slotsWith hn⟩

/-- What is known of the resolvents in the place of the clauses of a variable. -/
theorem elimination_eq_some (h : a.elimination limit x = some rs) :
    rs = resolventsOn (a.clausesWith (.positive x)) (a.clausesWith (.negative x)) (.positive x) ∧ [] ∉ rs ∧
      rs.length ≤ (a.clausesWith (.positive x)).length + (a.clausesWith (.negative x)).length ∧
      (rs.map List.length).sum ≤
        ((a.clausesWith (.positive x) ++ a.clausesWith (.negative x)).map List.length).sum := by
  unfold Arena.elimination at h
  simp only at h
  split at h
  · cases h
  next hfits =>
  cases h
  obtain ⟨hempty, hlimits⟩ := not_or.1 hfits
  refine ⟨rfl, hempty, ?_⟩
  by_cases hrs : resolventsOn (a.clausesWith (.positive x)) (a.clausesWith (.negative x)) (.positive x) = []
  · simp [hrs]
  · have hlimits := not_or.1 fun h => hlimits ⟨hrs, h⟩
    exact ⟨Nat.le_of_not_lt hlimits.1, Nat.le_trans (Nat.le_of_not_lt hlimits.2) (Nat.min_le_left _ _)⟩

/-- Clauses without complementary literals are short. -/
theorem length_lt_of_not_tautology (hc : c.Pairwise (· < ·)) (ht : ¬Tautology c) : c.length < 2 ^ 32 := by
  have hvars : (c.map Lit.var).Nodup :=
    List.pairwise_map.2 ((allAdjacent_var_iff hc).1 ((allAdjacent_var_iff_not_tautology hc).2 ht))
  have hsub : c.map Lit.var ⊆ List.range (2 ^ 31) := fun z hz => by
    obtain ⟨l, _, rfl⟩ := List.mem_map.1 hz
    exact List.mem_range.2 l.var_lt
  have := (List.subperm_of_subset hvars hsub).length_le
  rw [List.length_map, List.length_range] at this
  omega

/-- Where a resolvent comes from. -/
theorem exists_parents (ha : a.Wf) (h : a.elimination limit x = some rs) (hr : r ∈ rs) :
    ∃ p ∈ a.bodies, ∃ n ∈ a.bodies, Lit.positive x ∈ p ∧ Lit.negative x ∈ n ∧ p.Pairwise (· < ·) ∧
      n.Pairwise (· < ·) ∧ resolve p n (.positive x) = some r := by
  rw [(elimination_eq_some h).1, mem_resolventsOn] at hr
  obtain ⟨p, hp, n, hn, hr⟩ := hr
  obtain ⟨hp, hxp⟩ := Arena.mem_clausesWith.1 hp
  obtain ⟨hn, hxn⟩ := Arena.mem_clausesWith.1 hn
  obtain ⟨i, hi⟩ := Arena.mem_bodies.1 hp
  obtain ⟨j, hj⟩ := Arena.mem_bodies.1 hn
  exact ⟨p, hp, n, hn, hxp, hxn, ha.ascends i p hi, ha.ascends j n hj, hr⟩

/-- A resolvent is an ascending clause that is no tautology. -/
theorem resolvent_props (ha : a.Wf) (h : a.elimination limit x = some rs) (hr : r ∈ rs) :
    r.Pairwise (· < ·) ∧ ¬Tautology r ∧ r.length < 2 ^ 32 := by
  obtain ⟨p, _, n, _, _, _, hp, hn, hres⟩ := exists_parents ha h hr
  have hasc := pairwise_of_resolve hp hn hres
  have htaut := not_tautology_of_resolve hp hn hres
  exact ⟨hasc, htaut, length_lt_of_not_tautology hasc htaut⟩

/-- The literals of a resolvent come from clauses of the variable. -/
theorem exists_parent_of_mem (ha : a.Wf) (h : a.elimination limit x = some rs) (hr : r ∈ rs) (hk : k ∈ r) :
    ∃ c ∈ a.bodies, k ∈ c ∧ (Lit.positive x ∈ c ∨ Lit.negative x ∈ c) := by
  obtain ⟨p, hp, n, hn, hxp, hxn, hap, han, hres⟩ := exists_parents ha h hr
  rcases (mem_of_resolve hap han hres).1 hk with ⟨hk, _⟩ | ⟨hk, _⟩
  · exact ⟨p, hp, hk, Or.inl hxp⟩
  · exact ⟨n, hn, hk, Or.inr hxn⟩

/-- A resolvent holds in every model. -/
theorem Arena.Models.holds_resolvent (hv : a.Models v) (ha : a.Wf) (h : a.elimination limit x = some rs)
    (hr : r ∈ rs) : Holds v r := by
  obtain ⟨p, hp, n, hn, _, _, hap, han, hres⟩ := exists_parents ha h hr
  exact holds_of_resolve hap han hres (hv p hp) (hv n hn)

/-! ## Eliminating one variable, abstractly -/

/-- The clauses of a variable that elimination moves to the reconstruction stack, with their witnesses. -/
def Arena.retired (a : Arena) (x : Nat) : List Removal :=
  (a.clausesWith (.positive x)).map (Removal.mk (.positive x)) ++
    ((a.clausesWith (.negative x)).filter fun c => !c.contains (.positive x)).map (Removal.mk (.negative x))

/-- They are clauses of the variable, and their witnesses are literals of it. -/
theorem Arena.mem_retired {g : Removal} (hx : x < 2 ^ 31) (hg : g ∈ a.retired x) :
    g.witness ∈ g.lits ∧ g.witness.var = x ∧ g.lits ∈ a.bodies := by
  unfold Arena.retired at hg
  rcases List.mem_append.1 hg with hg | hg
  · obtain ⟨c, hc, rfl⟩ := List.mem_map.1 hg
    obtain ⟨hc, hxc⟩ := Arena.mem_clausesWith.1 hc
    exact ⟨hxc, Lit.var_positive hx, hc⟩
  · obtain ⟨c, hc, rfl⟩ := List.mem_map.1 hg
    obtain ⟨hc, hxc⟩ := Arena.mem_clausesWith.1 (List.mem_filter.1 hc).1
    exact ⟨hxc, Lit.var_negative hx, hc⟩

/-- Every clause of the variable is among them. -/
theorem Arena.exists_retired (hx : x < 2 ^ 31) (hc : c ∈ a.bodies) (hl : l ∈ c) (hlx : l.var = x) :
    ∃ g ∈ a.retired x, g.lits = c := by
  unfold Arena.retired
  by_cases hpos : Lit.positive x ∈ c
  · refine ⟨⟨.positive x, c⟩, List.mem_append_left _ (List.mem_map_of_mem ?_), rfl⟩
    exact Arena.mem_clausesWith.2 ⟨hc, hpos⟩
  · refine ⟨⟨.negative x, c⟩, List.mem_append_right _ (List.mem_map_of_mem ?_), rfl⟩
    refine List.mem_filter.2 ⟨Arena.mem_clausesWith.2 ⟨hc, ?_⟩, by simpa using hpos⟩
    rcases (Lit.var_eq_iff_positive_or_negative hx).1 hlx with rfl | rfl
    · exact absurd hl hpos
    · exact hl

/-- The clauses of a variable are gone, and clauses `rs` have been added behind the others. -/
structure Eliminates (a a' : Arena) (x : Nat) (rs : List (List Lit)) : Prop where
  wf : a'.Wf
  len : a'.len = a.len + rs.length
  numLits : a'.numLits = a.numLits + (rs.map List.length).sum
  slots : a'.headers.size = a.headers.size
  cells : a'.cells.size = a.cells.size
  body_iff : ∀ j c, a'.body j = some c ↔
    (a.body j = some c ∧ ∀ l ∈ c, l.var ≠ x) ∨ ∃ k, j = a.len + k ∧ rs[k]? = some c
  ordered : a.Ordered → a'.Ordered
  within : ∀ n, a.Within n → (∀ r ∈ rs, ∀ l ∈ r, l.var < n) → a'.Within n
  room : ∀ more, a.RoomFor (rs ++ more) → a'.RoomFor more
  signed : a.Signed → a'.Signed

namespace Eliminates

variable (h : Eliminates a a' x rs)
include h

/-- The clauses are those without the variable and the new ones. -/
theorem mem_bodies_iff : c ∈ a'.bodies ↔ (c ∈ a.bodies ∧ ∀ l ∈ c, l.var ≠ x) ∨ c ∈ rs := by
  rw [Arena.mem_bodies, Arena.mem_bodies]
  simp only [h.body_iff, exists_or, exists_and_right]
  refine or_congr_right ?_
  rw [List.mem_iff_getElem?]
  constructor
  · rintro ⟨_, k, _, hk⟩
    exact ⟨k, hk⟩
  · rintro ⟨k, hk⟩
    exact ⟨_, k, rfl, hk⟩

/-- Slots in use before hold what they held, or nothing. -/
theorem body_of_lt (hj : j < a.len) (hc : a'.body j = some c) : a.body j = some c ∧ ∀ l ∈ c, l.var ≠ x := by
  refine ((h.body_iff j c).1 hc).resolve_right ?_
  rintro ⟨k, rfl, _⟩
  omega

theorem sound (hs : t.Sound a) : t.Sound a' where
  wf := hs.wf
  size := hs.size
  lt i j hj := by
    rw [h.len]
    exact Nat.lt_add_right _ (hs.lt i j hj)
  ascends := hs.ascends
  mem l j hj c hc := hs.mem l j hj c (h.body_of_lt (hs.lt _ j hj) hc).1

/-- What is listed for the variable is gone. -/
theorem not_alive (hs : t.Sound a) (hl : l.var = x) (hj : j ∈ t.listAt l.index) : a'.alive j = false := by
  refine Arena.body_eq_none_iff.1 (Option.eq_none_iff_forall_ne_some.2 fun c hc => ?_)
  obtain ⟨hb, hne⟩ := h.body_of_lt (hs.lt _ j hj) hc
  exact hne l (hs.mem l j hj c hb) hl

end Eliminates

section Resolvents

variable (ha : a.Wf) (hx : x < 2 ^ 31) (he : a.elimination limit x = some rs) (h : Eliminates a a' x rs)
include ha hx he

omit ha he in
theorem var_eq_of_mem (hl : Lit.positive x ∈ c ∨ Lit.negative x ∈ c) : ∃ l ∈ c, l.var = x :=
  hl.elim (fun hl => ⟨_, hl, Lit.var_positive hx⟩) fun hl => ⟨_, hl, Lit.var_negative hx⟩

/-- Resolvents have no literals of variables that share no clause with the eliminated one. -/
theorem not_mem_of_apart (hxy : a.Apart x y) (hr : r ∈ rs) (hk : k ∈ r) : k.var ≠ y := by
  obtain ⟨c, hc, hkc, hxc⟩ := exists_parent_of_mem ha he hr hk
  obtain ⟨l, hl, hlx⟩ := var_eq_of_mem hx hxc
  exact hxy c hc l hl k hkc hlx

include h

/-- The clauses of a variable that shares no clause with the eliminated one are as before. -/
theorem Eliminates.clause_iff (hxy : a.Apart x y) (hl : l ∈ c) (hy : l.var = y) :
    a'.body j = some c ↔ a.body j = some c := by
  rw [h.body_iff]
  constructor
  · rintro (⟨hc, _⟩ | ⟨k, _, hk⟩)
    · exact hc
    · exact absurd hy (not_mem_of_apart ha hx he hxy (List.mem_of_getElem? hk) hl)
  · intro hc
    exact Or.inl ⟨hc, fun k hk hkx => hxy c (Arena.mem_bodies.2 ⟨j, hc⟩) k hk l hl hkx hy⟩

theorem Eliminates.complete (hxy : a.Apart x y) (hy : l.var = y) (hc : t.Complete a l) : t.Complete a' l :=
  fun j c hb hl => hc j c ((h.clause_iff ha hx he hxy hl hy).1 hb) hl

/-- So are the slots and the lists of its clauses. -/
theorem Eliminates.slotsWith_eq (hxy : a.Apart x y) (hy : l.var = y) : a'.slotsWith l = a.slotsWith l := by
  have hmem (j : Nat) : j ∈ a'.slotsWith l ↔ j ∈ a.slotsWith l := by
    rw [Arena.mem_slotsWith, Arena.mem_slotsWith]
    exact exists_congr fun c => and_congr_left fun hl => h.clause_iff ha hx he hxy hl hy
  exact (a'.pairwise_slotsWith l).eq_of_mem_iff (a.pairwise_slotsWith l) hmem

theorem Eliminates.clausesWith_eq (hxy : a.Apart x y) (hy : l.var = y) : a'.clausesWith l = a.clausesWith l := by
  rw [← a'.map_text_slotsWith, ← a.map_text_slotsWith, h.slotsWith_eq ha hx he hxy hy]
  refine List.map_congr_left fun j hj => ?_
  obtain ⟨c, hc, hl⟩ := Arena.mem_slotsWith.1 hj
  rw [Arena.text_of_body hc, Arena.text_of_body ((h.clause_iff ha hx he hxy hl hy).2 hc)]

theorem Eliminates.elimination_eq (hxy : a.Apart x y) (hy : y < 2 ^ 31) :
    a'.elimination limit y = a.elimination limit y := by
  unfold Arena.elimination
  rw [h.clausesWith_eq ha hx he hxy (Lit.var_positive hy), h.clausesWith_eq ha hx he hxy (Lit.var_negative hy)]

/-- Variables that share no clause go on sharing none. -/
theorem Eliminates.apart {z : Nat} (hxy : a.Apart x y) (hyz : a.Apart y z) : a'.Apart y z := by
  intro c hc l hl k hk hly
  rcases h.mem_bodies_iff.1 hc with ⟨hc, _⟩ | hc
  · exact hyz c hc l hl k hk hly
  · exact absurd hly (not_mem_of_apart ha hx he hxy hc hl)

/-- Elimination preserves models. -/
theorem Eliminates.preserves : Preserves a a' (a.retired x) := by
  have hnot : (Lit.positive x).not = Lit.negative x := Lit.not_positive hx
  have hneg : ∀ d ∈ (a.clausesWith (.negative x)).filter fun c => !c.contains (.positive x),
      (Lit.positive x).not ∈ d ∧ d.Pairwise (· < ·) := fun d hd => by
    obtain ⟨hd, hxd⟩ := Arena.mem_clausesWith.1 (List.mem_filter.1 hd).1
    obtain ⟨i, hi⟩ := Arena.mem_bodies.1 hd
    exact ⟨hnot ▸ hxd, ha.ascends i d hi⟩
  have hpos : ∀ c ∈ a.clausesWith (.positive x), Lit.positive x ∈ c ∧ c.Pairwise (· < ·) := fun c hc => by
    obtain ⟨hc, hxc⟩ := Arena.mem_clausesWith.1 hc
    obtain ⟨i, hi⟩ := Arena.mem_bodies.1 hc
    exact ⟨hxc, ha.ascends i c hi⟩
  have hretired : a.retired x = (a.clausesWith (.positive x)).map (Removal.mk (.positive x)) ++
      ((a.clausesWith (.negative x)).filter fun c => !c.contains (.positive x)).map
        (Removal.mk (Lit.positive x).not) := by
    rw [hnot]
    rfl
  refine ⟨fun v hv c hc => ?_, fun v hv c hc => ?_⟩
  · rcases h.mem_bodies_iff.1 hc with ⟨hc, _⟩ | hc
    · exact hv c hc
    · exact hv.holds_resolvent ha he hc
  · rw [hretired]
    by_cases hxc : Lit.positive x ∈ c ∨ Lit.negative x ∈ c
    · refine holds_repairAll_of_resolvents hpos hneg (fun p hp n hn r hr => hv r (h.mem_bodies_iff.2 (Or.inr ?_))) ?_
      · rw [(elimination_eq_some he).1, mem_resolventsOn]
        exact ⟨p, hp, n, (List.mem_filter.1 hn).1, hr⟩
      · by_cases hxp : Lit.positive x ∈ c
        · exact Or.inl (Arena.mem_clausesWith.2 ⟨hc, hxp⟩)
        · refine Or.inr (List.mem_filter.2 ⟨Arena.mem_clausesWith.2 ⟨hc, hxc.resolve_left hxp⟩, ?_⟩)
          simpa using hxp
    · have hne : ∀ l ∈ c, l.var ≠ x := fun l hl hlx => by
        rcases (Lit.var_eq_iff_positive_or_negative hx).1 hlx with rfl | rfl
        · exact hxc (Or.inl hl)
        · exact hxc (Or.inr hl)
      obtain ⟨l, hl, hvl⟩ := hv c (h.mem_bodies_iff.2 (Or.inl ⟨hc, hne⟩))
      refine ⟨l, hl, ?_⟩
      rw [Lit.Holds, repairAll_map_append_of_ne (by rw [Lit.var_positive hx]; exact hne l hl)]
      exact hvl

end Resolvents

/-! ## The steps of the pass -/

/-- Appending resolvents where there is room. -/
theorem appendResolvents_ends (ha : a.Wf) (hw : w.Wf) (hrs : ∀ r ∈ rs, r.Pairwise (· < ·) ∧ r.length < 2 ^ 32)
    (hroom : (∀ f, E f) ∨ a.RoomFor rs ∧ w.Sized n ∧ (∀ r ∈ rs, ∀ l ∈ r, l.var < n) ∧
      (E .unitListOverflow ∨ n < 2 ^ 31 - 1)) :
    Ends E (rs.foldlM (fun (s : Arena × WorkingSet) lits => appendResolvent s.1 s.2 lits) (a, w)) fun s =>
      a.Extends s.1 rs ∧ w.Gains s.2 fun l => [l] ∈ rs := by
  refine ends_foldlM (fun (done : List (List Lit)) (s : Arena × WorkingSet) =>
    a.Extends s.1 done ∧ w.Gains s.2 fun l => [l] ∈ done) ⟨.refl ha, .refl hw _⟩ ?_
  rintro done r rest ⟨a₁, w₁⟩ hlist ⟨hext, hgain⟩
  have hr : r ∈ rs := by rw [hlist]; simp
  obtain ⟨hasc, hlen⟩ := hrs r hr
  refine (Arena.appendAscending_ends hext.wf hasc hlen (hroom.imp_right fun h => ?_)).bind ?_
  · exact (hext.room (r :: rest) (hlist ▸ h.1)).head
  rintro ⟨_, a₂⟩ ⟨he, hfits⟩
  cases he
  have hext₂ := hext.trans (Arena.extends_appended (s := .irredundant) hfits hext.wf hlen hasc (by decide))
  have hmono : ∀ l, [l] ∈ done → [l] ∈ done ++ [r] := fun l hl => List.mem_append_left _ hl
  rcases r with _ | ⟨l, _ | ⟨k, r⟩⟩
  · exact ⟨hext₂, hgain.mono hmono⟩
  · have hunits : (∀ f, E f) ∨ w₁.Sized n ∧ l.var < n ∧ (E .unitListOverflow ∨ n < 2 ^ 31 - 1) :=
      hroom.imp_right fun ⟨_, hs, hlt, hn⟩ => by
        refine ⟨hgain.sized n hs fun k hk => ?_, hlt [l] hr l (List.mem_singleton_self l), hn⟩
        exact hlt [k] (by rw [hlist]; exact List.mem_append_left _ hk) k (List.mem_singleton_self k)
    refine (WorkingSet.recordUnit_ends hgain.wf hunits).bind ?_
    rintro ⟨_, w₂⟩ ⟨hgain₂, _⟩
    refine ⟨hext₂, (hgain.mono hmono).trans (hgain₂.mono fun k hk => ?_)⟩
    rw [hk]
    simp
  · exact ⟨hext₂, hgain.mono hmono⟩

/-- Melting the live ones of some slots. -/
theorem retire_ok (ha : a.Wf) {crefs : List Nat} (h : ∀ i ∈ crefs, i < a.len) (l : Lit) :
    retire a l crefs = .ok ((crefs.filter a.alive).map fun i => ⟨l, a.text i⟩, a.meltedAll (crefs.filter a.alive)) := by
  have hlive : ∀ i ∈ crefs.filter a.alive, i < a.len := fun i hi => h i (List.mem_filter.1 hi).1
  unfold retire
  rw [selectM_ok (q := a.alive) fun i hi => ha.isLive_ok (h i hi), ok_bind,
    mapM_ok (g := fun i => (⟨l, a.text i⟩ : Removal)) fun i hi => by rw [ha.lits_ok (hlive i hi)]; rfl, ok_bind,
    (Arena.meltedAll_ok _ ha hlive).1]
  rfl

section Retire

variable (hs : t.Sound a) (hext : a.Extends a₁ rs)
include hs hext

/-- In an extended arena, the live clauses listed for a literal are still those with the literal. -/
theorem filter_alive_of_extends (hc : t.Complete a l) : (t.listAt l.index).filter a₁.alive = a.slotsWith l := by
  rw [← hs.filter_alive hc]
  refine List.filter_congr fun i hi => ?_
  rw [← Arena.isSome_body, ← Arena.isSome_body, hext.old i (hs.lt _ i hi)]

/-- When those with another literal have been melted, the clauses without it are left. -/
theorem filter_alive_of_melted (hc : t.Complete a l) {b : Arena}
    (hb : ∀ j, b.body j = if j ∈ a.slotsWith k then none else a₁.body j) :
    (t.listAt l.index).filter b.alive = (a.slotsWith l).filter fun i => !(a.text i).contains k := by
  rw [← filter_alive_of_extends hs hext hc, List.filter_filter]
  refine List.filter_congr fun i hi => ?_
  have hlt := hs.lt _ i hi
  rw [← Arena.isSome_body, ← Arena.isSome_body, hb, hext.old i hlt]
  cases hal : a.alive i with
  | false =>
    rw [Arena.body_eq_none_iff.2 hal]
    simp
  | true =>
    have hbody := Arena.body_eq_some_iff.2 ⟨hal, rfl⟩
    have hmem : i ∈ a.slotsWith k ↔ k ∈ a.text i := by
      rw [Arena.mem_slotsWith]
      simp [hbody]
    by_cases hk : k ∈ a.text i
    · simp [hmem.2 hk, hk]
    · simp [mt hmem.1 hk, hk, hbody]

end Retire

/-- Extending an arena by clauses and melting all clauses of a variable that were there eliminates it. -/
theorem eliminates_of_body (hx : x < 2 ^ 31) (hext : a.Extends a₁ rs) (ht : a₁.Trims a') (hwf : a'.Wf)
    (hord : a₁.Ordered → a'.Ordered) (hbody : ∀ j, a'.body j =
      if j ∈ a.slotsWith (.positive x) ∨ j ∈ a.slotsWith (.negative x) then none else a₁.body j) :
    Eliminates a a' x rs := by
  refine ⟨hwf, ht.len.trans hext.len, ht.numLits.trans hext.numLits, ht.slots.trans hext.slots,
    ht.cells.trans hext.cells, fun j c => ?_, fun ho => hord (hext.ordered ho),
    fun n ho hrs => ht.within (hext.within n ho hrs), fun more hr => ?_, fun hs => ht.signed (hext.signed hs)⟩
  · have hmem (c : List Lit) (hc : a.body j = some c) :
        (j ∈ a.slotsWith (.positive x) ∨ j ∈ a.slotsWith (.negative x)) ↔ ∃ l ∈ c, l.var = x := by
      simp only [Arena.mem_slotsWith, hc, Option.some.injEq, exists_eq_left']
      constructor
      · rintro (hl | hl)
        · exact ⟨_, hl, Lit.var_positive hx⟩
        · exact ⟨_, hl, Lit.var_negative hx⟩
      · rintro ⟨l, hl, hlx⟩
        rcases (Lit.var_eq_iff_positive_or_negative hx).1 hlx with rfl | rfl
        · exact Or.inl hl
        · exact Or.inr hl
    rw [hbody]
    split
    · next hj =>
      obtain ⟨d, hd, hlt⟩ : ∃ d, a.body j = some d ∧ j < a.len := by
        rcases hj with hj | hj
        all_goals
          obtain ⟨d, hd, _⟩ := Arena.mem_slotsWith.1 hj
          exact ⟨d, hd, Arena.lt_of_body hd⟩
      obtain ⟨l, hl, hlx⟩ := (hmem d hd).1 hj
      refine iff_of_false nofun ?_
      rintro (⟨hc, hne⟩ | ⟨k, rfl, _⟩)
      · rw [hd, Option.some.injEq] at hc
        exact hne l (hc ▸ hl) hlx
      · omega
    · next hj =>
      rw [hext.body_iff]
      refine or_congr_left ⟨fun hc => ⟨hc, fun l hl hlx => hj ((hmem c hc).2 ⟨l, hl, hlx⟩)⟩, And.left⟩
  · refine (hext.room more hr).imp_right fun h => ⟨?_, ?_⟩
    · rw [ht.clauseCount, ht.slots]
      exact h.1
    · rw [ht.litCount, ht.cells]
      exact h.2

/-- Melting the clauses of a variable in an arena that was extended by clauses. -/
theorem retire_retire_ok (hs : t.Sound a) (hx : x < 2 ^ 31) (hc : ∀ l : Lit, l.var = x → t.Complete a l)
    (hext : a.Extends a₁ rs) : ∃ pos neg a₂ a₃,
      retire a₁ (.positive x) (t.listAt (Lit.positive x).index) = .ok (pos, a₂) ∧
      retire a₂ (.negative x) (t.listAt (Lit.negative x).index) = .ok (neg, a₃) ∧ pos ++ neg = a.retired x ∧
      Eliminates a a₃ x rs := by
  have hlt (l : Lit) : ∀ i ∈ t.listAt l.index, i < a₁.len := fun i hi => by
    rw [hext.len]
    exact Nat.lt_add_right _ (hs.lt _ i hi)
  have hret := retire_ok hext.wf (hlt (.positive x)) (.positive x)
  rw [filter_alive_of_extends hs hext (hc _ (Lit.var_positive hx))] at hret
  obtain ⟨_, hwf₂, htrims₂, hord₂, htext₂, hbody₂⟩ := Arena.meltedAll_ok (a.slotsWith (.positive x)) hext.wf
    fun i hi => by
      rw [hext.len]
      exact Nat.lt_add_right _ (lt_of_mem_slotsWith hi)
  generalize a₁.meltedAll (a.slotsWith (.positive x)) = a₂ at hret hwf₂ htrims₂ hord₂ htext₂ hbody₂
  have hret' := retire_ok hwf₂ (fun i hi => by rw [htrims₂.len]; exact hlt (.negative x) i hi) (.negative x)
  rw [filter_alive_of_melted hs hext (hc _ (Lit.var_negative hx)) hbody₂] at hret'
  obtain ⟨_, hwf₃, htrims₃, hord₃, _, hbody₃⟩ := Arena.meltedAll_ok
    ((a.slotsWith (.negative x)).filter fun i => !(a.text i).contains (.positive x)) hwf₂ fun i hi => by
      rw [htrims₂.len, hext.len]
      exact Nat.lt_add_right _ (lt_of_mem_slotsWith (List.mem_filter.1 hi).1)
  refine ⟨_, _, _, _, hret, hret', ?_, eliminates_of_body hx hext (htrims₂.trans htrims₃) hwf₃
    (fun ho => hord₃ (hord₂ ho)) fun j => ?_⟩
  · have htext (is : List Nat) (his : ∀ i ∈ is, i < a.len) (b : Arena) (hb : ∀ i < a.len, b.text i = a.text i)
        (l : Lit) : is.map (fun i => (⟨l, b.text i⟩ : Removal)) = (is.map a.text).map (Removal.mk l) := by
      rw [List.map_map]
      exact List.map_congr_left fun i hi => by rw [hb i (his i hi)]; rfl
    rw [htext _ (fun i hi => lt_of_mem_slotsWith hi) a₁ hext.text,
      htext _ (fun i hi => lt_of_mem_slotsWith (List.mem_filter.1 hi).1) a₂ fun i hi => by
        rw [htext₂, hext.text i hi], Arena.retired, ← a.map_text_slotsWith, ← a.map_text_slotsWith, List.filter_map]
    rfl
  · rw [hbody₃, hbody₂]
    by_cases hp : j ∈ a.slotsWith (.positive x)
    · simp [hp]
    · rw [if_neg hp]
      refine if_congr ?_ rfl rfl
      rw [or_iff_right hp, List.mem_filter]
      refine and_iff_left_of_imp fun hn => ?_
      obtain ⟨c, hb, _⟩ := Arena.mem_slotsWith.1 hn
      rw [Arena.text_of_body hb]
      simpa using fun hxc => hp (Arena.mem_slotsWith.2 ⟨c, hb, hxc⟩)

/-- The literals of a variable that the table has room for have lists. -/
theorem index_lt_of_var (hs : t.Sound a) (hx : x < t.numVars) (hl : l.var = x) : l.index < t.size := by
  rw [hs.size]
  exact Lit.index_lt_litSlots (hl ▸ hx)

/-- Eliminating one variable, or leaving it. -/
theorem eliminateVar_ends (ha : a.Wf) (hw : w.Wf) (hs : t.Sound a) (hx : x < 2 ^ 31) (hxt : x < t.numVars)
    (hc : ∀ l : Lit, l.var = x → t.Complete a l)
    (hroom : (∀ f, E f) ∨ a.RoomFor ((a.elimination limit x).getD []) ∧ w.Sized n ∧ a.Below n ∧
      (E .unitListOverflow ∨ n < 2 ^ 31 - 1)) :
    Ends E (eliminateVar t limit a w x) fun s => (a.elimination limit x = none ∧ s = ([], a, w)) ∨
      ∃ rs, a.elimination limit x = some rs ∧ s.1 = a.retired x ∧ Eliminates a s.2.1 x rs ∧
        w.Gains s.2.2 fun l => [l] ∈ rs := by
  have hres : resolvents a t limit x = .ok (a.elimination limit x) := by
    refine resolvents_ok ha hs fun l hl => ?_
    have hlx := (Lit.var_eq_iff_positive_or_negative hx).2 hl
    exact ⟨hc l hlx, index_lt_of_var hs hxt hlx⟩
  unfold eliminateVar
  rw [hres, ok_bind]
  cases he : a.elimination limit x with
  | none => exact Or.inl ⟨rfl, rfl⟩
  | some rs =>
    have hrs : ∀ r ∈ rs, r.Pairwise (· < ·) ∧ r.length < 2 ^ 32 := fun r hr =>
      ⟨(resolvent_props ha he hr).1, (resolvent_props ha he hr).2.2⟩
    have hroom' : (∀ f, E f) ∨ a.RoomFor rs ∧ w.Sized n ∧ (∀ r ∈ rs, ∀ l ∈ r, l.var < n) ∧
        (E .unitListOverflow ∨ n < 2 ^ 31 - 1) := hroom.imp_right fun ⟨hr, hsz, hb, hn⟩ => by
      refine ⟨by simpa [he] using hr, hsz, fun r hr l hl => ?_, hn⟩
      obtain ⟨d, hd, hld, _⟩ := exists_parent_of_mem ha he hr hl
      exact hb d hd l hld
    refine (appendResolvents_ends ha hw hrs hroom').bind ?_
    rintro ⟨a₁, w₁⟩ ⟨hext, hgain⟩
    obtain ⟨pos, neg, a₂, a₃, hpos, hneg, hgone, helim⟩ := retire_retire_ok hs hx hc hext
    have hlp := index_lt_of_var hs hxt (Lit.var_positive hx)
    have hln := index_lt_of_var hs hxt (Lit.var_negative hx)
    simp only [hs.wf.occurs_ok hlp, hs.wf.occurs_ok hln, ok_bind, hpos, hneg]
    exact Or.inr ⟨rs, rfl, hgone, helim, hgain⟩

end CnfSimp
