import CnfSimp.Proofs.Occurrences.View

/-!
# Building occurrence tables

* `Occurrences.Tallies`: the histogram of some clauses. `Occurrences.histogram_ends`: that of all clauses counts, for
  every code, the live ones that mention it.
* `Occurrences.layout_ok`: a layout gives empty lists of the given capacities, one right behind the other
  (`Occurrences.Blank`).
* `Occurrences.build_ends`: a freshly built table lists exactly the live clauses of every literal, in ascending order
  (`Occurrences.Exact`). It faults only if the table has no list for some literal.
* `Occurrences.reduce_ends`: reducing keeps the live ones of the listed clauses.
-/

namespace CnfSimp

variable {E : Fault → Prop}

namespace Arena

variable {a : Arena} {i j : Nat} {c : List Lit} {l : Lit} {done : List Nat}

/-- Whether the clause of a slot is live and has the literal with the given code. -/
def mentions (a : Arena) (i j : Nat) : Bool := (a.body i).any fun c => c.any fun l => l.index == j

/-- Those of the given slots that mention a code. -/
def listed (a : Arena) (done : List Nat) (j : Nat) : List Nat := done.filter fun i => a.mentions i j

theorem mentions_of_body (h : a.body i = some c) (j : Nat) : a.mentions i j = c.any fun l => l.index == j := by
  rw [mentions, h]
  rfl

theorem mentions_of_alive (h : a.alive i = false) (j : Nat) : a.mentions i j = false := by
  rw [mentions, body_eq_none_iff.2 h]
  rfl

theorem listed_append (a : Arena) (done : List Nat) (i j : Nat) :
    a.listed (done ++ [i]) j = a.listed done j ++ if a.mentions i j then [i] else [] := by
  simp only [listed, List.filter_append, List.filter_cons, List.filter_nil]

theorem any_index_eq (c : List Lit) (l : Lit) : (c.any fun k => k.index == l.index) = c.contains l := by
  rw [Bool.eq_iff_iff, List.any_eq_true, List.contains_iff_mem]
  simp only [beq_iff_eq, Lit.index_inj, exists_eq_right]

theorem listed_crefs (a : Arena) (l : Lit) : a.listed a.crefs l.index = a.slotsWith l := by
  simp only [listed, mentions, slotsWith, any_index_eq]

/-- The codes of all literals of live clauses are below `n`. -/
def CodesBelow (a : Arena) (n : Nat) : Prop := ∀ i c, a.body i = some c → ∀ l ∈ c, l.index < n

end Arena

namespace Occurrences

variable {a : Arena} {t t' : Occurrences} {i j n : Nat} {lits : List Lit} {hist hist' : Array UInt32}

/-! ## The histogram -/

/-- The sum of a histogram. -/
def total (hist : Array UInt32) : Nat := (hist.toList.map UInt32.toNat).sum

/-- Counting one more adds at most one to the sum. -/
theorem total_setIfInBounds_le {x : UInt32} (h : hist[i]? = some x) :
    total (hist.setIfInBounds i (x + 1)) ≤ total hist + 1 := by
  obtain ⟨hist⟩ := hist
  simp only [total, List.setIfInBounds_toArray, List.getElem?_toArray] at h ⊢
  induction hist generalizing i with
  | nil => simp at h
  | cons y hist ih =>
    cases i with
    | zero =>
      simp only [List.getElem?_cons_zero, Option.some.injEq] at h
      have : (x + 1).toNat ≤ x.toNat + 1 := by
        rw [UInt32.toNat_add, UInt32.toNat_one]
        exact Nat.mod_le _ _
      simp only [List.set_cons_zero, List.map_cons, List.sum_cons, h]
      omega
    | succ i =>
      rw [List.getElem?_cons_succ] at h
      have := ih h
      simp only [List.set_cons_succ, List.map_cons, List.sum_cons]
      omega

/-- A histogram to which literals have been added. -/
structure Adds (hist : Array UInt32) (lits : List Lit) (hist' : Array UInt32) : Prop where
  size : hist'.size = hist.size
  below : ∀ l ∈ lits, l.index < hist.size
  get : ∀ j, hist'[j]? = hist[j]?.map fun x => if lits.any fun l => l.index == j then x + 1 else x
  total_le : total hist' ≤ total hist + lits.length

/-- Another literal. -/
theorem Adds.snoc {done : List Lit} {l : Lit} (h : Adds hist done hist') (hnot : l ∉ done) (hl : l.index < hist.size) :
    ∃ x, hist'[l.index]? = some x ∧ Adds hist (done ++ [l]) (hist'.setIfInBounds l.index (x + 1)) := by
  have hnot : (done.any fun k => k.index == l.index) = false := by
    rw [Arena.any_index_eq]
    simpa using hnot
  have hx : hist'[l.index]? = some hist[l.index] := by
    rw [h.get, Array.getElem?_eq_getElem hl, Option.map_some, hnot]
    rfl
  refine ⟨_, hx, ?_, ?_, ?_, ?_⟩
  · rw [Array.size_setIfInBounds, h.size]
  · intro k hk
    rcases List.mem_append.1 hk with hk | hk
    · exact h.below k hk
    · rwa [List.mem_singleton.1 hk]
  · intro j
    rw [Array.getElem?_setIfInBounds, List.any_append]
    by_cases hj : l.index = j
    · subst hj
      rw [if_pos rfl, if_pos (h.size ▸ hl), Array.getElem?_eq_getElem hl]
      simp
    · rw [if_neg hj, h.get]
      simp [hj]
  · have := total_setIfInBounds_le hx
    have := h.total_le
    rw [List.length_append, List.length_singleton]
    omega

/-- Counting the literals of a clause. -/
theorem countLits_ends (hn : lits.Nodup) (hE : E .outOfBounds ∨ ∀ l ∈ lits, l.index < hist.size) :
    Ends E (countLits hist lits) (Adds hist lits) := by
  refine ends_foldlM (Adds hist) ⟨rfl, by simp, by simp, Nat.le_refl _⟩ ?_
  rintro done l rest hist' hlits h
  by_cases hl : l.index < hist.size
  · have hnot : l ∉ done := fun hd => by
      rw [hlits, List.nodup_append] at hn
      exact hn.2.2 l hd l List.mem_cons_self rfl
    obtain ⟨x, hx, hnext⟩ := h.snoc hnot hl
    rw [hx]
    exact hnext
  · have := h.size
    rw [Array.getElem?_eq_none (by omega)]
    exact hE.resolve_right fun h => hl (h l (by rw [hlits]; simp))

/-- The histogram of the live ones among some clauses. -/
structure Tallies (a : Arena) (n : Nat) (done : List Nat) (hist : Array UInt32) : Prop where
  size : hist.size = litSlots n
  below : ∀ i ∈ done, ∀ c, a.body i = some c → ∀ l ∈ c, l.index < litSlots n
  get : ∀ j, j < litSlots n → hist[j]? = some (.ofNat (a.listed done j).length)
  total_le : total hist ≤ done.length * 4294967295

namespace Tallies

theorem nil (a : Arena) (n : Nat) : Tallies a n [] (.replicate (litSlots n) 0) where
  size := Array.size_replicate
  below := by simp
  get j hj := by simp [hj, Arena.listed]
  total_le := by simp [total]

/-- Clauses that are not live do not count. -/
theorem skip {done : List Nat} (h : Tallies a n done hist) (hal : a.alive i = false) :
    Tallies a n (done ++ [i]) hist where
  size := h.size
  below k hk c hc := by
    rcases List.mem_append.1 hk with hk | hk
    · exact h.below k hk c hc
    · rw [List.mem_singleton.1 hk, Arena.body_eq_none_iff.2 hal] at hc
      cases hc
  get j hj := by
    rw [Arena.listed_append, Arena.mentions_of_alive hal, h.get j hj]
    simp
  total_le := Nat.le_trans h.total_le (Nat.mul_le_mul_right _ (by simp))

/-- Live clauses count with all of their literals. -/
theorem add {done : List Nat} {c : List Lit} (h : Tallies a n done hist) (hb : a.body i = some c)
    (hlen : c.length < 2 ^ 32) (hadds : Adds hist c hist') : Tallies a n (done ++ [i]) hist' where
  size := hadds.size.trans h.size
  below k hk d hd := by
    rcases List.mem_append.1 hk with hk | hk
    · exact h.below k hk d hd
    · rw [List.mem_singleton.1 hk, hb, Option.some.injEq] at hd
      rw [← hd, ← h.size]
      exact hadds.below
  get j hj := by
    rw [hadds.get, h.get j hj, Option.map_some, Arena.listed_append, Arena.mentions_of_body hb, List.length_append]
    split <;> simp
  total_le := by
    have := h.total_le
    have := hadds.total_le
    have : (done ++ [i]).length = done.length + 1 := List.length_append
    omega

end Tallies

/-- The histogram counts the live clauses that mention a code. -/
theorem histogram_ends (ha : a.Listable) (n : Nat) (hE : E .outOfBounds ∨ a.CodesBelow (litSlots n)) :
    Ends E (histogram a n) fun hist => a.CodesBelow (litSlots n) ∧ hist.size = litSlots n ∧
      (∀ j, j < litSlots n → hist[j]? = some (.ofNat (a.listed a.crefs j).length)) ∧ total hist < 2 ^ 64 := by
  have hall : Ends E (histogram a n) (Tallies a n a.crefs) := by
    refine ends_foldlM (Tallies a n) (.nil a n) ?_
    rintro done i rest hist hcrefs h
    have hi : i < a.len := List.mem_range.1 (show i ∈ a.crefs by rw [hcrefs]; simp)
    rw [Arena.clause_ok hi, ok_bind, ha.status.isLive_clauseAt hi, ok_bind]
    cases hal : a.alive i with
    | false => exact h.skip hal
    | true =>
      have hb := Arena.body_eq_some_iff.2 ⟨hal, rfl⟩
      have hlen : (a.text i).length < 2 ^ 32 := by
        rw [ha.length_text hal]
        exact UInt32.toNat_lt _
      rw [if_pos rfl, ha.lits_clauseAt hal, ok_bind]
      refine (countLits_ends (ha.nodup i _ hb) ?_).imp fun hist' hadds => h.add hb hlen hadds
      rw [h.size]
      exact hE.imp_right fun h => h i _ hb
  refine hall.imp fun hist h => ⟨fun i c hc => ?_, h.size, h.get, ?_⟩
  · exact h.below i (List.mem_range.2 (Arena.lt_of_body hc)) c hc
  have hle : a.crefs.length * 4294967295 ≤ 2 ^ 32 * 4294967295 := by
    rw [Arena.crefs, List.length_range]
    exact Nat.mul_le_mul_right _ (Nat.le_of_lt ha.len_lt)
  have := h.total_le
  omega

/-! ## The layout -/

/-- The first cell of a list in a layout. -/
def offset (caps : List UInt32) (i : Nat) : Nat := ((caps.take i).map UInt32.toNat).sum

theorem offset_succ {caps : List UInt32} {cap : UInt32} (h : caps[i]? = some cap) :
    offset caps (i + 1) = offset caps i + cap.toNat := by
  unfold offset
  rw [List.take_add_one, h]
  simp

theorem offset_le_offset (caps : List UInt32) (h : i ≤ j) : offset caps i ≤ offset caps j := by
  unfold offset
  rw [← List.take_append_drop i (caps.take j), List.take_take, Nat.min_eq_left h]
  simp

theorem getElem?_windows (base : Nat) (caps : List UInt32) (i : Nat) :
    (windows base caps)[i]? = caps[i]?.map (.place (base + offset caps i)) := by
  induction caps generalizing base i with
  | nil => rfl
  | cons cap caps ih =>
    cases i with
    | zero => simp [windows, offset]
    | succ i =>
      rw [windows, List.getElem?_cons_succ, ih, List.getElem?_cons_succ]
      simp [offset, Nat.add_assoc]

theorem length_windows (base : Nat) (caps : List UInt32) : (windows base caps).length = caps.length := by
  induction caps generalizing base with
  | nil => rfl
  | cons cap caps ih => rw [windows, List.length_cons, ih, List.length_cons]

/-- The windows of a layout are empty, and end inside it. -/
theorem getD_windows (caps : List UInt32) (i : Nat) (w : Window)
    (hw : (windows 0 caps).toArray[i]?.getD default = w) : w.cap = caps[i]?.getD 0 ∧ w.rawLen = 0 ∧
      w.base + w.cap.toNat ≤ (caps.map UInt32.toNat).sum ∧ (i < caps.length → w.base = offset caps i) := by
  subst hw
  rw [List.getElem?_toArray, getElem?_windows, Nat.zero_add]
  cases hc : caps[i]? with
  | none =>
    refine ⟨rfl, rfl, Nat.zero_le _, fun hi => ?_⟩
    exact absurd (List.getElem?_eq_none_iff.1 hc) (Nat.not_le_of_lt hi)
  | some cap =>
    refine ⟨rfl, rfl, ?_, fun _ => rfl⟩
    show offset caps i + cap.toNat ≤ _
    rw [← offset_succ hc]
    obtain ⟨hi, _⟩ := List.getElem?_eq_some_iff.1 hc
    have := offset_le_offset caps (Nat.succ_le_of_lt hi)
    rwa [offset, offset, List.take_length] at this

/-- All lists are empty, and they lie one right behind the other in windows of the given capacities. -/
structure Blank (t : Occurrences) (caps : List UInt32) : Prop where
  wf : t.Wf
  size : t.size = caps.length
  room : (caps.map UInt32.toNat).sum ≤ t.entries.size
  base : ∀ i < caps.length, (t.boundedAt i).window.base = offset caps i
  cap : ∀ i, (t.boundedAt i).window.cap = caps[i]?.getD 0
  rawLen : ∀ i, (t.boundedAt i).window.rawLen = 0

theorem Blank.listAt {caps : List UInt32} (h : t.Blank caps) (i : Nat) : t.listAt i = [] :=
  Bounded.contents_of_rawLen (h.rawLen i)

/-- A layout of one capacity per list. -/
theorem layout_ok (caps : List UInt32) (hlen : caps.length = t.size) (h64 : (caps.map UInt32.toNat).sum < 2 ^ 64) :
    ∃ t', t.layout caps = .ok t' ∧ t'.Blank caps ∧ t'.numVars = t.numVars := by
  have hlen' : ¬caps.length ≠ t.lists.size := not_not.2 hlen
  refine ⟨_, by simp only [layout, if_neg hlen']; rfl, ?_⟩
  generalize he : (if totalOf (caps.map UInt32.toNat) > t.entries.size then
    Array.replicate (totalOf (caps.map UInt32.toNat)) 0 else t.entries) = entries
  have hentries : (caps.map UInt32.toNat).sum ≤ entries.size := by
    rw [← he, ← totalOf_eq_sum]
    split
    · exact Nat.le_of_eq Array.size_replicate.symm
    · omega
  have hwin (i : Nat) := getD_windows caps i _ rfl
  refine ⟨⟨⟨fun i => ?_, fun i j hij hj => ?_, fun i => ?_⟩, length_windows 0 caps, hentries, fun i => (hwin i).2.2.2,
    fun i => (hwin i).1, fun i => (hwin i).2.1⟩, rfl⟩
  · obtain ⟨_, _, hle, _⟩ := hwin i
    exact ⟨Nat.le_trans hle hentries, Nat.lt_of_le_of_lt hle h64⟩
  · have hj : j < caps.length := by
      rw [← length_windows 0]
      exact hj
    obtain ⟨hci, _, _, hbi⟩ := hwin i
    obtain ⟨_, _, _, hbj⟩ := hwin j
    obtain ⟨cap, hcap⟩ : ∃ cap, caps[i]? = some cap := ⟨_, List.getElem?_eq_getElem (Nat.lt_trans hij hj)⟩
    show Window.base _ + (Window.cap _).toNat ≤ Window.base _
    simp only [boundedAt]
    rw [hbi (Nat.lt_trans hij hj), hbj hj, hci, hcap, Option.getD_some, ← offset_succ hcap]
    exact offset_le_offset caps hij
  · obtain ⟨_, hraw, _, _⟩ := hwin i
    exact Window.overflowed_of_rawLen hraw

/-- A layout of another number of capacities. -/
theorem layout_error {caps : List UInt32} (h : caps.length ≠ t.size) :
    t.layout caps = .error .capacityCountMismatch := by
  have hne : caps.length ≠ t.lists.size := h
  simp only [layout, if_pos hne]
  rfl

/-! ## Filling -/

/-- Listing a clause for its literals, where there is room. -/
theorem pushClause_ends (ht : t.Wf) (hn : lits.Nodup) (hlt : ∀ l ∈ lits, l.index < t.size)
    (hroom : ∀ l ∈ lits, (t.listAt l.index).length < t.capAt l.index) :
    Ends E (pushClause i lits t) fun t' => t'.Wf ∧ t'.size = t.size ∧ t'.numVars = t.numVars ∧
      (∀ j, t'.capAt j = t.capAt j) ∧
      ∀ j, t'.listAt j = t.listAt j ++ if lits.any fun l => l.index == j then [i] else [] := by
  refine ends_foldlM (fun (done : List Lit) (t' : Occurrences) => t'.Wf ∧ t'.size = t.size ∧ t'.numVars = t.numVars ∧
    (∀ j, t'.capAt j = t.capAt j) ∧
    ∀ j, t'.listAt j = t.listAt j ++ if done.any fun l => l.index == j then [i] else [])
    ⟨ht, rfl, rfl, fun _ => rfl, by simp⟩ ?_
  rintro done l rest t' hlits ⟨ht', hsize, hvars, hcap, hlist⟩
  have hl : l ∈ lits := by rw [hlits]; simp
  have hnot : (done.any fun k => k.index == l.index) = false := by
    rw [hlits, List.nodup_append] at hn
    rw [Arena.any_index_eq]
    simpa using fun hd => hn.2.2 l hd l (by simp) rfl
  have hself : t'.listAt l.index = t.listAt l.index := by simp [hlist, hnot]
  obtain ⟨b, hrun, hb⟩ := Bounded.push_ok (ht'.fits l.index) i (by
    have := hroom l hl
    rw [← hself, ← hcap] at this
    exact this)
  obtain ⟨t'', hrun', hs⟩ := onList_ok ht' (by rw [hsize]; exact hlt l hl) hrun hb
  rw [push, hrun', ok_bind, ends_pure]
  refine ⟨hs.wf, hs.size.trans hsize, hs.numVars.trans hvars, fun j => (hs.capAt j).trans (hcap j), fun j => ?_⟩
  rw [hs.listAt, List.any_append]
  by_cases hj : j = l.index
  · rw [if_pos hj, hj, hnot]
    show t'.listAt l.index ++ [i] = _
    rw [hself]
    simp
  · have hj' : (l.index == j) = false := by simpa using Ne.symm hj
    rw [if_neg hj, hlist]
    simp [hj']

/-- Listing all live clauses in lists that have exactly the room for it. -/
theorem pushAll_ends (ha : a.Listable) (ht : t.Wf) (hbelow : a.CodesBelow t.size) (hempty : ∀ j, t.listAt j = [])
    (hroom : ∀ j < t.size, t.capAt j = (a.listed a.crefs j).length) :
    Ends E (pushAll a t) fun t' => t'.Wf ∧ t'.size = t.size ∧ t'.numVars = t.numVars ∧
      ∀ j, t'.listAt j = a.listed a.crefs j := by
  refine Ends.imp (P := fun t' => t'.Wf ∧ t'.size = t.size ∧ t'.numVars = t.numVars ∧
    (∀ j, t'.capAt j = t.capAt j) ∧ ∀ j, t'.listAt j = a.listed a.crefs j) ?_
    fun t' h => ⟨h.1, h.2.1, h.2.2.1, h.2.2.2.2⟩
  refine ends_foldlM (fun (done : List Nat) (t' : Occurrences) => t'.Wf ∧ t'.size = t.size ∧ t'.numVars = t.numVars ∧
    (∀ j, t'.capAt j = t.capAt j) ∧ ∀ j, t'.listAt j = a.listed done j)
    ⟨ht, rfl, rfl, fun _ => rfl, hempty⟩ ?_
  rintro done i rest t' hcrefs ⟨ht', hsize, hvars, hcap, hlist⟩
  have hi : i < a.len := List.mem_range.1 (show i ∈ a.crefs by rw [hcrefs]; simp)
  rw [Arena.clause_ok hi, ok_bind, ha.status.isLive_clauseAt hi, ok_bind]
  cases hal : a.alive i with
  | false =>
    rw [if_neg Bool.false_ne_true, ends_pure]
    refine ⟨ht', hsize, hvars, hcap, fun j => ?_⟩
    rw [hlist, Arena.listed_append, Arena.mentions_of_alive hal]
    simp
  | true =>
    have hb := Arena.body_eq_some_iff.2 ⟨hal, rfl⟩
    rw [if_pos rfl, ha.lits_clauseAt hal, ok_bind]
    refine (pushClause_ends ht' (ha.nodup i _ hb) ?_ ?_).imp ?_
    · rw [hsize]
      exact hbelow i _ hb
    · intro l hl
      have hm : a.mentions i l.index = true := by
        rw [Arena.mentions_of_body hb, Arena.any_index_eq]
        simpa using hl
      rw [hcap, hroom _ (hbelow i _ hb l hl), hlist, hcrefs]
      simp [Arena.listed, hm]
    rintro t'' ⟨ht'', hsize', hvars', hcap', hlist'⟩
    refine ⟨ht'', hsize'.trans hsize, hvars'.trans hvars, fun j => (hcap' j).trans (hcap j), fun j => ?_⟩
    rw [hlist', hlist, Arena.listed_append, Arena.mentions_of_body hb]

/-! ## Sorting -/

/-- Sorting entries. -/
theorem sortBy_eq_insertionSort (xs : List Nat) :
    sortBy (fun c d => decide (c ≤ d)) xs = xs.insertionSort (· ≤ ·) := by
  have hsorted : (sortBy (fun c d => decide (c ≤ d)) xs).Pairwise fun c d => decide (c ≤ d) :=
    pairwise_sortBy (fun c d => by simpa using Nat.le_total c d) (fun c d e => by simpa using Nat.le_trans) xs
  have hperm := (sortBy_perm (fun c d => decide (c ≤ d)) xs).trans (List.perm_insertionSort (· ≤ ·) xs).symm
  exact hperm.eq_of_pairwise (fun c d _ _ => Nat.le_antisymm) (hsorted.imp of_decide_eq_true)
    (List.pairwise_insertionSort (· ≤ ·) xs)

/-- A sorted list stays. -/
theorem sortBy_of_pairwise {xs : List Nat} (h : xs.Pairwise (· < ·)) : sortBy (fun c d => decide (c ≤ d)) xs = xs := by
  rw [sortBy_eq_insertionSort]
  exact (h.imp Nat.le_of_lt).insertionSort_eq

/-- Ascending lists are sorted already. -/
theorem sortAll_ends (ht : t.Wf) (hasc : ∀ j, (t.listAt j).Pairwise (· < ·)) :
    Ends E (sortAll t) fun t' => t'.Wf ∧ t'.size = t.size ∧ t'.numVars = t.numVars ∧
      ∀ j, t'.listAt j = t.listAt j := by
  refine ends_foldlM (fun (_ : List Nat) (t' : Occurrences) => t'.Wf ∧ t'.size = t.size ∧ t'.numVars = t.numVars ∧
    ∀ j, t'.listAt j = t.listAt j) ⟨ht, rfl, rfl, fun _ => rfl⟩ ?_
  rintro done i rest t' hrange ⟨ht', hsize, hvars, hlist⟩
  have hi : i < t.size := List.mem_range.1 (by rw [hrange]; simp)
  obtain ⟨b, hrun, hb⟩ := Bounded.sort_ok (ht'.fits i) fun c d => c ≤ d
  obtain ⟨t'', hrun', hs⟩ := onList_ok ht' (hsize.symm ▸ hi) hrun hb
  rw [hrun', ok_bind, ends_pure]
  refine ⟨hs.wf, hs.size.trans hsize, hs.numVars.trans hvars, fun j => ?_⟩
  rw [hs.listAt]
  split
  · next hj =>
    show sortBy _ (t'.listAt i) = _
    rw [hlist, sortBy_of_pairwise (hasc i), hj]
  · exact hlist j

theorem lt_litSlots_of_mem_scanned {l : Lit} (h : l ∈ t.scanned) : l.index < litSlots t.numVars := by
  unfold scanned at h
  obtain ⟨v, hv, hl⟩ := List.mem_flatMap.1 h
  have hv := List.mem_range.1 hv
  have hindex (b : Bool) : (Lit.ofVar v b).index ≤ 2 * v + b.toNat := Nat.mod_le _ _
  have h₀ := hindex false
  have h₁ := hindex true
  simp only [Bool.toNat_false, Bool.toNat_true] at h₀ h₁
  unfold litSlots
  rcases List.mem_cons.1 hl with rfl | hl
  · show (Lit.ofVar v false).index < _
    omega
  · rw [List.mem_singleton.1 hl]
    show (Lit.ofVar v true).index < _
    omega

/-- The scan reports the lists of the literals of the variables. -/
theorem violated_eq (hsize : t.size = litSlots t.numVars) :
    t.violated = .ok (t.scanned.any fun l => (t.boundedAt l.index).window.overflowed) := by
  unfold violated
  rw [mapM_ok (g := fun l => (t.boundedAt l.index).window.overflowed) fun l hl => ?_, ok_bind, List.any_map]
  · rfl
  · rw [list_ok (hsize.symm ▸ lt_litSlots_of_mem_scanned hl)]
    rfl

/-- No list of a well-formed table has overflowed. -/
theorem violated_ok (ht : t.Wf) (hsize : t.size = litSlots t.numVars) : t.violated = .ok false := by
  rw [violated_eq hsize, List.any_eq_false.2 fun l _ => Bool.eq_false_iff.1 (ht.exact l.index)]

/-! ## Building and reducing -/

/-- The table lists exactly the live clauses of every literal, in ascending order. -/
structure Exact (t : Occurrences) (a : Arena) : Prop where
  wf : t.Wf
  size : t.size = litSlots t.numVars
  below : a.CodesBelow t.size
  listAt : ∀ j, t.listAt j = a.listed a.crefs j

namespace Exact

variable (h : t.Exact a)
include h

theorem listAt_index (l : Lit) : t.listAt l.index = a.slotsWith l := by
  rw [h.listAt, Arena.listed_crefs]

theorem sound : t.Sound a where
  wf := h.wf
  size := h.size
  lt j x hx := by
    rw [h.listAt] at hx
    exact List.mem_range.1 (List.mem_filter.1 hx).1
  ascends j := by
    rw [h.listAt]
    exact List.pairwise_lt_range.filter _
  mem l x hx c hc := by
    rw [h.listAt_index, Arena.mem_slotsWith] at hx
    obtain ⟨c', hc', hl⟩ := hx
    rw [hc, Option.some.injEq] at hc'
    exact hc' ▸ hl

theorem complete (l : Lit) : t.Complete a l := fun x c hc hl => by
  rw [h.listAt_index]
  exact Arena.mem_slotsWith.2 ⟨c, hc, hl⟩

theorem alive (j : Nat) : ∀ x ∈ t.listAt j, a.alive x := fun x hx => by
  rw [h.listAt] at hx
  have hmentions := (List.mem_filter.1 hx).2
  by_contra hdead
  rw [Arena.mentions_of_alive (Bool.eq_false_iff.2 hdead)] at hmentions
  cases hmentions

end Exact

/-- A freshly built table is exact; building faults only if there is no list for some literal. -/
theorem build_ends_of_listable (ha : a.Listable)
    (hE : (∀ f, E f) ∨ t.size = litSlots t.numVars ∧ a.CodesBelow (litSlots t.numVars)) :
    Ends E (build a t) fun t' => t'.Exact a ∧ t'.numVars = t.numVars := by
  have hlen := ha.len_lt
  unfold build
  refine (histogram_ends ha t.numVars (hE.imp (fun h => h _) And.right)).bind ?_
  rintro hist ⟨hbelow, hsize, hget, htotal⟩
  by_cases hts : t.size = litSlots t.numVars
  · have hlen₁ : hist.toList.length = t.size := by rw [Array.length_toList, hsize, hts]
    obtain ⟨t₁, hlayout, hblank, hvars₁⟩ := layout_ok hist.toList hlen₁ htotal
    have hsize₁ : t₁.size = t.size := hblank.size.trans hlen₁
    rw [hlayout, ok_bind]
    have hroom (j : Nat) (hj : j < t₁.size) : t₁.capAt j = (a.listed a.crefs j).length := by
      rw [hsize₁, hts] at hj
      have hle : (a.listed a.crefs j).length ≤ a.len := by
        have := List.length_filter_le (fun i => a.mentions i j) a.crefs
        rwa [Arena.crefs, List.length_range] at this
      rw [capAt, hblank.cap, Array.getElem?_toList, hget j hj, Option.getD_some]
      exact Nat.mod_eq_of_lt (Nat.lt_of_le_of_lt hle hlen)
    have hN : t₁.size = litSlots t.numVars := hsize₁.trans hts
    refine (pushAll_ends ha hblank.wf (hN.symm ▸ hbelow) hblank.listAt hroom).bind ?_
    rintro t₂ ⟨ht₂, hsize₂, hvars₂, hlist₂⟩
    refine (sortAll_ends ht₂ fun j => ?_).bind ?_
    · rw [hlist₂]
      exact List.pairwise_lt_range.filter _
    rintro t₃ ⟨ht₃, hsize₃, hvars₃, hlist₃⟩
    have hvars : t₃.numVars = t.numVars := by rw [hvars₃, hvars₂, hvars₁]
    have hsize₃' : t₃.size = litSlots t₃.numVars := by rw [hsize₃, hsize₂, hN, hvars]
    rw [violated_ok ht₃ hsize₃', ok_bind, if_neg Bool.false_ne_true]
    refine ⟨⟨ht₃, hsize₃', ?_, fun j => (hlist₃ j).trans (hlist₂ j)⟩, hvars⟩
    rw [hsize₃', hvars]
    exact hbelow
  · rw [layout_error (by rw [Array.length_toList, hsize]; exact Ne.symm hts)]
    exact hE.resolve_right (fun h => hts h.1) _

theorem build_ends (ha : a.Wf)
    (hE : (∀ f, E f) ∨ t.size = litSlots t.numVars ∧ a.CodesBelow (litSlots t.numVars)) :
    Ends E (build a t) fun t' => t'.Exact a ∧ t'.numVars = t.numVars :=
  build_ends_of_listable ha.listable hE

theorem exact_of_build {t₀ : Occurrences} (ha : a.Wf) (h : t₀.build a = .ok t) : t.Exact a :=
  ((build_ends (E := fun _ => True) ha (Or.inl fun _ => trivial)).of_ok h).1

/-- Reducing keeps the live ones of the listed clauses, and answers how many others there were. -/
theorem reduce_ends_of_labelled (ha : a.Labelled) (ht : t.Wf) (hlt : ∀ j, ∀ x ∈ t.listAt j, x < a.len) :
    Ends E (reduce a t) fun r => r.2.Wf ∧ r.2.size = t.size ∧ r.2.numVars = t.numVars ∧
      (∀ j, r.2.listAt j = (t.listAt j).filter a.alive) ∧
      r.1 = ((List.range t.size).map fun j => (t.listAt j).length - ((t.listAt j).filter a.alive).length).sum := by
  refine Ends.imp (P := fun r => r.2.Wf ∧ r.2.size = t.size ∧ r.2.numVars = t.numVars ∧
    (∀ j, r.2.listAt j = if j ∈ List.range t.size then (t.listAt j).filter a.alive else t.listAt j) ∧
    r.1 = ((List.range t.size).map fun j => (t.listAt j).length - ((t.listAt j).filter a.alive).length).sum) ?_ ?_
  · refine ends_foldlM (fun (done : List Nat) (r : Nat × Occurrences) =>
      r.2.Wf ∧ r.2.size = t.size ∧ r.2.numVars = t.numVars ∧
      (∀ j, r.2.listAt j = if j ∈ done then (t.listAt j).filter a.alive else t.listAt j) ∧
      r.1 = (done.map fun j => (t.listAt j).length - ((t.listAt j).filter a.alive).length).sum)
      ⟨ht, rfl, rfl, by simp, rfl⟩ ?_
    rintro done i rest ⟨removed, t'⟩ hrange ⟨ht', hsize, hvars, hlist, hremoved⟩
    have hi : i < t.size := List.mem_range.1 (by rw [hrange]; simp)
    have hnot : i ∉ done := fun hd => by
      have hn := List.nodup_range (n := t.size)
      rw [hrange, List.nodup_append] at hn
      exact hn.2.2 i hd i (by simp) rfl
    have hself : t'.listAt i = t.listAt i := by rw [hlist, if_neg hnot]
    obtain ⟨b, hrun, hb⟩ := Bounded.retain_ok (ht'.fits i) a.isLive a.alive fun x hx =>
      ha.isLive_ok (hlt i x (hself ▸ hx))
    obtain ⟨t'', hrun', hs⟩ := onList_ok ht' (hsize.symm ▸ hi) hrun hb
    simp only [hrun', ok_bind, ends_pure]
    refine ⟨hs.wf, hs.size.trans hsize, hs.numVars.trans hvars, fun j => ?_, ?_⟩
    · rw [hs.listAt]
      by_cases hj : j = i
      · rw [if_pos hj, if_pos (by simp [hj]), hj]
        show (t'.listAt i).filter _ = _
        rw [hself]
      · rw [if_neg hj, hlist]
        simp [hj]
    · show removed + ((t'.listAt i).length - ((t'.listAt i).filter a.alive).length) = _
      rw [hself, show removed = _ from hremoved, List.map_append, List.sum_append, List.map_singleton,
        List.sum_singleton]
  · rintro r ⟨hwf, hsize, hvars, hlist, hremoved⟩
    refine ⟨hwf, hsize, hvars, fun j => ?_, hremoved⟩
    rw [hlist]
    split
    · rfl
    · next hj =>
      rw [listAt_of_le (Nat.le_of_not_lt fun h => hj (List.mem_range.2 h))]
      rfl

theorem reduce_ends (ha : a.Wf) (ht : t.Wf) (hlt : ∀ j, ∀ x ∈ t.listAt j, x < a.len) :
    Ends E (reduce a t) fun r => r.2.Wf ∧ r.2.size = t.size ∧ r.2.numVars = t.numVars ∧
      ∀ j, r.2.listAt j = (t.listAt j).filter a.alive :=
  (reduce_ends_of_labelled ha.status ht hlt).imp fun _ h => ⟨h.1, h.2.1, h.2.2.1, h.2.2.2.1⟩

end Occurrences

end CnfSimp
