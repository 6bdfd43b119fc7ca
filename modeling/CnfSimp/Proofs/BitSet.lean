import CnfSimp.Proofs.Outcome
import CnfSimp.BitSet

/-!
# Sets of bits as finite sets

* `BitSet.insert_ok`, `BitSet.testAndSet_ok`, `BitSet.erase_ok`, `BitSet.contains_ok`: the operations on a bit below the
  capacity, each by what it does to `BitSet.mem`.
* `BitSet.toFinset`: the members as a finite set. `BitSet.count` is its size (`BitSet.count_eq_card`), `BitSet.toList`
  lists it in ascending order (`BitSet.toList_eq_sort`), and `BitSet.firstFrom` finds its least member from a bound on
  (`BitSet.firstFrom_eq_some_iff`, `BitSet.firstFrom_eq_none_iff`).
* `BitSet.Call`, `BitSet.runAll`: calls in sequence, and their answers. `BitSet.runAll_refines`: they act like calls on
  a finite set, whatever the capacity.
-/

namespace CnfSimp.BitSet

variable {s t : BitSet} {bit b i : Nat}

/-! ## Operations on members -/

theorem mem_empty (capacity i : Nat) : (empty capacity).mem i = false := bitAt_of_zero (by simp [empty]) i

theorem mem_clear (s : BitSet) (i : Nat) : s.clear.mem i = false := bitAt_of_zero (by simp [clear]) i

theorem checkBit_ok (h : bit < s.capacity) : s.checkBit bit = .ok ⟨bit, h⟩ := dif_pos h

theorem checkBit_error (h : ¬bit < s.capacity) : s.checkBit bit = .error (.bitOutOfRange bit s.capacity) := dif_neg h

theorem contains_ok (h : bit < s.capacity) : s.contains bit = .ok (s.mem bit) := by
  rw [contains, checkBit_ok h, ok_bind, shiftRight_and_one, s.getLsbD_word ⟨bit, h⟩ rfl]
  rfl

theorem contains_error (h : ¬bit < s.capacity) : s.contains bit = .error (.bitOutOfRange bit s.capacity) := by
  rw [contains, checkBit_error h, error_bind]

theorem testAndSet_eq (h : bit < s.capacity) : s.testAndSet bit = .ok (s.mem bit, s.insertAt ⟨bit, h⟩) := by
  rw [testAndSet, checkBit_ok h, ok_bind, and_bitMask, s.getLsbD_word ⟨bit, h⟩ rfl]
  rfl

/-- Adding a bit that there is room for, with the answer whether it is known. -/
theorem testAndSet_ok (h : bit < s.capacity) :
    ∃ t, s.testAndSet bit = .ok (s.mem bit, t) ∧ t.capacity = s.capacity ∧
      ∀ i, t.mem i = (s.mem i || decide (i = bit)) :=
  ⟨_, testAndSet_eq h, rfl, s.bitAt_set_or ⟨bit, h⟩⟩

theorem testAndSet_error (h : ¬bit < s.capacity) : s.testAndSet bit = .error (.bitOutOfRange bit s.capacity) := by
  rw [testAndSet, checkBit_error h, error_bind]

/-- Adding a bit that there is room for. -/
theorem insert_ok (h : bit < s.capacity) :
    ∃ t, s.insert bit = .ok t ∧ t.capacity = s.capacity ∧ ∀ i, t.mem i = (s.mem i || decide (i = bit)) := by
  obtain ⟨t, hrun, hcap, hmem⟩ := testAndSet_ok h
  exact ⟨t, by rw [insert, hrun, ok_bind]; rfl, hcap, hmem⟩

theorem insert_error (h : ¬bit < s.capacity) : s.insert bit = .error (.bitOutOfRange bit s.capacity) := by
  rw [insert, testAndSet_error h, error_bind]

/-- Removing a bit that there is room for. -/
theorem erase_ok (h : bit < s.capacity) :
    ∃ t, s.erase bit = .ok t ∧ t.capacity = s.capacity ∧ ∀ i, t.mem i = (s.mem i && !decide (i = bit)) :=
  ⟨s.eraseAt ⟨bit, h⟩, by rw [erase, checkBit_ok h, ok_bind]; rfl, rfl, s.bitAt_set_and_not ⟨bit, h⟩⟩

/-! ## The members as a list and their number -/

/-- The ones of all words are the ones of their row. -/
theorem totalOf_popCount (words : Array UInt64) :
    totalOf (words.toList.map popCount) = (List.range (64 * words.size)).countP (bitAt words) := by
  rw [totalOf_eq_sum]
  suffices h : ∀ n, n ≤ words.size →
      ((words.toList.take n).map popCount).sum = (List.range (64 * n)).countP (bitAt words) by
    have hall := h words.size (Nat.le_refl _)
    rwa [List.take_of_length_le (by simp)] at hall
  intro n
  induction n with
  | zero => exact fun _ => rfl
  | succ n ih =>
    intro hn
    have hword : (List.range 64).countP (fun j => bitAt words (64 * n + j)) =
        (List.range 64).countP words[n].toBitVec.getLsbD :=
      List.countP_congr fun j hj => by rw [bitAt_mul_add hn (List.mem_range.1 hj)]
    rw [← List.take_append_getElem (show n < words.toList.length from hn), List.map_append, List.sum_append,
      ih (by omega), Nat.mul_succ, List.range_add, List.countP_append, List.countP_map]
    simp only [List.map_cons, List.map_nil, List.sum_cons, List.sum_nil, Nat.add_zero, popCount_eq,
      Array.getElem_toList]
    exact congrArg (_ + ·) hword.symm

/-- The last word may have bits beyond the capacity, but none of them is one. -/
theorem count_eq (s : BitSet) : s.count = (List.range s.capacity).countP s.mem := by
  obtain ⟨n, hn⟩ : ∃ n, 64 * s.words.size = s.capacity + n := Nat.exists_eq_add_of_le (by rw [s.size_words]; omega)
  have hbeyond : (List.range n).countP (s.mem ∘ (s.capacity + ·)) = 0 :=
    List.countP_eq_zero.2 fun i _ => by simp [mem, s.bitAt_of_le]
  rw [count, totalOf_popCount, hn, List.range_add, List.countP_append, List.countP_map]
  exact congrArg (_ + ·) hbeyond

theorem membersFrom_eq (s : BitSet) (b : Nat) :
    s.membersFrom b = (List.range' b (s.capacity - b)).filter s.mem := by
  fun_induction membersFrom s b with
  | case1 b h =>
    have hfirst := s.firstFrom_isFirst b
    rw [h] at hfirst
    exact (List.filter_eq_nil_iff.2 fun i hi => by simp [hfirst i (List.mem_range'_1.1 hi).1]).symm
  | case2 b i h ih =>
    have hfirst := s.firstFrom_isFirst b
    rw [h] at hfirst
    obtain ⟨hbi, hmem, hmin⟩ := hfirst
    have hi := s.lt_of_mem hmem
    have hsplit : List.range' b (s.capacity - b) =
        List.range' b (i - b) ++ i :: List.range' (i + 1) (s.capacity - (i + 1)) := by
      have happend := List.range'_append_1 (s := b) (m := i - b) (n := s.capacity - (i + 1) + 1)
      rw [List.range'_succ, Nat.add_sub_cancel' hbi] at happend
      rw [happend]
      exact congrArg (List.range' b) (by omega)
    have hnone : (List.range' b (i - b)).filter s.mem = [] :=
      List.filter_eq_nil_iff.2 fun j hj => by
        have hj := List.mem_range'_1.1 hj
        simp [hmin j hj.1 (by omega)]
    rw [hsplit, List.filter_append, hnone, List.nil_append, List.filter_cons_of_pos hmem, ih]

theorem toList_eq (s : BitSet) : s.toList = (List.range s.capacity).filter s.mem := by
  rw [toList, membersFrom_eq, Nat.sub_zero, List.range_eq_range']

/-! ## Finite sets -/

/-- The members. -/
def toFinset (s : BitSet) : Finset Nat := (Finset.range s.capacity).filter (s.mem ·)

theorem mem_toFinset : i ∈ s.toFinset ↔ s.mem i = true := by
  rw [toFinset, Finset.mem_filter, Finset.mem_range]
  exact ⟨And.right, fun h => ⟨s.lt_of_mem h, h⟩⟩

theorem toFinset_empty (capacity : Nat) : (empty capacity).toFinset = ∅ :=
  Finset.eq_empty_of_forall_notMem fun i hi => by
    rw [mem_toFinset, mem_empty] at hi
    cases hi

theorem toFinset_clear (s : BitSet) : s.clear.toFinset = ∅ :=
  Finset.eq_empty_of_forall_notMem fun i hi => by
    rw [mem_toFinset, mem_clear] at hi
    cases hi

theorem toFinset_of_insert (h : ∀ i, t.mem i = (s.mem i || decide (i = bit))) :
    t.toFinset = Insert.insert bit s.toFinset := by
  ext i
  rw [mem_toFinset, h, Finset.mem_insert, mem_toFinset, Bool.or_eq_true, decide_eq_true_iff, or_comm]

theorem toFinset_of_erase (h : ∀ i, t.mem i = (s.mem i && !decide (i = bit))) :
    t.toFinset = s.toFinset.erase bit := by
  ext i
  rw [mem_toFinset, h, Finset.mem_erase, mem_toFinset, Bool.and_eq_true, Bool.not_eq_true', decide_eq_false_iff_not,
    and_comm]

/-- The list of the members is ascending and has each of them once. -/
theorem toList_eq_sort (s : BitSet) : s.toList = s.toFinset.sort := by
  have hsorted : s.toList.Pairwise (· ≤ ·) := by
    rw [toList_eq]
    exact (List.pairwise_lt_range.imp Nat.le_of_lt).filter _
  have hnodup : s.toList.Nodup := by
    rw [toList_eq]
    exact List.nodup_range.filter _
  have hmembers : s.toList.toFinset = s.toFinset := by
    ext i
    rw [toList_eq, List.mem_toFinset, List.mem_filter, List.mem_range, mem_toFinset]
    exact ⟨And.right, fun h => ⟨s.lt_of_mem h, h⟩⟩
  rw [← hmembers]
  exact ((List.toFinset_sort (· ≤ ·) hnodup).2 hsorted).symm

theorem count_eq_card (s : BitSet) : s.count = s.toFinset.card := by
  rw [← Finset.length_sort (· ≤ ·), ← toList_eq_sort, toList_eq, count_eq, List.countP_eq_length_filter]

theorem firstFrom_eq_none_iff : s.firstFrom b = none ↔ ∀ i ∈ s.toFinset, i < b := by
  have hfirst := s.firstFrom_isFirst b
  constructor
  · intro h i hi
    rw [h] at hfirst
    refine Nat.lt_of_not_le fun hbi => ?_
    rw [mem_toFinset, hfirst i hbi] at hi
    cases hi
  · intro h
    cases hr : s.firstFrom b with
    | none => rfl
    | some i =>
      rw [hr] at hfirst
      exact absurd (h i (mem_toFinset.2 hfirst.2.1)) (Nat.not_lt_of_le hfirst.1)

theorem firstFrom_eq_some_iff : s.firstFrom b = some i ↔ IsLeast {j | j ∈ s.toFinset ∧ b ≤ j} i := by
  have hleast {i : Nat} (h : s.firstFrom b = some i) : IsLeast {j | j ∈ s.toFinset ∧ b ≤ j} i := by
    have hfirst := s.firstFrom_isFirst b
    rw [h] at hfirst
    obtain ⟨hbi, hmem, hmin⟩ := hfirst
    refine ⟨⟨mem_toFinset.2 hmem, hbi⟩, fun j ⟨hj, hbj⟩ => Nat.le_of_not_lt fun hji => ?_⟩
    rw [mem_toFinset, hmin j hbj hji] at hj
    cases hj
  refine ⟨hleast, fun h => ?_⟩
  cases hr : s.firstFrom b with
  | none => exact absurd (firstFrom_eq_none_iff.1 hr i h.1.1) (Nat.not_lt_of_le h.1.2)
  | some j => rw [(hleast hr).unique h]

/-- What is read off a set is what is read off a finite set of numbers. -/
structure Agrees (s : BitSet) (F : Finset Nat) : Prop where
  contains : ∀ bit < s.capacity, s.contains bit = .ok (decide (bit ∈ F))
  count : s.count = F.card
  toList : s.toList = F.sort
  least : ∀ b i, s.firstFrom b = some i ↔ IsLeast {j | j ∈ F ∧ b ≤ j} i
  none : ∀ b, s.firstFrom b = none ↔ ∀ i ∈ F, i < b

theorem agrees_toFinset (s : BitSet) : s.Agrees s.toFinset where
  contains bit h := by
    rw [contains_ok h, ← Bool.decide_coe (s.mem bit)]
    exact congrArg Except.ok (decide_eq_decide.2 mem_toFinset.symm)
  count := s.count_eq_card
  toList := s.toList_eq_sort
  least _ _ := firstFrom_eq_some_iff
  none _ := firstFrom_eq_none_iff

/-! ## Calls in sequence -/

/-- The calls that change a set. -/
inductive Call where
  | set (bit : Nat)
  | testAndSet (bit : Nat)
  | clear (bit : Nat)
  | clearAll

namespace Call

/-- The bit that a call names is below the capacity. -/
def Within (capacity : Nat) : Call → Prop
  | set bit | testAndSet bit | clear bit => bit < capacity
  | clearAll => True

/-- The answer of a call, if it has one, and the set behind it. -/
def run (s : BitSet) : Call → Except Fault (Option Bool × BitSet)
  | set bit => do
    let t ← s.insert bit
    return (none, t)
  | testAndSet bit => do
    let (was, t) ← s.testAndSet bit
    return (some was, t)
  | clear bit => do
    let t ← s.erase bit
    return (none, t)
  | clearAll => return (none, s.clear)

/-- The same for a finite set of numbers. -/
def onFinset (F : Finset Nat) : Call → Option Bool × Finset Nat
  | set bit => (none, Insert.insert bit F)
  | testAndSet bit => (some (decide (bit ∈ F)), Insert.insert bit F)
  | clear bit => (none, F.erase bit)
  | clearAll => (none, ∅)

theorem run_ok {q : Call} (h : q.Within s.capacity) : ∃ t, q.run s = .ok ((q.onFinset s.toFinset).1, t) ∧
    t.capacity = s.capacity ∧ t.toFinset = (q.onFinset s.toFinset).2 := by
  cases q with
  | set bit =>
    obtain ⟨t, hrun, hcap, hmem⟩ := insert_ok h
    exact ⟨t, by rw [run, hrun, ok_bind]; rfl, hcap, toFinset_of_insert hmem⟩
  | testAndSet bit =>
    obtain ⟨t, hrun, hcap, hmem⟩ := testAndSet_ok h
    have hwas : s.mem bit = decide (bit ∈ s.toFinset) := by
      rw [← Bool.decide_coe (s.mem bit)]
      exact decide_eq_decide.2 mem_toFinset.symm
    refine ⟨t, ?_, hcap, toFinset_of_insert hmem⟩
    rw [run, hrun, ok_bind, hwas]
    rfl
  | clear bit =>
    obtain ⟨t, hrun, hcap, hmem⟩ := erase_ok h
    exact ⟨t, by rw [run, hrun, ok_bind]; rfl, hcap, toFinset_of_erase hmem⟩
  | clearAll => exact ⟨s.clear, rfl, rfl, toFinset_clear s⟩

end Call

/-- The answers of calls in sequence, and the set behind them. -/
def runAll : List Call → BitSet → Except Fault (List (Option Bool) × BitSet)
  | [], s => return ([], s)
  | q :: qs, s => do
    let (r, t) ← q.run s
    let (rs, t) ← runAll qs t
    return (r :: rs, t)

/-- The same for a finite set of numbers. -/
def onFinsetAll : List Call → Finset Nat → List (Option Bool) × Finset Nat
  | [], F => ([], F)
  | q :: qs, F =>
    let rest := onFinsetAll qs (q.onFinset F).2
    ((q.onFinset F).1 :: rest.1, rest.2)

theorem runAll_ok {calls : List Call} (h : ∀ q ∈ calls, q.Within s.capacity) :
    ∃ t, runAll calls s = .ok ((onFinsetAll calls s.toFinset).1, t) ∧ t.capacity = s.capacity ∧
      t.toFinset = (onFinsetAll calls s.toFinset).2 := by
  induction calls generalizing s with
  | nil => exact ⟨s, rfl, rfl, rfl⟩
  | cons q calls ih =>
    obtain ⟨u, hstep, hcap, hset⟩ := Call.run_ok (h q List.mem_cons_self)
    obtain ⟨t, hrun, hcap', hset'⟩ := ih (s := u) fun p hp => hcap ▸ h p (List.mem_cons_of_mem q hp)
    rw [hset] at hrun hset'
    refine ⟨t, ?_, hcap'.trans hcap, hset'⟩
    rw [runAll, hstep, ok_bind]
    dsimp only
    rw [hrun, ok_bind]
    rfl

/-- Whatever the capacity, calls on bits below it leave an empty set with the members that they leave a finite set of
numbers with, and answer the same. A set can be made unless its capacity and one more word exceed 64 bits. -/
theorem runAll_refines (capacity : Nat) :
    (allocate capacity = if capacity + 64 < 2 ^ 64 then .ok (empty capacity) else .error .overflow) ∧
    ∀ calls : List Call, (∀ q ∈ calls, q.Within capacity) → ∃ s,
      runAll calls (empty capacity) = .ok ((onFinsetAll calls ∅).1, s) ∧ s.capacity = capacity ∧
        s.Agrees (onFinsetAll calls ∅).2 := by
  constructor
  · by_cases h : capacity + 64 < 2 ^ 64
    · rw [allocate, sum64_ok h, ok_bind, if_pos h]
      rfl
    · have hover : sum64 capacity 64 = .error .overflow := if_neg h
      rw [allocate, hover, error_bind, if_neg h]
  · intro calls h
    obtain ⟨s, hrun, hcap, hset⟩ := runAll_ok (s := empty capacity) h
    rw [toFinset_empty] at hrun hset
    exact ⟨s, hrun, hcap, hset ▸ s.agrees_toFinset⟩

/-- Seventy bits need a second word, and most of its bits stand for nothing. -/
theorem runAll_refines_seventy_bits : ∃ s,
    runAll [.set 69, .testAndSet 3, .testAndSet 69, .set 64, .clear 3] (empty 70) =
      .ok ([none, some false, some true, none, none], s) ∧
    s.toList = [64, 69] ∧ s.count = 2 ∧ s.contains 3 = .ok false ∧ s.firstFrom 4 = some 64 ∧
      s.firstFrom 70 = none := by
  let calls : List Call := [.set 69, .testAndSet 3, .testAndSet 69, .set 64, .clear 3]
  have hset : (onFinsetAll calls ∅).2 = {64, 69} := by decide
  obtain ⟨s, hrun, hcap, hagrees⟩ := (runAll_refines 70).2 calls (by simp [calls, Call.Within])
  rw [hset] at hagrees
  refine ⟨s, hrun, ?_, hagrees.count, ?_, (hagrees.least 4 64).2 ?_, (hagrees.none 70).2 (by decide)⟩
  · rw [hagrees.toList]
    exact (List.toFinset_sort (· ≤ ·) (l := [64, 69]) (by decide)).2 (by decide)
  · exact hagrees.contains 3 (by rw [hcap]; decide)
  · exact ⟨⟨by decide, by decide⟩, fun j hj => by
      have hj : j = 64 ∨ j = 69 := by simpa using hj.1
      omega⟩

end CnfSimp.BitSet
