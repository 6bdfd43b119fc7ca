import CnfSimp.Proofs.Occurrences.Build

/-!
# Occurrence lists as plain lists

All lists of a table share one row of entries, and a list may be pushed more entries than it has room for. Nevertheless
each of them is a plain list of its own, which takes no more entries than its capacity.

* `ListOp`: what can be done to a list. `ListOp.apply` and `ListOp.answer` say it of a plain list, and `ListOp.op` is
  the operation on a bounded one. The two agree (`ListOp.run?_op`).
* `Occurrences.act`: an operation on the list of a literal. `Occurrences.after`: the table after some of them, those
  that fault included. `Occurrences.plain`: what they make of the plain list of a literal.
* `Occurrences.Mirrors`: the table that a layout and some operations lead to. One more operation leads to another
  (`Occurrences.Mirrors.snoc`), so that `Occurrences.lists_are_plain` is an induction over the operations.
-/

namespace CnfSimp

/-- What can be done to a list. -/
inductive ListOp where
  | push (x : Nat)
  | remove (x : Nat)
  | retain (keep : Nat → Bool)
  | sort

namespace ListOp

/-- The answers: whether there was room, whether the entry was there, how many entries were dropped. -/
def Answer : ListOp → Type
  | push _ | remove _ => Bool
  | retain _ => Nat
  | sort => Unit

/-- The operation on a bounded list. -/
def op : (q : ListOp) → Update (Bounded Nat) q.Answer
  | push x => Bounded.push x
  | remove x => Bounded.remove x
  | retain keep => Bounded.retain fun x => .ok (keep x)
  | sort => Bounded.sort fun x y => x ≤ y

/-- What the operation makes of a plain list for `cap` entries. -/
def apply (cap : Nat) (xs : List Nat) : ListOp → List Nat
  | push x => if xs.length < cap then xs ++ [x] else xs
  | remove x => xs.erase x
  | retain keep => xs.filter keep
  | sort => xs.insertionSort (· ≤ ·)

/-- What the operation answers on a plain list for `cap` entries. -/
def answer (cap : Nat) (xs : List Nat) : (q : ListOp) → q.Answer
  | push _ => decide (xs.length < cap)
  | remove x => xs.contains x
  | retain keep => xs.countP fun x => !keep x
  | sort => ()

/-- The number of pushes that the operation is. -/
def pushes : ListOp → Nat
  | push _ => 1
  | remove _ | retain _ | sort => 0

end ListOp

namespace Bounded

variable {b b' : Bounded Nat}

/-- Where a list becomes a part of itself, the pushes that count are those of its entries. -/
theorem rawLen_refill_le (hb : b.Fits) {xs : List Nat} (h : (refill xs).run? b = .ok ((), b'))
    (hxs : xs.length ≤ b.contents.length) : b'.window.rawLen.toNat ≤ b.window.rawLen.toNat := by
  cases h
  have hlen : b.contents.length ≤ b.window.rawLen.toNat := by
    rw [length_contents hb]
    exact Nat.min_le_left _ _
  have hmod : (UInt32.ofNat xs.length).toNat ≤ xs.length := Nat.mod_le _ _
  exact hmod.trans (hxs.trans hlen)

end Bounded

/-- An operation on a bounded list is the one on the plain list. -/
theorem ListOp.run?_op {b : Bounded Nat} (hb : b.Fits) (q : ListOp) (h : b.window.rawLen.toNat + q.pushes < 2 ^ 32) :
    ∃ b', q.op.run? b = .ok (q.answer b.window.cap.toNat b.contents, b') ∧
      b.Edits b' (q.apply b.window.cap.toNat b.contents) ∧
      b'.window.rawLen.toNat ≤ b.window.rawLen.toNat + q.pushes ∧
      (q.pushes = 1 → b'.window.rawLen.toNat = b.window.rawLen.toNat + 1) := by
  cases q with
  | push x =>
    obtain ⟨b', hrun, hedits, hraw⟩ := Bounded.push_edits hb x h
    exact ⟨b', hrun, hedits, Nat.le_of_eq hraw, fun _ => hraw⟩
  | remove x =>
    obtain ⟨b', hrun, hbec⟩ := Bounded.remove_ok hb x
    refine ⟨b', hrun, hbec.edits, ?_, fun h => absurd h Nat.zero_ne_one⟩
    rw [Bounded.run?_remove hb, bind_eq_ok_iff] at hrun
    obtain ⟨⟨_, b₁⟩, hrefill, ⟨⟩⟩ := hrun
    exact Bounded.rawLen_refill_le hb hrefill List.length_erase_le
  | retain keep =>
    obtain ⟨b', hrun, hbec⟩ := Bounded.retain_ok hb (fun x => .ok (keep x)) keep fun _ _ => rfl
    have hcount : b.contents.length - (b.contents.filter keep).length = b.contents.countP fun x => !keep x := by
      have := List.length_eq_countP_add_countP keep (l := b.contents)
      rw [← List.countP_eq_length_filter]
      simp only [Bool.not_eq_true, Bool.decide_eq_false] at this
      omega
    refine ⟨b', hrun.trans (by rw [hcount]; rfl), hbec.edits, ?_, fun h => absurd h Nat.zero_ne_one⟩
    rw [Bounded.run?_retain hb, selectM_ok (q := keep) fun _ _ => rfl, ok_bind, bind_eq_ok_iff] at hrun
    obtain ⟨⟨_, b₁⟩, hrefill, ⟨⟩⟩ := hrun
    exact Bounded.rawLen_refill_le hb hrefill (List.length_filter_le _ _)
  | sort =>
    obtain ⟨b', hrun, hbec⟩ := Bounded.sort_ok hb fun x y => x ≤ y
    refine ⟨b', hrun, ?_, ?_, fun h => absurd h Nat.zero_ne_one⟩
    · rw [apply, ← Occurrences.sortBy_eq_insertionSort]
      exact hbec.edits
    · simp only [Bounded.sort, Update.run?_bind, Update.run?_get, Update.run?_lift, Bounded.entries_ok hb, ok_bind,
        Update.run?_modify] at hrun
      cases hrun
      exact Nat.le_refl _

namespace Occurrences

variable {t t' : Occurrences} {caps : List UInt32} {ops : List (Lit × ListOp)} {l k : Lit} {q : ListOp} {i j : Nat}

/-- An operation on the list of a literal. -/
def act (l : Lit) (q : ListOp) : Update Occurrences q.Answer := onList l.index q.op

/-- The table after some operations, those that fault included. -/
def after (t : Occurrences) (ops : List (Lit × ListOp)) : Occurrences :=
  ops.foldl (fun t p => ((act p.1 p.2).run.run t).2) t

/-- The capacity that a layout gives to the list of a literal. -/
def capOf (caps : List UInt32) (l : Lit) : Nat := (caps[l.index]?.getD 0).toNat

/-- What some operations make of the plain list of a literal. -/
def plain (caps : List UInt32) (l : Lit) (ops : List (Lit × ListOp)) : List Nat :=
  ops.foldl (fun xs p => if p.1 = l then p.2.apply (capOf caps l) xs else xs) []

/-- The number of pushes on the list of a literal. -/
def pushes (l : Lit) (ops : List (Lit × ListOp)) : Nat := (ops.map fun p => if p.1 = l then p.2.pushes else 0).sum

theorem after_snoc (t : Occurrences) (ops : List (Lit × ListOp)) (l : Lit) (q : ListOp) :
    t.after (ops ++ [(l, q)]) = ((act l q).run.run (t.after ops)).2 := by
  unfold after
  rw [List.foldl_append]
  rfl

theorem plain_snoc (caps : List UInt32) (k l : Lit) (ops : List (Lit × ListOp)) (q : ListOp) :
    plain caps k (ops ++ [(l, q)]) = if l = k then q.apply (capOf caps k) (plain caps k ops) else plain caps k ops := by
  unfold plain
  rw [List.foldl_append]
  rfl

theorem pushes_snoc (k l : Lit) (ops : List (Lit × ListOp)) (q : ListOp) :
    pushes k (ops ++ [(l, q)]) = pushes k ops + if l = k then q.pushes else 0 := by
  simp [pushes]

theorem pushes_le_length (l : Lit) (ops : List (Lit × ListOp)) : pushes l ops ≤ ops.length := by
  induction ops with
  | nil => exact Nat.le_refl _
  | cons p ops ih =>
    have hone : (if p.1 = l then p.2.pushes else 0) ≤ 1 := by
      split
      · cases p.2 <;> simp [ListOp.pushes]
      · exact Nat.zero_le _
    rw [pushes, List.map_cons, List.sum_cons, List.length_cons, Nat.add_comm ops.length]
    exact Nat.add_le_add hone ih

/-- The table is what a layout and some operations lead to: the windows of the layout, and in them plain lists. -/
structure Mirrors (t : Occurrences) (caps : List UInt32) (ops : List (Lit × ListOp)) : Prop where
  laid : t.Laid
  size : t.size = caps.length
  room : (caps.map UInt32.toNat).sum ≤ t.entries.size
  base : ∀ i < caps.length, (t.boundedAt i).window.base = offset caps i
  cap : ∀ i, (t.boundedAt i).window.cap = caps[i]?.getD 0
  rawLen_le : ∀ l : Lit, (t.boundedAt l.index).window.rawLen.toNat ≤ pushes l ops
  rawLen_eq : ∀ l : Lit, l.index < t.size → (∀ p ∈ ops, p.2.pushes = 1) →
    (t.boundedAt l.index).window.rawLen.toNat = pushes l ops
  listAt : ∀ l : Lit, l.index < t.size → t.listAt l.index = plain caps l ops

/-- A layout leads to empty lists. -/
theorem Blank.mirrors (h : t.Blank caps) : t.Mirrors caps [] where
  laid := h.wf.laid
  size := h.size
  room := h.room
  base := h.base
  cap := h.cap
  rawLen_le l := by
    rw [h.rawLen]
    exact Nat.zero_le _
  rawLen_eq l _ _ := by
    rw [h.rawLen]
    rfl
  listAt l _ := h.listAt _

/-- One more operation. -/
theorem Mirrors.snoc (ht : t.Mirrors caps ops) (h32 : pushes l (ops ++ [(l, q)]) < 2 ^ 32) (hl : l.index < t.size) :
    ∃ t', (act l q).run? t = .ok (q.answer (capOf caps l) (plain caps l ops), t') ∧
      t'.Mirrors caps (ops ++ [(l, q)]) ∧ t'.size = t.size ∧ t'.numVars = t.numVars := by
  rw [pushes_snoc, if_pos rfl] at h32
  have hraw := ht.rawLen_le l
  obtain ⟨b, hrun, hedits, hrawb, hrawq⟩ := ListOp.run?_op (ht.laid.fits l.index) q (by omega)
  obtain ⟨t', hrun', hc⟩ := onList_edits ht.laid hl hrun hedits
  have hcap : (t.boundedAt l.index).window.cap.toNat = capOf caps l := congrArg UInt32.toNat (ht.cap l.index)
  have hlist : (t.boundedAt l.index).contents = plain caps l ops := ht.listAt l hl
  rw [hcap, hlist] at hrun'
  refine ⟨t', hrun', ⟨hc.laid, hc.size.trans ht.size, hc.entries.symm ▸ ht.room, fun i hi => ?_, fun i => ?_,
    fun k => ?_, fun k hk hone => ?_, fun k hk => ?_⟩, hc.size, hc.numVars⟩
  · rw [hc.window]
    split
    · next h =>
      rw [hedits.base, ← h]
      exact ht.base i hi
    · exact ht.base i hi
  · rw [hc.window]
    split
    · next h => rw [hedits.cap, ht.cap, h]
    · exact ht.cap i
  · rw [hc.window, pushes_snoc]
    have := ht.rawLen_le k
    by_cases hk : k = l
    · rw [if_pos (congrArg _ hk), if_pos hk.symm, hk]
      omega
    · rw [if_neg (mt Lit.index_inj.1 hk), if_neg (Ne.symm hk)]
      exact this
  · have hops := ht.rawLen_eq k (hc.size ▸ hk) fun p hp => hone p (List.mem_append_left _ hp)
    have hq : q.pushes = 1 := hone (l, q) (List.mem_append_right _ (List.mem_singleton_self _))
    rw [hc.window, pushes_snoc]
    by_cases hkl : k = l
    · rw [if_pos (congrArg _ hkl), if_pos hkl.symm, hrawq hq, hq, ← hkl, hops]
    · rw [if_neg (mt Lit.index_inj.1 hkl), if_neg (Ne.symm hkl)]
      exact hops
  · rw [hc.listAt, plain_snoc]
    by_cases hkl : k = l
    · rw [if_pos (congrArg _ hkl), if_pos hkl.symm, hkl, hcap, hlist]
    · rw [if_neg (mt Lit.index_inj.1 hkl), if_neg (Ne.symm hkl)]
      exact ht.listAt k (hc.size ▸ hk)

/-- After any operations the table is what they lead to. -/
theorem Mirrors.after {t₀ : Occurrences} (ht : t₀.Mirrors caps []) (ops : List (Lit × ListOp))
    (h32 : ∀ l, pushes l ops < 2 ^ 32) :
    (t₀.after ops).Mirrors caps ops ∧ (t₀.after ops).size = t₀.size ∧ (t₀.after ops).numVars = t₀.numVars := by
  induction ops using List.reverseRecOn with
  | nil => exact ⟨ht, rfl, rfl⟩
  | append_singleton ops p ih =>
    obtain ⟨l, q⟩ := p
    obtain ⟨hops, hsize, hnum⟩ := ih fun k => by
      have := h32 k
      rw [pushes_snoc] at this
      omega
    rw [after_snoc]
    by_cases hl : l.index < (t₀.after ops).size
    · obtain ⟨t', hrun, ht', hsize', hnum'⟩ := hops.snoc (q := q) (h32 l) hl
      rw [Update.run?_eq_ok_iff.1 hrun]
      exact ⟨ht', hsize'.trans hsize, hnum'.trans hnum⟩
    · rw [act, run_onList_of_le (Nat.le_of_not_lt hl)]
      have hne {k : Lit} (hk : k.index < (t₀.after ops).size) : l ≠ k := fun h => hl (h ▸ hk)
      refine ⟨⟨hops.laid, hops.size, hops.room, hops.base, hops.cap, fun k => ?_, fun k hk hone => ?_, fun k hk => ?_⟩,
        hsize, hnum⟩
      · rw [pushes_snoc]
        exact Nat.le_add_right_of_le (hops.rawLen_le k)
      · rw [pushes_snoc, if_neg (hne hk)]
        exact hops.rawLen_eq k hk fun p hp => hone p (List.mem_append_left _ hp)
      · rw [plain_snoc, if_neg (hne hk)]
        exact hops.listAt k hk

/-- The lists have the given capacities and lie one right behind the other, from the first entry on. -/
structure Tiles (t : Occurrences) (caps : List UInt32) : Prop where
  caps : t.lists.toList.map Window.cap = caps
  first : ∀ w, t.lists[0]? = some w → w.base = 0
  next : ∀ i w w', t.lists[i]? = some w → t.lists[i + 1]? = some w' → w'.base = w.base + w.cap.toNat
  apart : ∀ (i j : Nat) w w', i < j → t.lists[i]? = some w → t.lists[j]? = some w' → w.base + w.cap.toNat ≤ w'.base
  inside : ∀ w ∈ t.lists, w.base + w.cap.toNat ≤ t.entries.size

theorem Mirrors.tiles (h : t.Mirrors caps ops) : t.Tiles caps := by
  have hwin {i : Nat} {w : Window} (hw : t.lists[i]? = some w) : i < caps.length ∧ (t.boundedAt i).window = w := by
    refine ⟨h.size ▸ (Array.getElem?_eq_some_iff.1 hw).1, ?_⟩
    simp only [boundedAt, hw, Option.getD_some]
  have hlt {i : Nat} {w : Window} (hw : t.lists[i]? = some w) : caps[i]? = some w.cap := by
    obtain ⟨hi, rfl⟩ := hwin hw
    rw [h.cap, List.getElem?_eq_getElem hi, Option.getD_some]
  have hbase {i : Nat} {w : Window} (hw : t.lists[i]? = some w) : w.base = offset caps i := by
    obtain ⟨hi, rfl⟩ := hwin hw
    exact h.base i hi
  have hend {i : Nat} {w : Window} (hw : t.lists[i]? = some w) : w.base + w.cap.toNat = offset caps (i + 1) := by
    rw [hbase hw, offset_succ (hlt hw)]
  refine ⟨List.ext_getElem? fun i => ?_, fun w hw => hbase hw, fun i w w' hw hw' => ?_, fun i j w w' hij hw hw' => ?_,
    fun w hw => ?_⟩
  · rw [List.getElem?_map, Array.getElem?_toList]
    cases hw : t.lists[i]? with
    | some w => exact (hlt hw).symm
    | none =>
      have := Array.getElem?_eq_none_iff.1 hw
      rw [List.getElem?_eq_none (h.size ▸ this)]
      rfl
  · rw [hbase hw', hend hw]
  · rw [hend hw, hbase hw']
    exact offset_le_offset caps hij
  · obtain ⟨i, hw⟩ := Array.mem_iff_getElem?.1 hw
    have hle := offset_le_offset caps (Nat.succ_le_of_lt (hwin hw).1)
    rw [hend hw]
    exact Nat.le_trans hle (by rw [offset, List.take_length]; exact h.room)

end Occurrences

end CnfSimp
