import CnfSimp.Proofs.Occurrences.Plain

/-!
# Overflows

A push that finds its list full writes nothing. It is counted all the same, so that the list shows it afterwards, and
so does the scan over the lists of the variables. A table for `n` variables has two more lists, though, for the literals
of the variable `n`: they take pushes, and the scan passes over them.

* `Occurrences.mem_scanned`: the scan reaches the literals of the variables.
* `Occurrences.run?_pushes`: some pushes one after another, and those that were refused.
* `Occurrences.violated_iff_refused`: the scan reports the refused pushes of the variables, and no others.
-/

namespace CnfSimp.Occurrences

variable {t t₀ : Occurrences} {caps : List UInt32} {ps : List (Lit × Nat)} {l : Lit} {n : Nat}

/-- The scan reaches the literals of the variables. -/
theorem mem_scanned : l ∈ t.scanned ↔ l.var < t.numVars := by
  have hvar (v : Nat) (b : Bool) : (Lit.ofVar v b).var ≤ v := by
    have hcode : (Lit.ofVar v b).index ≤ 2 * v + b.toNat := Nat.mod_le _ _
    have := (Lit.ofVar v b).index_eq
    have := Bool.toNat_lt b
    omega
  unfold scanned
  rw [List.mem_flatMap]
  constructor
  · rintro ⟨v, hv, hl⟩
    have hv := List.mem_range.1 hv
    rcases List.mem_cons.1 hl with rfl | hl
    · exact Nat.lt_of_le_of_lt (hvar v false) hv
    · rw [List.mem_singleton.1 hl]
      exact Nat.lt_of_le_of_lt (hvar v true) hv
  · intro hl
    refine ⟨l.var, List.mem_range.2 hl, ?_⟩
    rw [List.mem_cons, List.mem_singleton]
    exact (Lit.var_eq_iff_positive_or_negative l.var_lt).1 rfl

/-- Pushes as operations. -/
def pushOps (ps : List (Lit × Nat)) : List (Lit × ListOp) := ps.map fun p => (p.1, .push p.2)

theorem pushOps_snoc (ps : List (Lit × Nat)) (l : Lit) (x : Nat) :
    pushOps (ps ++ [(l, x)]) = pushOps ps ++ [(l, .push x)] := List.map_append

theorem pushes_pushOps (l : Lit) (ps : List (Lit × Nat)) : pushes l (pushOps ps) = ps.countP fun p => p.1 = l := by
  induction ps using List.reverseRecOn with
  | nil => rfl
  | append_singleton ps p ih =>
    obtain ⟨k, x⟩ := p
    rw [pushOps_snoc, pushes_snoc, ih, List.countP_append, List.countP_singleton]
    simp [ListOp.pushes]

/-- A list that is only pushed to holds the first entries that were pushed. -/
theorem length_plain_pushOps (caps : List UInt32) (l : Lit) (ps : List (Lit × Nat)) :
    (plain caps l (pushOps ps)).length = min (ps.countP fun p => p.1 = l) (capOf caps l) := by
  induction ps using List.reverseRecOn with
  | nil => exact (Nat.zero_min _).symm
  | append_singleton ps p ih =>
    obtain ⟨k, x⟩ := p
    rw [pushOps_snoc, plain_snoc, List.countP_append, List.countP_singleton]
    by_cases hk : k = l
    · rw [if_pos hk, ListOp.apply]
      split
      · rw [List.length_append, List.length_singleton, ih]
        simp only [hk, decide_true, if_true]
        omega
      · rw [ih]
        simp only [hk, decide_true, if_true]
        omega
    · rw [if_neg hk, ih]
      simp [hk]

/-- Pushes one after another: those on a list beyond its capacity are refused. -/
theorem run?_pushes (ht : t₀.Mirrors caps []) (hps : ∀ p ∈ ps, p.1.index < t₀.size)
    (h32 : ∀ l, (ps.countP fun p => p.1 = l) < 2 ^ 32) :
    ∃ flags, (ps.mapM fun p => push p.1 p.2).run? t₀ = .ok (flags, t₀.after (pushOps ps)) ∧
      flags.length = ps.length ∧
      ∀ l, (∃ x, ((l, x), false) ∈ ps.zip flags) ↔ capOf caps l < ps.countP fun p => p.1 = l := by
  induction ps using List.reverseRecOn with
  | nil => exact ⟨[], rfl, rfl, by simp⟩
  | append_singleton ps p ih =>
    obtain ⟨k, x⟩ := p
    have hcount (l : Lit) : (ps ++ [(k, x)]).countP (fun p => p.1 = l) =
        ps.countP (fun p => p.1 = l) + if k = l then 1 else 0 := by
      rw [List.countP_append, List.countP_singleton]
      simp
    obtain ⟨flags, hrun, hlen, hrefused⟩ := ih (fun p hp => hps p (List.mem_append_left _ hp)) fun l => by
      have := h32 l
      rw [hcount] at this
      omega
    have hk := hps (k, x) (List.mem_append_right _ (List.mem_singleton_self _))
    obtain ⟨hops, hsize, -⟩ := ht.after (pushOps ps) fun l => by
      have := h32 l
      rw [hcount] at this
      rw [pushes_pushOps]
      omega
    obtain ⟨t', hrun', -⟩ := hops.snoc (l := k) (q := .push x)
      (by rw [← pushOps_snoc, pushes_pushOps]; exact h32 k) (hsize.symm ▸ hk)
    have hpush : (push k x).run? (t₀.after (pushOps ps)) =
        .ok (decide ((plain caps k (pushOps ps)).length < capOf caps k), t₀.after (pushOps (ps ++ [(k, x)]))) := by
      rw [pushOps_snoc, after_snoc, Update.run?_eq_ok_iff.1 hrun']
      exact hrun'
    refine ⟨flags ++ [decide ((plain caps k (pushOps ps)).length < capOf caps k)], ?_, ?_, fun l => ?_⟩
    · rw [List.mapM_append, Update.run?_bind, hrun, ok_bind]
      simp [hpush]
    · simp [hlen]
    · rw [hcount, List.zip_append hlen.symm]
      simp only [List.mem_append, exists_or, hrefused, List.zip_cons_cons, List.zip_nil_right, List.mem_singleton,
        Prod.mk.injEq, length_plain_pushOps]
      by_cases hkl : k = l
      · subst hkl
        simp
        omega
      · simp [hkl, Ne.symm hkl]

/-- In a layout for a number of entries that fits into 64 bits, a list has overflowed after pushes if and only if one of
them was refused there. The scan reports it if and only if it was on a list of one of the variables: pushes that are
refused go unnoticed if and only if all of them are on the last two lists, which are there for one variable more. -/
theorem violated_iff_refused (h : (empty n).layout caps = .ok t₀) (h64 : (caps.map UInt32.toNat).sum < 2 ^ 64)
    (hps : ∀ p ∈ ps, p.1.index < t₀.size) (h32 : ∀ l, (ps.countP fun p => p.1 = l) < 2 ^ 32) :
    ∃ flags t v, (ps.mapM fun p => push p.1 p.2).run? t₀ = .ok (flags, t) ∧ flags.length = ps.length ∧
      t.violated = .ok v ∧
      (∀ l, l.index < t.size → ∃ w, t.lists[l.index]? = some w ∧
        (w.overflowed ↔ ∃ x, ((l, x), false) ∈ ps.zip flags)) ∧
      (v = true ↔ ∃ l x, ((l, x), false) ∈ ps.zip flags ∧ l.var < n) ∧
      (v = false ↔ ∀ l x, ((l, x), false) ∈ ps.zip flags → l.var = n) := by
  have hlen : caps.length = (empty n).size := by
    by_contra hne
    rw [layout_error hne] at h
    cases h
  obtain ⟨t₁, hlayout, hblank, hnum⟩ := layout_ok caps hlen h64
  rw [h, Except.ok.injEq] at hlayout
  subst hlayout
  have hn : (empty n).size = litSlots n := Array.size_replicate
  have hsize₀ : t₀.size = litSlots n := by rw [hblank.size, hlen, hn]
  obtain ⟨flags, hrun, hflags, hrefused⟩ := run?_pushes hblank.mirrors hps h32
  obtain ⟨hops, hsize, hnum'⟩ := hblank.mirrors.after (pushOps ps) fun l => by
    rw [pushes_pushOps]
    exact h32 l
  have hpush : ∀ p ∈ pushOps ps, p.2.pushes = 1 := fun p hp => by
    obtain ⟨_, _, rfl⟩ := List.mem_map.1 hp
    rfl
  generalize t₀.after (pushOps ps) = t at hrun hops hsize hnum'
  have hnum : t.numVars = n := hnum'.trans hnum
  have hover {l : Lit} (hl : l.index < t.size) :
      (t.boundedAt l.index).window.overflowed ↔ ∃ x, ((l, x), false) ∈ ps.zip flags := by
    rw [hrefused, Window.overflowed, decide_eq_true_iff, UInt32.lt_iff_toNat_lt, hops.rawLen_eq l hl hpush,
      pushes_pushOps, hops.cap]
    rfl
  have hscan : t.size = litSlots t.numVars := by rw [hsize, hsize₀, hnum]
  have hreach (l : Lit) (x : Nat) (hl : ((l, x), false) ∈ ps.zip flags) : l.index < t.size := by
    rw [hsize]
    exact hps _ (List.of_mem_zip hl).1
  have hv : (t.scanned.any fun l => (t.boundedAt l.index).window.overflowed) = true ↔
      ∃ l x, ((l, x), false) ∈ ps.zip flags ∧ l.var < n := by
    rw [List.any_eq_true]
    constructor
    · rintro ⟨l, hl, ho⟩
      obtain ⟨x, hx⟩ := (hover (hscan.symm ▸ lt_litSlots_of_mem_scanned hl)).1 ho
      exact ⟨l, x, hx, hnum ▸ mem_scanned.1 hl⟩
    · rintro ⟨l, x, hx, hl⟩
      exact ⟨l, mem_scanned.2 (hnum.symm ▸ hl), (hover (hreach l x hx)).2 ⟨x, hx⟩⟩
  refine ⟨flags, t, _, hrun, hflags, violated_eq hscan, fun l hl => ?_, hv, ?_⟩
  · exact ⟨(t.boundedAt l.index).window, by simp [boundedAt, Array.getElem?_eq_getElem hl], hover hl⟩
  · rw [← Bool.not_eq_true, hv]
    constructor
    · intro hnone l x hx
      have hle : l.var ≤ n := by
        have := hreach l x hx
        have := l.index_eq
        unfold litSlots at hsize₀
        omega
      exact Nat.le_antisymm hle (Nat.le_of_not_lt fun hlt => hnone ⟨l, x, hx, hlt⟩)
    · rintro hall ⟨l, x, hx, hlt⟩
      exact absurd (hall l x hx) (Nat.ne_of_lt hlt)

/-- A push too many on a list that is scanned. -/
theorem violated_iff_refused_one_variable :
    let ps : List (Lit × Nat) := [(⟨0⟩, 5), (⟨0⟩, 6)]
    ∃ t₀, (empty 1).layout [1, 1, 0, 0] = .ok t₀ ∧ ∃ flags t v,
      (ps.mapM fun p => push p.1 p.2).run? t₀ = .ok (flags, t) ∧ t.violated = .ok v ∧
      (v = true ↔ ∃ l x, ((l, x), false) ∈ ps.zip flags ∧ l.var < 1) := by
  intro ps
  obtain ⟨t₀, h, hsize⟩ : ∃ t₀, (empty 1).layout [1, 1, 0, 0] = .ok t₀ ∧ t₀.size = 4 := ⟨_, rfl, rfl⟩
  have hps : ∀ p ∈ ps, p.1.index < t₀.size := by
    rw [hsize]
    decide
  obtain ⟨flags, t, v, hrun, -, hv, -, hiff, -⟩ := violated_iff_refused h (by decide) hps fun l =>
    Nat.lt_of_le_of_lt List.countP_le_length (by decide)
  exact ⟨t₀, h, flags, t, v, hrun, hv, hiff⟩

/-- A table for one variable, and a push on a list of the next one: it is refused, and the scan does not see it. -/
theorem overflow_unnoticed :
    ∃ t₀ t, (empty 1).layout [1, 1, 0, 0] = .ok t₀ ∧ (push (.positive 1) 5).run? t₀ = .ok (false, t) ∧
      (∃ b, t.list (.positive 1) = .ok b ∧ b.window.overflowed = true) ∧ t.violated = .ok false :=
  ⟨_, _, rfl, rfl, ⟨_, rfl, rfl⟩, rfl⟩

end CnfSimp.Occurrences
