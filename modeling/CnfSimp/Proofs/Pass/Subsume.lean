import CnfSimp.Pass.Subsume
import CnfSimp.Proofs.Arena.Weight
import CnfSimp.Proofs.Pass.Eliminate

/-!
# Subsumption and strengthening

* `Arena.Strengthens`, `Arena.Subsumes`: what a clause can do to another one. `strengthens_ok`, `subsumes_ok`: the two
  tests find that out. They are asked of live clauses, which are ascending, so they never fault; and where clauses have
  their signatures, they overlook nothing.
* `Occurrences.Sound.erased`: a clause that loses a literal leaves the list of that literal, and no other.
* `Subsumed`: what the pass keeps up, from the single step (`Subsumed.erased`, `Subsumed.melted_one`) to the loop over
  the variables. It preserves models, every clause and literal it counts is gone from the arena, and it changes clauses
  and lists of the elected variables only (`Confined`).
* `Arena.Settled`: there is nothing left to strengthen or to subsume around a variable. Strengthening by one clause
  leaves nothing new to do for others (`StrengthenedBy.spent`), and strengthening one way nothing for the other way
  (`Subsumed.spent`).
* `subsumeVar_ends`, `subsume_ends`: the pass faults only where its counters overflow, and settles its variables.
-/

namespace CnfSimp

variable {E : Fault → Prop} {p q : Lit → Prop} {a a' a'' : Arena} {t t' t'' : Occurrences} {w : WorkingSet} {l k : Lit}
  {c d : List Lit} {crefs targets : List Nat} {cref dref i j n m : Nat}

/-! ## Tests -/

namespace Arena

/-- A clause `c` with literal `l` takes the negation of `l` out of the clause of a slot. -/
def Strengthens (a : Arena) (l : Lit) (c : List Lit) (j : Nat) : Prop :=
  ∃ d, a.body j = some d ∧ l.not ∈ d ∧ 2 < d.length ∧ ∀ k ∈ c, k ≠ l → k ∈ d

/-- A clause is contained in the clause of a slot. -/
def Subsumes (a : Arena) (c : List Lit) (j : Nat) : Prop := ∃ d, a.body j = some d ∧ c ⊆ d

/-- Trimming clauses gives no clause more to strengthen. -/
theorem Trims.strengthens (h : a.Trims a') (hstr : a'.Strengthens l c j) : a.Strengthens l c j := by
  obtain ⟨d', hd', hl, h2, hsub⟩ := hstr
  obtain ⟨d, hd, hle⟩ := h.body hd'
  exact ⟨d, hd, hle.subset hl, Nat.lt_of_lt_of_le h2 hle.length_le, fun k hk hkl => hle.subset (hsub k hk hkl)⟩

end Arena

/-- A clause is no longer than one that has all its literals, with the negation of `l` in the place of `l`. -/
theorem length_le_of_covered (hc : c.Nodup) (hnot : l.not ∉ c) (hl : l.not ∈ d) (hsub : ∀ k ∈ c, k ≠ l → k ∈ d) :
    c.length ≤ d.length := by
  have hnodup : (l.not :: c.erase l).Nodup :=
    List.nodup_cons.2 ⟨fun h => hnot (List.mem_of_mem_erase h), hc.erase l⟩
  have hle : l.not :: c.erase l ⊆ d := by
    intro k hk
    rcases List.mem_cons.1 hk with rfl | hk
    · exact hl
    · obtain ⟨hkl, hk⟩ := hc.mem_erase_iff.1 hk
      exact hsub k hk hkl
  have hlen := (List.subperm_of_subset hnodup hle).length_le
  have := List.le_length_erase (a := l) (l := c)
  rw [List.length_cons] at hlen
  omega

theorem coveredBy_ok (ha : a.Wf) (hi : a.body i = some c) (hj : a.body j = some d) (l : Lit) :
    coveredBy (a.clauseAt i) (a.clauseAt j) l = .ok (decide (∀ k ∈ c, k ≠ l → k ∈ d)) := by
  rw [coveredBy, ha.lits_clauseAt (Arena.lt_of_body hi), Arena.text_of_body hi, ok_bind,
    allM_ok (q := fun k => decide (k ∈ d)) fun k _ => ha.has_ok hj k]
  refine congrArg Except.ok ?_
  rw [Bool.eq_iff_iff]
  simp [or_iff_not_imp_left]

/-- The test whether a clause strengthens another one. Its shortcuts overlook nothing. -/
theorem strengthens_ok (ha : a.Wf) (hc : a.body cref = some c) (hnot : l.not ∉ c) (hd : dref < a.len) :
    ∃ b, strengthens a l cref (signature (c.filter fun k => k ≠ l)) dref = .ok b ∧ (b → a.Strengthens l c dref) ∧
      (a.Signed → a.Strengthens l c dref → b) := by
  unfold strengthens
  rw [Arena.clause_ok (Arena.lt_of_body hc), Arena.clause_ok hd, ok_bind, ok_bind]
  split
  · next he =>
    refine ⟨false, rfl, nofun, ?_⟩
    intro _ ⟨d, hb, hl, _⟩
    rw [he, hc, Option.some.injEq] at hb
    exact absurd (hb ▸ hl) hnot
  rw [ha.isLive_clauseAt hd, ok_bind, ha.size_clauseAt hd, ha.size_clauseAt (Arena.lt_of_body hc),
    Arena.text_of_body hc]
  split
  · next hguard =>
    refine ⟨false, rfl, nofun, ?_⟩
    intro hsigned ⟨d, hb, hl, h2, hsub⟩
    have hlen := length_le_of_covered (nodup_of_pairwise_lt (ha.ascends _ c hc)) hnot hl hsub
    have hsig : signature (c.filter fun k => k ≠ l) &&& ~~~(a.header dref).sig = 0 := by
      rw [hsigned dref d hb]
      apply signature_and_not
      intro k hk
      obtain ⟨hk, hkl⟩ := List.mem_filter.1 hk
      exact hsub k hk (of_decide_eq_true hkl)
    have hal := (Arena.body_eq_some_iff.1 hb).1
    rw [Arena.text_of_body hb] at hguard
    simp only [hal, Arena.clauseAt, hsig] at hguard
    simp at hguard
    omega
  next hguard =>
  simp only [Bool.or_eq_true, not_or, decide_eq_true_eq, Bool.not_eq_true', Bool.not_eq_false] at hguard
  have hb := Arena.body_eq_some_iff.2 ⟨hguard.1.1.1, rfl⟩
  rw [ha.has_ok hb, ok_bind]
  split
  · next hl =>
    refine ⟨_, coveredBy_ok ha hc hb l, fun h => ⟨_, hb, of_decide_eq_true hl, by omega, of_decide_eq_true h⟩, ?_⟩
    intro _ ⟨d, hb', _, _, hsub⟩
    rw [hb, Option.some.injEq] at hb'
    exact decide_eq_true (hb' ▸ hsub)
  · next hl =>
    refine ⟨false, rfl, nofun, ?_⟩
    intro _ ⟨d, hb', hl', _⟩
    rw [hb, Option.some.injEq] at hb'
    exact absurd (decide_eq_true (hb' ▸ hl')) hl

/-- The test whether a clause subsumes another one that has `l` if it does. -/
theorem subsumes_ok (ha : a.Wf) (hc : a.body cref = some c) (hd : dref < a.len)
    (hl : ∀ d, a.body dref = some d → l ∈ d) :
    ∃ b, subsumes a l cref dref = .ok b ∧ (b → a.Subsumes c dref) ∧ (a.Signed → a.Subsumes c dref → b) := by
  unfold subsumes
  rw [Arena.clause_ok (Arena.lt_of_body hc), Arena.clause_ok hd, ok_bind, ok_bind, ha.isLive_clauseAt hd, ok_bind]
  split
  · next hguard =>
    refine ⟨false, rfl, nofun, ?_⟩
    intro hsigned ⟨d, hb, hsub⟩
    have hal := (Arena.body_eq_some_iff.1 hb).1
    have hsig : (a.header cref).sig &&& ~~~(a.header dref).sig = 0 := by
      rw [hsigned cref c hc, hsigned dref d hb]
      exact signature_and_not hsub
    simp [Arena.clauseAt, hal, hsig] at hguard
  next hguard =>
  have hal : a.alive dref := by
    by_contra h
    simp [h] at hguard
  have hb := Arena.body_eq_some_iff.2 ⟨hal, rfl⟩
  refine ⟨_, coveredBy_ok ha hc hb l, fun h => ⟨_, hb, ?_⟩, ?_⟩
  · intro k hk
    by_cases hkl : k = l
    · rw [hkl]
      exact hl _ hb
    · exact of_decide_eq_true h k hk hkl
  · intro _ ⟨d, hb', hsub⟩
    rw [hb, Option.some.injEq] at hb'
    exact decide_eq_true fun k hk _ => hb' ▸ hsub hk

/-! ## What the pass keeps up -/

/-- Only literals with `p` were lost: clauses without any are as they were, a clause that lost some has two left and the
signature of what is left, and the lists of other literals are as they were. -/
structure Confined (p : Lit → Prop) (a : Arena) (t : Occurrences) (a' : Arena) (t' : Occurrences) : Prop where
  kept : ∀ i < a.len, ∀ k ∈ a.text i, k ∈ a'.text i ∨ p k
  long : ∀ i < a.len, a'.text i = a.text i ∨ 2 ≤ (a'.text i).length
  sig : ∀ i < a.len, (a.header i).sig = signature (a.text i) → (a'.header i).sig = signature (a'.text i)
  body : ∀ i c, a.body i = some c → (∀ k ∈ c, ¬p k) → a'.body i = some c
  list : ∀ k, ¬p k → t'.listAt k.index = t.listAt k.index

namespace Confined

theorem refl (p : Lit → Prop) (a : Arena) (t : Occurrences) : Confined p a t a t :=
  ⟨fun _ _ _ => Or.inl, fun _ _ => Or.inl rfl, fun _ _ => id, fun _ _ h _ => h, fun _ _ => rfl⟩

theorem trans (h : Confined p a t a' t') (h' : Confined p a' t' a'' t'') (hlen : a'.len = a.len) :
    Confined p a t a'' t'' where
  kept i hi k hk := (h.kept i hi k hk).elim (h'.kept i (hlen.symm ▸ hi) k) Or.inr
  long i hi := by
    rcases h'.long i (hlen.symm ▸ hi) with he | h2
    · rw [he]
      exact h.long i hi
    · exact Or.inr h2
  sig i hi hsig := h'.sig i (hlen.symm ▸ hi) (h.sig i hi hsig)
  body i c hc hp := h'.body i c (h.body i c hc hp) hp
  list k hk := (h'.list k hk).trans (h.list k hk)

theorem mono (h : Confined p a t a' t') (hpq : ∀ k, p k → q k) : Confined q a t a' t' where
  kept i hi k hk := (h.kept i hi k hk).imp_right (hpq k)
  long := h.long
  sig := h.sig
  body i c hc hq := h.body i c hc fun k hk hp => hq k hk (hpq k hp)
  list k hk := h.list k fun hp => hk (hpq k hp)

end Confined

/-- The arena and its table after some subsumption and strengthening around literals with `p`, with the literals counted
as lost on top of `n` and the clauses counted as melted on top of `m`. -/
structure Subsumed (p : Lit → Prop) (n m : Nat) (a : Arena) (t : Occurrences) (n' m' : Nat) (a' : Arena)
    (t' : Occurrences) : Prop extends Prunes a a', Confined p a t a' t' where
  separated : a.Separated → a'.Separated
  preserves : Preserves a a' []
  sound : t'.Sound a'
  complete : ∀ l, t.Complete a l → t'.Complete a' l
  usable : ∀ x, t.Usable a x → t'.Usable a' x
  numVars : t'.numVars = t.numVars
  lost : n' + volume a'.bodies ≤ n + volume a.bodies
  melted : m' + a'.bodies.length ≤ m + a.bodies.length
  retains : a.Retains a'

namespace Subsumed

variable {n' m' n'' m'' : Nat}

theorem refl (ha : a.Wf) (hs : t.Sound a) (n m : Nat) : Subsumed p n m a t n m a t :=
  ⟨.refl ha, .refl p a t, id, .refl a, hs, fun _ h => h, fun _ h => h, rfl, Nat.le_refl _, Nat.le_refl _,
    .refl a⟩

theorem trans (h : Subsumed p n m a t n' m' a' t') (h' : Subsumed p n' m' a' t' n'' m'' a'' t'') :
    Subsumed p n m a t n'' m'' a'' t'' :=
  ⟨h.toPrunes.trans h'.toPrunes, h.toConfined.trans h'.toConfined h.trims.len,
    fun hsep => h'.separated (h.separated hsep), h.preserves.trans h'.preserves, h'.sound,
    fun l hl => h'.complete l (h.complete l hl), fun x hx => h'.usable x (h.usable x hx), h'.numVars.trans h.numVars,
    Nat.le_trans h'.lost h.lost, Nat.le_trans h'.melted h.melted, h.retains.trans h'.retains⟩

theorem mono (h : Subsumed p n m a t n' m' a' t') (hpq : ∀ k, p k → q k) : Subsumed q n m a t n' m' a' t' :=
  ⟨h.toPrunes, h.toConfined.mono hpq, h.separated, h.preserves, h.sound, h.complete, h.usable, h.numVars, h.lost,
    h.melted, h.retains⟩

/-- The counters of several rounds add up. -/
theorem add (h : Subsumed p n m a t n' m' a' t') (i j : Nat) : Subsumed p (i + n) (j + m) a t (i + n') (j + m') a' t' :=
  ⟨h.toPrunes, h.toConfined, h.separated, h.preserves, h.sound, h.complete, h.usable, h.numVars,
    by have := h.lost; omega, by have := h.melted; omega, h.retains⟩

theorem size_eq (h : Subsumed p n m a t n' m' a' t') (hs : t.Sound a) : t'.size = t.size := by
  rw [h.sound.size, hs.size, h.numVars]

/-- The bounds hold when tautologies count twice. -/
theorem lost_bulk (h : Subsumed p n m a t n' m' a' t') : n' + a'.bulk ≤ n + a.bulk := by
  have := h.lost
  have := h.trims.bulk_add_le
  omega

theorem melted_mass (h : Subsumed p n m a t n' m' a' t') : m' + a'.mass ≤ m + a.mass := by
  have := h.melted
  have := h.trims.mass_add_le
  omega

/-- A step that keeps the literals of all slots. -/
theorem of_drops (hs : t.Sound a) (h : Drops a a') (hsep : a.Separated → a'.Separated)
    (htext : ∀ i, a'.text i = a.text i) (hsig : ∀ i, (a'.header i).sig = (a.header i).sig)
    (hbody : ∀ i c, a.body i = some c → (∀ k ∈ c, ¬p k) → a'.body i = some c) (hpres : Preserves a a' [])
    (hmelted : m' + a'.bodies.length ≤ m + a.bodies.length) (hretains : a.Retains a') (n : Nat) :
    Subsumed p n m a t n m' a' t :=
  ⟨h.toPrunes, ⟨fun i _ k hk => Or.inl (htext i ▸ hk), fun i _ => Or.inl (htext i),
    fun i _ hi => by rw [hsig, htext, hi], hbody, fun _ _ => rfl⟩, hsep, hpres, h.sound hs, fun _ => h.complete,
    fun _ => h.usable, rfl, Nat.add_le_add_left h.trims.volume_le n, hmelted, hretains⟩

end Subsumed

/-! ## Strengthening -/

/-- A list that loses an entry is a part of what it was. -/
theorem Occurrences.Sets.listAt_sublist (h : t.Sets t' i ((t.listAt i).erase j)) (k : Nat) :
    (t'.listAt k).Sublist (t.listAt k) := by
  rw [h.listAt]
  split
  · next he =>
    rw [he]
    exact List.erase_sublist
  · exact .refl _

/-- A clause that loses a literal leaves the list of that literal. -/
theorem Occurrences.Sound.erased (hs : t.Sound a) (ha : a.Wf) (hsep : a.Separated) (hb : a.body i = some d) (hk : k ∈ d)
    (hsets : t.Sets t' k.index ((t.listAt k.index).erase i)) : t'.Sound (a.erased i k) := by
  obtain ⟨hal, rfl⟩ := Arena.body_eq_some_iff.1 hb
  have hi := Arena.lt_of_body hb
  have hsub := hsets.listAt_sublist
  refine ⟨hsets.wf, by rw [hsets.size, hs.size, hsets.numVars], fun j x hx => ?_,
    fun j => (hs.ascends j).sublist (hsub j), fun l x hx c hc => ?_⟩
  · rw [Arena.len_erased]
    exact hs.lt j x ((hsub j).subset hx)
  · rw [Arena.body_erased ha hsep hi hk hal] at hc
    split at hc
    · next he =>
      subst he
      rw [← Option.some.inj hc]
      have hl := hs.mem l x ((hsub _).subset hx) _ hb
      refine (List.mem_erase_of_ne ?_).2 hl
      rintro rfl
      rw [hsets.listAt, if_pos rfl] at hx
      exact List.Nodup.not_mem_erase ((hs.ascends _).imp Nat.ne_of_lt) hx
    · exact hs.mem l x ((hsub _).subset hx) c hc

section Erased

variable (ha : a.Wf) (hb : a.body i = some d) (hk : k ∈ d)
  (hsets : t.Sets t' k.index ((t.listAt k.index).erase i))
include ha hb hk hsets

/-- A complete list stays complete when a clause loses a literal. -/
theorem Occurrences.Complete.erased (hc : t.Complete a l) (hsep : a.Separated) : t'.Complete (a.erased i k) l := by
  obtain ⟨hal, rfl⟩ := Arena.body_eq_some_iff.1 hb
  intro j c hbody hlc
  rw [Arena.body_erased ha hsep (Arena.lt_of_body hb) hk hal] at hbody
  rw [hsets.listAt]
  by_cases hlk : l.index = k.index
  · rw [if_pos hlk]
    rw [Lit.index_inj] at hlk
    subst hlk
    split at hbody
    · rw [← Option.some.inj hbody] at hlc
      exact absurd hlc (nodup_of_pairwise_lt (ha.ascends i _ hb)).not_mem_erase
    · next hne => exact (List.mem_erase_of_ne hne).2 (hc j c hbody hlc)
  · rw [if_neg hlk]
    split at hbody
    · next he =>
      subst he
      rw [← Option.some.inj hbody] at hlc
      exact hc j _ hb (List.erase_subset hlc)
    · exact hc j c hbody hlc

/-- The lists of a variable stay usable. -/
theorem Occurrences.Usable.erased {x : Nat} (hu : t.Usable a x) (hsep : a.Separated) : t'.Usable (a.erased i k) x := by
  refine hu.imp (fun hc l hl => (hc l hl).erased ha hb hk hsets hsep) fun hd l hl j hj => ?_
  rw [Arena.alive_erased (Arena.lt_of_body hb)]
  exact hd l hl j ((hsets.listAt_sublist _).subset hj)

end Erased

/-- A clause that loses the negation of `l` because of a clause with `l`, all of whose other literals it has. -/
theorem Preserves.strengthened (ha : a.Wf) (hsep : a.Separated) (hc : a.body cref = some c) (hd : a.body dref = some d)
    (hnot : l.not ∉ c) (hl : l.not ∈ d) (hsub : ∀ k ∈ c, k ≠ l → k ∈ d) :
    Preserves a (a.erased dref l.not) [] := by
  refine .erased ha hsep hd hl fun v hv => ?_
  by_cases hvl : l.Holds v
  · obtain ⟨k, hk, hvk⟩ := hv.holds hd
    refine ⟨k, (List.mem_erase_of_ne ?_).2 hk, hvk⟩
    rintro rfl
    exact Lit.holds_not.1 hvk hvl
  · obtain ⟨k, hk, hvk⟩ := hv.holds hc
    refine ⟨k, (List.mem_erase_of_ne ?_).2 (hsub k hk ?_), hvk⟩
    · rintro rfl
      exact hnot hk
    · rintro rfl
      exact hvl hvk

/-- Only the list of the literal and the clause change; two of its literals stay. -/
theorem Confined.erased (ha : a.Wf) (hsep : a.Separated) (hb : a.body i = some d) (hk : k ∈ d) (h2 : 2 < d.length)
    (hsets : t.Sets t' k.index ((t.listAt k.index).erase i)) : Confined (· = k) a t (a.erased i k) t' := by
  obtain ⟨hal, rfl⟩ := Arena.body_eq_some_iff.1 hb
  have hi := Arena.lt_of_body hb
  have htext {j : Nat} (hj : j < a.len) := Arena.text_erased ha hsep hi hk hj
  constructor
  · intro j hj x hx
    rw [htext hj]
    split
    · next he =>
      subst he
      by_cases hxk : x = k
      · exact Or.inr hxk
      · exact Or.inl ((List.mem_erase_of_ne hxk).2 hx)
    · exact Or.inl hx
  · intro j hj
    rw [htext hj]
    split
    · apply Or.inr
      rw [List.length_erase_of_mem hk]
      omega
    · exact Or.inl rfl
  · intro j hj hsig
    rw [htext hj, Arena.header_erased hi]
    split
    · rfl
    · exact hsig
  · intro j c hc hck
    rw [Arena.body_erased ha hsep hi hk hal]
    split
    · next he =>
      rw [he, hb, Option.some.injEq] at hc
      exact absurd rfl (hck k (hc ▸ hk))
    · exact hc
  · intro x hx
    rw [hsets.listAt, if_neg (mt Lit.index_inj.1 hx)]

/-- One clause is strengthened. -/
theorem Subsumed.erased (ha : a.Wf) (hsep : a.Separated) (hs : t.Sound a) (hc : a.body cref = some c) (hnot : l.not ∉ c)
    (hstr : a.Strengthens l c dref) (hsets : t.Sets t' l.not.index ((t.listAt l.not.index).erase dref)) (n m : Nat) :
    Subsumed (· = l.not) n m a t (n + 1) m (a.erased dref l.not) t' := by
  obtain ⟨d, hd, hld, h2, hsub⟩ := hstr
  obtain ⟨hal, htext⟩ := Arena.body_eq_some_iff.1 hd
  have hi := Arena.lt_of_body hd
  have hlt : l.not ∈ a.text dref := htext.symm ▸ hld
  have htrims := Arena.trims_erased ha hsep hi hlt
  have hlost : volume (a.erased dref l.not).bodies + 1 ≤ volume a.bodies := by
    refine htrims.volume_lt hd ((Arena.body_erased ha hsep hi hlt hal dref).trans (if_pos rfl)) ?_
    rw [htext, List.length_erase_of_mem hld]
    omega
  exact ⟨⟨htrims, Arena.Wf.erased ha hsep hi hlt, fun ho => ho.erased hi⟩, .erased ha hsep hd hld h2 hsets,
    fun hsep => hsep.erased hi, .strengthened ha hsep hc hd hnot hld hsub, hs.erased ha hsep hd hld hsets,
    fun k hk => hk.erased ha hd hld hsets hsep, fun x hx => hx.erased ha hd hld hsets hsep, hsets.numVars, by omega,
    Nat.add_le_add_left htrims.length_bodies_le m, .erased ha hsep hd hld⟩

/-- What a clause with literal `l` has done to others: it strengthens none of the targets any more, and its other
literals are in all clauses that lost the negation of `l`. -/
structure StrengthenedBy (l : Lit) (c : List Lit) (targets : List Nat) (a a' : Arena) : Prop where
  done : a.Signed → ∀ j ∈ targets, ¬a'.Strengthens l c j
  cover : ∀ i < a.len, l.not ∈ a.text i → l.not ∉ a'.text i → ∀ k ∈ c, k ≠ l → k ∈ a'.text i

/-- One more target, which the clause does not strengthen. -/
theorem StrengthenedBy.skip (h : StrengthenedBy l c targets a a') (hdref : a.Signed → ¬a'.Strengthens l c dref) :
    StrengthenedBy l c (dref :: targets) a a' := by
  refine ⟨?_, h.cover⟩
  intro hsigned j hj
  rcases List.mem_cons.1 hj with rfl | hj
  · exact hdref hsigned
  · exact h.done hsigned j hj

/-- One more target, which the clause has strengthened. -/
theorem StrengthenedBy.erased (ha : a.Wf) (hsep : a.Separated) (hnot : l.not ∉ c) (hstr : a.Strengthens l c dref)
    (hsub : Subsumed (· = l.not) n m (a.erased dref l.not) t i j a' t')
    (h : StrengthenedBy l c targets (a.erased dref l.not) a') : StrengthenedBy l c (dref :: targets) a a' := by
  obtain ⟨d, hbd, hld, _, hcd⟩ := hstr
  have hd := Arena.lt_of_body hbd
  have hlt : l.not ∈ a.text dref := (Arena.text_of_body hbd).symm ▸ hld
  have hlen := Arena.len_erased a dref l.not
  have htext {i : Nat} (hi : i < a.len) := Arena.text_erased ha hsep hd hlt hi
  have hfirst : StrengthenedBy l c targets a a' := by
    constructor
    · intro hsigned
      exact h.done ((Arena.trims_erased ha hsep hd hlt).signed hsigned)
    · intro i hi hl hl' k hk hkl
      by_cases hid : i = dref
      · subst hid
        have hk' : k ≠ l.not := fun he => hnot (he ▸ hk)
        refine (hsub.kept i (hlen.symm ▸ hi) k ?_).resolve_right hk'
        rw [htext hi, if_pos rfl, Arena.text_of_body hbd]
        exact (List.mem_erase_of_ne hk').2 (hcd k hk hkl)
      · refine h.cover i (hlen.symm ▸ hi) ?_ hl' k hk hkl
        rwa [htext hi, if_neg hid]
  apply hfirst.skip
  intro _ hstr
  -- The target has the literal no more.
  obtain ⟨e, he, hle, _⟩ := hsub.trims.strengthens hstr
  rw [← Arena.text_of_body he, htext hd, if_pos rfl, Arena.text_of_body hbd] at hle
  exact (nodup_of_pairwise_lt (ha.ascends dref d hbd)).not_mem_erase hle

/-- Strengthening some clauses by one with literal `l`, which stays as it is. -/
theorem strengthenBy_ends (ha : a.Wf) (hsep : a.Separated) (hs : t.Sound a) (hc : a.body cref = some c)
    (hnot : l.not ∉ c) (hl : l.not.index < t.size) (htargets : ∀ d ∈ targets, d < a.len)
    (hE : E .overflow ∨ n + volume a.bodies < 2 ^ 32) (m : Nat) :
    Ends E (strengthenBy l cref (signature (c.filter fun k => k ≠ l)) n a t targets) fun s =>
      Subsumed (· = l.not) n m a t s.1 m s.2.1 s.2.2 ∧ StrengthenedBy l c targets a s.2.1 := by
  induction targets generalizing a t n with
  | nil => exact ⟨.refl ha hs n m, nofun, fun i _ hi hi' => absurd hi hi'⟩
  | cons dref targets ih =>
    have hd := htargets dref List.mem_cons_self
    have hrest := fun d hd => htargets d (List.mem_cons_of_mem _ hd)
    obtain ⟨b, hb, hsome, hall⟩ := strengthens_ok ha hc hnot hd
    unfold strengthenBy
    rw [hb, ok_bind]
    cases b with
    | false =>
      refine (ih ha hsep hs hc hl hrest hE).imp ?_
      intro s ⟨h, hby⟩
      exact ⟨h, hby.skip fun hsigned hstr => Bool.false_ne_true (hall hsigned (h.trims.strengthens hstr))⟩
    | true =>
      have hstr := hsome rfl
      obtain ⟨d, hbd, hld, _⟩ := hsome rfl
      have hlt : l.not ∈ a.text dref := (Arena.text_of_body hbd).symm ▸ hld
      obtain ⟨t', hremove, hsets⟩ := Occurrences.remove_ok hs.wf hl dref
      have hstep := Subsumed.erased ha hsep hs hc hnot hstr hsets n m
      have hlost := hstep.lost
      have hlen := hstep.trims.len
      simp only [if_true, Arena.erase_ok ha hd hlt, ok_bind, hremove]
      refine (ends_sum32 (hE.imp_right fun h => by omega)).bind ?_
      rintro _ rfl
      refine (ih hstep.wf (hstep.separated hsep) hstep.sound (hstep.body cref c hc fun k hk he => hnot (he ▸ hk))
        (by rw [hsets.size]; exact hl) (fun x hx => by rw [hlen]; exact hrest x hx)
        (hE.imp_right fun h => by omega)).imp ?_
      intro s ⟨h, hby⟩
      exact ⟨hstep.trans h, hby.erased ha hsep hnot hstr h⟩

/-- The clause of a slot strengthens no other one any more, if it has `l` but not its negation. -/
def Arena.Spent (a : Arena) (l : Lit) (i : Nat) : Prop :=
  ∀ c, a.body i = some c → l ∈ c → l.not ∉ c → ∀ j, ¬a.Strengthens l c j

/-- That stays so when clauses are trimmed, as long as this one loses no other literals than `l`. -/
theorem Arena.Spent.trimmed (hi : a.Spent l i) (h : a.Trims a')
    (hkept : ∀ b, a.body i = some b → ∀ k ∈ b, k ≠ l → k ∈ a'.text i) : a'.Spent l i := by
  intro c' hc' hl hnot j hstr
  obtain ⟨c, hc, hsub⟩ := h.body hc'
  have hkept : ∀ k ∈ c, k ≠ l → k ∈ c' := Arena.text_of_body hc' ▸ hkept c hc
  refine hi c hc (hsub.subset hl) (fun hn => hnot (hkept _ hn (Lit.not_ne l))) j (h.strengthens ?_)
  obtain ⟨d, hd, hld, h2, hcd⟩ := hstr
  exact ⟨d, hd, hld, h2, fun k hk hkl => hcd k (hkept k hk hkl) hkl⟩

section StrengthenedBy

variable {n' m' : Nat} (h : StrengthenedBy l c targets a a') (hsub : Subsumed (· = l.not) n m a t n' m' a' t')
  (hsigned : a.Signed) (htargets : ∀ j d, a.body j = some d → l.not ∈ d → j ∈ targets)
include h hsub hsigned htargets

/-- If all clauses with the negation of `l` were targets, the clause strengthens none. -/
theorem StrengthenedBy.not_strengthens (j : Nat) : ¬a'.Strengthens l c j := by
  intro hstr
  obtain ⟨d, hd, hld, _⟩ := hsub.trims.strengthens hstr
  exact h.done hsigned j (htargets j d hd hld) hstr

/-- Then no clause has got anything new to strengthen: one that lost the negation of `l` is covered by `c`. -/
theorem StrengthenedBy.spent (hi : a.Spent l i) : a'.Spent l i := by
  by_cases hlost : i < a.len ∧ l.not ∈ a.text i ∧ l.not ∉ a'.text i
  · obtain ⟨hlt, hin, hout⟩ := hlost
    intro c' hc' hl hnot j hstr
    refine h.not_strengthens hsub hsigned htargets j ?_
    obtain ⟨d, hd, hld, h2, hcd⟩ := hstr
    refine ⟨d, hd, hld, h2, fun k hk hkl => hcd k ?_ hkl⟩
    rw [← Arena.text_of_body hc']
    exact h.cover i hlt hin hout k hk hkl
  · apply hi.trimmed hsub.trims
    intro b hb k hk _
    have hlt := Arena.lt_of_body hb
    rw [← Arena.text_of_body hb] at hk
    rcases hsub.kept i hlt k hk with hk' | rfl
    · exact hk'
    · by_contra hout
      exact hlost ⟨hlt, hk, hout⟩

end StrengthenedBy

/-- Strengthening some clauses by several others. -/
theorem strengthenByAll_ends (ha : a.Wf) (hsep : a.Separated) (hs : t.Sound a) (hl : l.not.index < t.size)
    (htargets : ∀ d ∈ targets, d < a.len) (hcrefs : ∀ c ∈ crefs, c < a.len)
    (hE : E .overflow ∨ n + volume a.bodies < 2 ^ 32) (m : Nat) :
    Ends E (strengthenByAll l targets n a t crefs) fun s => Subsumed (· = l.not) n m a t s.1 m s.2.1 s.2.2 ∧
      (a.Signed → (∀ j d, a.body j = some d → l.not ∈ d → j ∈ targets) →
        ∀ i, i ∈ crefs ∨ a.Spent l i → s.2.1.Spent l i) := by
  induction crefs generalizing a t n with
  | nil => exact ⟨.refl ha hs n m, fun _ _ i hi => hi.resolve_left List.not_mem_nil⟩
  | cons cref crefs ih =>
    have hcref := hcrefs cref List.mem_cons_self
    have hrest := fun c hc => hcrefs c (List.mem_cons_of_mem _ hc)
    -- A clause that is passed over has nothing to strengthen.
    have hskip (hspent : a.Spent l cref) : Ends E (strengthenByAll l targets n a t crefs) fun s =>
        Subsumed (· = l.not) n m a t s.1 m s.2.1 s.2.2 ∧
        (a.Signed → (∀ j d, a.body j = some d → l.not ∈ d → j ∈ targets) →
          ∀ i, i ∈ cref :: crefs ∨ a.Spent l i → s.2.1.Spent l i) := by
      refine (ih ha hsep hs hl htargets hrest hE).imp ?_
      intro s ⟨h, hdone⟩
      refine ⟨h, fun hsigned hall i hi => hdone hsigned hall i ?_⟩
      rcases hi with hi | hi
      · rcases List.mem_cons.1 hi with rfl | hi
        · exact Or.inr hspent
        · exact Or.inl hi
      · exact Or.inr hi
    unfold strengthenByAll
    rw [Arena.clause_ok hcref, ok_bind, ha.isLive_clauseAt hcref, ok_bind]
    cases hal : a.alive cref with
    | false =>
      apply hskip
      intro c hc
      rw [Arena.body_eq_none_iff.2 hal] at hc
      cases hc
    | true =>
      have hb := Arena.body_eq_some_iff.2 ⟨hal, rfl⟩
      simp only [Bool.not_true, Bool.false_eq_true, if_false, ha.has_ok hb, ok_bind]
      split
      · next hin =>
        apply hskip
        intro c hc _ hnot
        rw [hb, Option.some.injEq] at hc
        exact absurd (of_decide_eq_true hin) (hc ▸ hnot)
      · next hnot =>
        have hnot : l.not ∉ a.text cref := by simpa using hnot
        rw [ha.lits_clauseAt hcref, ok_bind]
        refine (strengthenBy_ends ha hsep hs hb hnot hl htargets hE m).bind ?_
        intro ⟨n', a', t'⟩ ⟨hstep, hby⟩
        have hlen := hstep.trims.len
        refine (ih hstep.wf (hstep.separated hsep) hstep.sound (by rw [hstep.size_eq hs]; exact hl)
          (fun d hd => by rw [hlen]; exact htargets d hd) (fun c hc => by rw [hlen]; exact hrest c hc)
          (hE.imp_right fun h => Nat.lt_of_le_of_lt hstep.lost h)).imp ?_
        intro s ⟨h, hdone⟩
        refine ⟨hstep.trans h, fun hsigned hall i hi => hdone (hstep.trims.signed hsigned) ?_ i ?_⟩
        · intro j d' hd' hld'
          obtain ⟨d, hd, hsub⟩ := hstep.trims.body hd'
          exact hall j d hd (hsub.subset hld')
        · rcases hi with hi | hi
          · rcases List.mem_cons.1 hi with rfl | hi
            · apply Or.inr
              intro c hc _ _
              have hself := hstep.body i _ hb fun k hk he => hnot (he ▸ hk)
              rw [hself, Option.some.injEq] at hc
              exact hc ▸ hby.not_strengthens hstep hsigned hall
            · exact Or.inl hi
          · exact Or.inr (hby.spent hstep hsigned hall hi)

/-- Taking the negation of a literal out of clauses. -/
theorem strengthenOn_ends (ha : a.Wf) (hsep : a.Separated) (hs : t.Sound a) (hl : l.index < t.size)
    (hl' : l.not.index < t.size) (hE : E .overflow ∨ volume a.bodies < 2 ^ 32) (m : Nat) :
    Ends E (strengthenOn l a t) fun s => Subsumed (· = l.not) 0 m a t s.1 m s.2.1 s.2.2 ∧
      (a.Signed → t.Complete a l → t.Complete a l.not → ∀ i, s.2.1.Spent l i) := by
  unfold strengthenOn
  rw [hs.wf.occurs_ok hl', hs.wf.occurs_ok hl, ok_bind, ok_bind]
  refine (strengthenByAll_ends ha hsep hs hl' (hs.lt _) (hs.lt _) (hE.imp_right fun h => by omega) m).imp ?_
  intro s ⟨h, hdone⟩
  refine ⟨h, fun hsigned hc hc' i => hdone hsigned hc' i ?_⟩
  by_cases hi : i ∈ t.listAt l.index
  · exact Or.inl hi
  · exact Or.inr fun c hb hlc => absurd (hc i c hb hlc) hi

/-! ## Subsuming -/

/-- Promoting changes no clause. A live clause is irredundant afterwards if the other one is. -/
theorem promote_ok (ha : a.Wf) (hs : t.Sound a) (hal : a.alive cref) (hd : dref < a.len) :
    ∃ a', promote a cref dref = .ok a' ∧ (∀ p n m, Subsumed p n m a t n m a' t) ∧ (∀ j, a'.body j = a.body j) ∧
      ((a'.header dref).status = .ok .irredundant → (a'.header cref).status = .ok .irredundant) := by
  obtain ⟨hc, hlive⟩ := Arena.alive_iff.1 hal
  obtain ⟨s, hst⟩ := ha.status cref hc
  obtain ⟨s', hst'⟩ := ha.status dref hd
  unfold promote
  rw [Arena.clause_ok hc, ok_bind, show (a.clauseAt cref).header.status = .ok s from hst, ok_bind]
  by_cases hlearnt : s = .learnt
  · subst hlearnt
    rw [if_pos rfl, Arena.clause_ok hd, ok_bind, show (a.clauseAt dref).header.status = .ok s' from hst', ok_bind]
    by_cases hirr : s' = .irredundant
    · rw [if_pos hirr, Arena.setStatus_ok hc hst]
      have hbody := Arena.body_promoted hc hst
      have htrims := Arena.trims_promoted hc hst
      have hcref := Nat.lt_of_lt_of_le hc a.len_le_slots
      refine ⟨_, rfl, fun p n m => .of_drops hs ⟨⟨htrims, Arena.Wf.promoted hc hst ha, Arena.Ordered.promoted hc⟩,
        fun i c h => hbody i ▸ h⟩ (Arena.Separated.promoted hc) (Arena.text_withHeader hcref rfl rfl)
        (Arena.sig_withHeader hcref rfl) (fun i c h _ => (hbody i).trans h)
        (.of_bodies fun c => by simp only [Arena.mem_bodies, hbody])
        (Nat.add_le_add_left htrims.length_bodies_le m) (.promoted hc hst) n, hbody, fun _ => ?_⟩
      rw [Arena.promoted, Arena.header_withHeader hcref, if_pos rfl]
      exact Header.status_eq_ok_iff.2 rfl
    · rw [if_neg hirr]
      refine ⟨a, rfl, fun _ => .refl ha hs, fun _ => rfl, fun h => absurd ?_ hirr⟩
      exact Except.ok.inj (hst'.symm.trans h)
  · rw [if_neg hlearnt]
    refine ⟨a, rfl, fun _ => .refl ha hs, fun _ => rfl, fun _ => ?_⟩
    -- A live clause is not deleted.
    cases s with
    | irredundant => exact hst
    | learnt => exact absurd rfl hlearnt
    | deleted =>
      rw [Header.live, Header.status_eq_ok_iff.1 hst] at hlive
      simp at hlive

/-- One clause is subsumed. -/
theorem Subsumed.melted_one (ha : a.Wf) (hs : t.Sound a) (hc : a.body cref = some c) (hne : cref ≠ dref)
    (hsub : a.Subsumes c dref) (hl : ∀ d, a.body dref = some d → l ∈ d)
    (hirr : (a.header dref).status = .ok .irredundant → (a.header cref).status = .ok .irredundant) (n m : Nat) :
    Subsumed (· = l) n m a t n (m + 1) (a.melted dref) t := by
  obtain ⟨d, hd, hsub⟩ := hsub
  have hi := Arena.lt_of_body hd
  have hi' := Nat.lt_of_lt_of_le hi a.len_le_slots
  have hbody := Arena.body_melted hi
  have hmass := (Arena.trims_melted hi).length_bodies_lt hd (by rw [hbody, if_pos rfl])
  refine .of_drops hs (Drops.melted ha hi) (fun hsep => hsep.melted hi) (Arena.text_melted hi)
    (Arena.sig_withHeader hi' rfl) (fun i b hb hbl => ?_) (.melted hi fun v b hothers hb => ?_) (by omega)
    (.melted hi hne hc hirr fun b hb => ?_) n
  · rw [hbody, if_neg]
    · exact hb
    · rintro rfl
      exact hbl l (hl b hb) rfl
  · rw [hd, Option.some.injEq] at hb
    subst hb
    exact (hothers cref c hne hc).of_subset hsub
  · rw [hd, Option.some.injEq] at hb
    exact hb ▸ hsub

/-- Melting those of some clauses with literal `l` that a clause subsumes, which stays as it is. -/
theorem meltSubsumed_ends (ha : a.Wf) (hs : t.Sound a) (hc : a.body cref = some c) (hcref : cref ∉ targets)
    (htargets : ∀ x ∈ targets, x ∈ t.listAt l.index) (hE : E .overflow ∨ m + a.bodies.length < 2 ^ 32) (n : Nat) :
    Ends E (meltSubsumed l cref m a targets) fun s => Subsumed (· = l) n m a t n s.1 s.2 t ∧ Drops a s.2 ∧
      s.2.body cref = some c ∧ (a.Signed → ∀ j ∈ targets, ¬s.2.Subsumes c j) := by
  induction targets generalizing a m with
  | nil => exact ⟨.refl ha hs n m, .refl ha, hc, nofun⟩
  | cons dref targets ih =>
    have hrest := fun x hx => htargets x (List.mem_cons_of_mem _ hx)
    obtain ⟨hne, hcref⟩ := not_or.1 (mt List.mem_cons.2 hcref)
    have hmem := htargets dref List.mem_cons_self
    have hd := hs.lt _ dref hmem
    obtain ⟨b, hb, hsome, hall⟩ := subsumes_ok ha hc hd (hs.mem l dref hmem)
    unfold meltSubsumed
    rw [hb, ok_bind]
    cases b with
    | false =>
      refine (ih ha hs hc hcref hrest hE).imp ?_
      intro s ⟨h, hdrops, hc', hdone⟩
      refine ⟨h, hdrops, hc', ?_⟩
      intro hsigned j hj
      rcases List.mem_cons.1 hj with rfl | hj
      · rintro ⟨d, hd', hsub⟩
        exact Bool.false_ne_true (hall hsigned ⟨d, hdrops.body _ _ hd', hsub⟩)
      · exact hdone hsigned j hj
    | true =>
      obtain ⟨a₁, hpromote, hsame, hbody₁, hirr⟩ := promote_ok ha hs (Arena.body_eq_some_iff.1 hc).1 hd
      have h₁ : Subsumed (· = l) n m a t n m a₁ t := hsame _ n m
      have hd₁ : dref < a₁.len := h₁.trims.len.symm ▸ hd
      have hstep := h₁.trans <| .melted_one (l := l) h₁.wf h₁.sound ((hbody₁ cref).trans hc) hne
        (by obtain ⟨d, hd, hsub⟩ := hsome rfl; exact ⟨d, (hbody₁ dref).trans hd, hsub⟩)
        (fun d hd => hs.mem l dref hmem d (hbody₁ dref ▸ hd)) hirr n m
      have hbody (j : Nat) : (a₁.melted dref).body j = if j = dref then none else a.body j := by
        rw [Arena.body_melted hd₁, hbody₁]
      have hdrops : Drops a (a₁.melted dref) := by
        refine ⟨hstep.toPrunes, ?_⟩
        intro i c hc
        rw [hbody] at hc
        split at hc
        · cases hc
        · exact hc
      have hmelted := hstep.melted
      simp only [if_true, hpromote, Arena.melt_ok hd₁, ok_bind]
      refine (ends_sum32 (hE.imp_right fun h => by omega)).bind ?_
      rintro _ rfl
      refine (ih hstep.wf hstep.sound (by rw [hbody, if_neg hne, hc]) hcref hrest
        (hE.imp_right fun h => by omega)).imp ?_
      intro s ⟨h, hdrops', hc', hdone⟩
      refine ⟨hstep.trans h, hdrops.trans hdrops', hc', ?_⟩
      intro hsigned j hj
      rcases List.mem_cons.1 hj with rfl | hj
      · rintro ⟨d, hd, _⟩
        have := hdrops'.body _ _ hd
        rw [hbody, if_pos rfl] at this
        cases this
      · exact hdone (hstep.trims.signed hsigned) j hj

/-- Melting every clause of a list that an earlier one subsumes. -/
theorem subsumeLater_ends (ha : a.Wf) (hs : t.Sound a) (hn : crefs.Nodup) (hcrefs : ∀ x ∈ crefs, x ∈ t.listAt l.index)
    (hE : E .overflow ∨ m + a.bodies.length < 2 ^ 32) (n : Nat) :
    Ends E (subsumeLater l m a crefs) fun s => Subsumed (· = l) n m a t n s.1 s.2 t ∧ Drops a s.2 ∧
      (a.Signed → crefs.Pairwise fun i j => ∀ c, s.2.body i = some c → ¬s.2.Subsumes c j) := by
  induction crefs generalizing a m with
  | nil => exact ⟨.refl ha hs n m, .refl ha, fun _ => .nil⟩
  | cons cref crefs ih =>
    obtain ⟨hcref, hn⟩ := List.nodup_cons.1 hn
    have hrest := fun x hx => hcrefs x (List.mem_cons_of_mem _ hx)
    unfold subsumeLater
    rw [ha.isLive_ok (hs.lt _ cref (hcrefs cref List.mem_cons_self)), ok_bind]
    cases hal : a.alive cref with
    | false =>
      refine (ih ha hs hn hrest hE).imp ?_
      intro s ⟨h, hdrops, hdone⟩
      refine ⟨h, hdrops, fun hsigned => List.pairwise_cons.2 ⟨?_, hdone hsigned⟩⟩
      intro j _ c hc
      rw [Arena.body_eq_none_iff.2 (hdrops.alive hal)] at hc
      cases hc
    | true =>
      have hb := Arena.body_eq_some_iff.2 ⟨hal, rfl⟩
      refine (meltSubsumed_ends ha hs hb hcref hrest hE n).bind ?_
      rintro ⟨m', a'⟩ ⟨hstep, hdrops, _, hfirst⟩
      refine (ih hstep.wf hstep.sound hn hrest (hE.imp_right fun h => Nat.lt_of_le_of_lt hstep.melted h)).imp ?_
      intro s ⟨h, hdrops', hdone⟩
      refine ⟨hstep.trans h, hdrops.trans hdrops', fun hsigned =>
        List.pairwise_cons.2 ⟨?_, hdone (hstep.trims.signed hsigned)⟩⟩
      intro j hj c hc
      have hc := hdrops.body _ _ (hdrops'.body _ _ hc)
      rw [hb, Option.some.injEq] at hc
      subst hc
      rintro ⟨d, hd, hsub⟩
      exact hfirst hsigned j hj ⟨d, hdrops'.body _ _ hd, hsub⟩

/-- No live clause with a literal is contained in another one. -/
def Arena.Antichain (a : Arena) (l : Lit) : Prop :=
  ∀ i j c, i ≠ j → a.body i = some c → l ∈ c → ¬a.Subsumes c j

/-- Where smaller clauses come first, it is enough that none is contained in a later one: those of the same size are
equal if one of them is contained in the other. -/
theorem Arena.Antichain.of_pairwise (ha : a.Wf) (hmem : ∀ i c, a.body i = some c → l ∈ c → i ∈ crefs)
    (h : crefs.Pairwise fun i j => ∀ c d, a.body i = some c → a.body j = some d → ¬c ⊆ d ∧ c.length ≤ d.length) :
    a.Antichain l := by
  have hsymm : Std.Symm fun i j => ∀ c d, a.body i = some c → a.body j = some d → ¬c ⊆ d ∧ ¬d ⊆ c :=
    ⟨fun i j h c d hc hd => (h d c hd hc).symm⟩
  have hpair : crefs.Pairwise fun i j => ∀ c d, a.body i = some c → a.body j = some d → ¬c ⊆ d ∧ ¬d ⊆ c := by
    apply h.imp
    intro i j h c d hc hd
    obtain ⟨hcd, hle⟩ := h c d hc hd
    refine ⟨hcd, fun hdc => hcd ?_⟩
    have hnodup := nodup_of_pairwise_lt (ha.ascends j d hd)
    exact ((List.subperm_of_subset hnodup hdc).perm_of_length_le hle).symm.subset
  intro i j c hij hc hl ⟨d, hd, hsub⟩
  exact (hpair.forall (hmem i c hc hl) (hmem j d hd (hsub hl)) hij c d hc hd).1 hsub

/-- Sorted by their sizes, smaller clauses come first. -/
theorem pairwise_bySize (size : Nat → Nat) (is : List Nat) :
    ((sortBy (fun x y : Nat × Nat => x.1 < y.1 || (x.1 == y.1 && x.2 ≤ y.2))
      (is.map fun i => (size i, i))).map Prod.snd).Pairwise fun i j => size i ≤ size j := by
  rw [List.pairwise_map]
  refine (pairwise_sortBy (fun x y => ?_) (fun x y z => ?_) _).imp_of_mem fun {x y} hx hy h => ?_
  · simp
    omega
  · simp
    omega
  · obtain ⟨i, _, rfl⟩ := List.mem_map.1 (mem_sortBy.1 hx)
    obtain ⟨j, _, rfl⟩ := List.mem_map.1 (mem_sortBy.1 hy)
    simp at h ⊢
    omega

/-- The clauses with a literal are asked in the order of their sizes. -/
theorem subsumeOn_eq (ha : a.Wf) (hs : t.Sound a) (hl : l.index < t.size) :
    ∃ is : List Nat, is.Perm (t.listAt l.index) ∧ is.Pairwise (fun i j => (a.text i).length ≤ (a.text j).length) ∧
      subsumeOn l a t = subsumeLater l 0 a is := by
  have hperm := (sortBy_perm (fun x y : Nat × Nat => x.1 < y.1 || (x.1 == y.1 && x.2 ≤ y.2))
    ((t.listAt l.index).map fun i => ((a.text i).length, i))).map Prod.snd
  rw [List.map_map, show Prod.snd ∘ (fun i => ((a.text i).length, i)) = id from rfl, List.map_id] at hperm
  refine ⟨_, hperm, pairwise_bySize (fun i => (a.text i).length) (t.listAt l.index), ?_⟩
  unfold subsumeOn
  rw [hs.wf.occurs_ok hl, ok_bind, mapM_ok (g := fun i => ((a.text i).length, i)) fun i hi => by
    rw [Arena.clause_ok (hs.lt _ i hi), ok_bind, ha.size_clauseAt (hs.lt _ i hi)]
    rfl, ok_bind]

/-- Melting the clauses with a literal that contain another one. -/
theorem subsumeOn_ends (ha : a.Wf) (hs : t.Sound a) (hl : l.index < t.size)
    (hE : E .overflow ∨ a.bodies.length < 2 ^ 32) (n : Nat) :
    Ends E (subsumeOn l a t) fun s => Subsumed (· = l) n 0 a t n s.1 s.2 t ∧ Drops a s.2 ∧
      (a.Signed → t.Complete a l → s.2.Antichain l) := by
  obtain ⟨is, hperm, hsorted, heq⟩ := subsumeOn_eq ha hs hl
  rw [heq]
  refine (subsumeLater_ends ha hs (hperm.nodup_iff.2 ((hs.ascends _).imp Nat.ne_of_lt))
    (fun x hx => hperm.mem_iff.1 hx) (hE.imp_right fun h => by omega) n).imp ?_
  intro s ⟨h, hdrops, hdone⟩
  refine ⟨h, hdrops, fun hsigned hcomplete => .of_pairwise h.wf
    (fun i c hc hlc => hperm.mem_iff.2 (hcomplete i c (hdrops.body i c hc) hlc)) ?_⟩
  apply ((hdone hsigned).and hsorted).imp
  intro i j ⟨hnot, hle⟩ c d hc hd
  rw [Arena.text_of_body (hdrops.body _ _ hc), Arena.text_of_body (hdrops.body _ _ hd)] at hle
  exact ⟨fun hsub => hnot c hc ⟨d, hd, hsub⟩, hle⟩

/-! ## The pass -/

/-- There is nothing left to strengthen or to subsume around a variable. -/
structure Arena.Settled (a : Arena) (x : Nat) : Prop where
  spent : ∀ l : Lit, l.var = x → ∀ i, a.Spent l i
  antichain : ∀ l : Lit, l.var = x → a.Antichain l

theorem Arena.Settled.of_literals {x : Nat} (hx : x < 2 ^ 31) (hpos : ∀ i, a.Spent (.positive x) i)
    (hneg : ∀ i, a.Spent (.negative x) i) (hpos' : a.Antichain (.positive x)) (hneg' : a.Antichain (.negative x)) :
    a.Settled x := by
  constructor
  · intro l hl i
    rcases (Lit.var_eq_iff_positive_or_negative hx).1 hl with rfl | rfl
    · exact hpos i
    · exact hneg i
  · intro l hl
    rcases (Lit.var_eq_iff_positive_or_negative hx).1 hl with rfl | rfl
    · exact hpos'
    · exact hneg'

/-- Strengthening one way does not undo what strengthening the other way has achieved. -/
theorem Subsumed.spent {n' m' : Nat} (h : Subsumed (· = l) n m a t n' m' a' t') (hi : a.Spent l i) : a'.Spent l i := by
  apply hi.trimmed h.trims
  intro b hb k hk hkl
  rw [← Arena.text_of_body hb] at hk
  exact (h.kept i (Arena.lt_of_body hb) k hk).resolve_right hkl

theorem Drops.spent (h : Drops a a') (hi : a.Spent l i) : a'.Spent l i := fun c hc hl hnot j hstr =>
  hi c (h.body i c hc) hl hnot j (h.trims.strengthens hstr)

theorem Drops.antichain (h : Drops a a') (hl : a.Antichain l) : a'.Antichain l := by
  intro i j c hij hc hlc ⟨d, hd, hsub⟩
  exact hl i j c hij (h.body i c hc) hlc ⟨d, h.body j d hd, hsub⟩

/-- The number of literals in the clauses listed for a variable. -/
def Occurrences.sizeAround (t : Occurrences) (a : Arena) (x : Nat) : Nat :=
  volume ((t.listAt (Lit.positive x).index ++ t.listAt (Lit.negative x).index).map a.text)

/-- Strengthening and subsuming around one variable. -/
theorem subsumeVar_ends {x : Nat} (limit : Nat) (ha : a.Wf) (hsep : a.Separated) (hs : t.Sound a) (hx : x < t.numVars)
    (hx2 : x < 2 ^ 31) (hE : E .overflow ∨ volume a.bodies < 2 ^ 32) :
    Ends E (subsumeVar limit a t x) fun s =>
      Subsumed (·.var = x) 0 0 a t s.1.strengthened s.1.subsumed s.2.1 s.2.2 ∧
      (limit < t.sizeAround a x → s = (⟨0, 0⟩, a, t)) ∧
      (t.sizeAround a x ≤ limit → a.Signed → (∀ l : Lit, l.var = x → t.Complete a l) → s.2.1.Settled x) := by
  have hlp := index_lt_of_var hs hx (Lit.var_positive hx2)
  have hln := index_lt_of_var hs hx (Lit.var_negative hx2)
  have hvp (k : Lit) (hk : k = .positive x) : k.var = x := hk ▸ Lit.var_positive hx2
  have hvn (k : Lit) (hk : k = .negative x) : k.var = x := hk ▸ Lit.var_negative hx2
  have hcount : a.bodies.length < 2 ^ 32 := ha.listable.length_bodies_lt
  have hslots : ∀ i ∈ t.listAt (Lit.positive x).index ++ t.listAt (Lit.negative x).index, i < a.len := fun i hi =>
    (List.mem_append.1 hi).elim (hs.lt _ i) (hs.lt _ i)
  unfold subsumeVar
  rw [hs.wf.occurs_ok hlp, hs.wf.occurs_ok hln, ok_bind, ok_bind, totalSize_ok ha hslots, ok_bind]
  show Ends E (if limit < t.sizeAround a x then _ else _) _
  split
  · next hlt => exact ⟨.refl ha hs 0 0, fun _ => rfl, fun hle => absurd hlt (Nat.not_lt.2 hle)⟩
  next hle =>
  refine (strengthenOn_ends ha hsep hs hlp (by rwa [Lit.not_positive hx2]) hE 0).bind ?_
  rintro ⟨n₁, a₁, t₁⟩ ⟨(h₁ : Subsumed _ 0 0 a t n₁ 0 a₁ t₁), hspent₁⟩
  rw [Lit.not_positive hx2] at h₁ hspent₁
  have hvolume₁ := h₁.trims.volume_le
  rw [← h₁.size_eq hs] at hlp hln
  refine (strengthenOn_ends h₁.wf (h₁.separated hsep) h₁.sound hln (by rwa [Lit.not_negative hx2])
    (hE.imp_right fun h => Nat.lt_of_le_of_lt hvolume₁ h) 0).bind ?_
  rintro ⟨n₂, a₂, t₂⟩ ⟨(h₂ : Subsumed _ 0 0 a₁ t₁ n₂ 0 a₂ t₂), hspent₂⟩
  rw [Lit.not_negative hx2] at h₂ hspent₂
  rw [← h₂.size_eq h₁.sound] at hlp hln
  have h₁₂ : Subsumed (·.var = x) 0 0 a t (n₁ + n₂) 0 a₂ t₂ := (h₁.mono hvn).trans ((h₂.mono hvp).add n₁ 0)
  have hcount₂ := h₁₂.trims.length_bodies_le
  refine (subsumeOn_ends h₂.wf h₂.sound hlp (hE.imp_right fun h => by omega) (n₁ + n₂)).bind ?_
  rintro ⟨m₁, a₃⟩ ⟨(h₃ : Subsumed _ (n₁ + n₂) 0 a₂ t₂ (n₁ + n₂) m₁ a₃ t₂), hdrops₃, hanti₃⟩
  have hcount₃ := h₃.trims.length_bodies_le
  refine (subsumeOn_ends h₃.wf h₃.sound hln (hE.imp_right fun h => by omega) (n₁ + n₂)).bind ?_
  rintro ⟨m₂, a₄⟩ ⟨(h₄ : Subsumed _ (n₁ + n₂) 0 a₃ t₂ (n₁ + n₂) m₂ a₄ t₂), hdrops₄, hanti₄⟩
  have h₄' : Subsumed (·.var = x) (n₁ + n₂) m₁ a₃ t₂ (n₁ + n₂) (m₁ + m₂) a₄ t₂ := by
    simpa using (h₄.mono hvn).add 0 m₁
  have hall := (h₁₂.trans (h₃.mono hvp)).trans h₄'
  have hlost := hall.lost
  have hmelted := hall.melted
  refine (ends_sum32 (hE.imp_right fun h => by omega)).bind ?_
  rintro _ rfl
  refine (ends_sum32 (hE.imp_right fun h => by omega)).bind ?_
  rintro _ rfl
  refine ⟨hall, fun hlt => absurd hlt hle, fun _ hsigned hc => ?_⟩
  have hcp := hc _ (Lit.var_positive hx2)
  have hcn := hc _ (Lit.var_negative hx2)
  have hsigned₁ := h₁.trims.signed hsigned
  have hsigned₂ := h₂.trims.signed hsigned₁
  have hcp₂ := h₂.complete _ (h₁.complete _ hcp)
  have hcn₃ := h₃.complete _ (h₂.complete _ (h₁.complete _ hcn))
  refine .of_literals hx2 (fun i => ?_) (fun i => ?_) ?_ ?_
  · exact hdrops₄.spent (hdrops₃.spent (h₂.spent (hspent₁ hsigned hcp hcn i)))
  · exact hdrops₄.spent (hdrops₃.spent (hspent₂ hsigned₁ (h₁.complete _ hcn) (h₁.complete _ hcp) i))
  · exact hdrops₄.antichain (hanti₃ hsigned₂ hcp₂)
  · exact hanti₄ (h₃.trims.signed hsigned₂) hcn₃

/-- Strengthening and subsuming around the elected variables. -/
theorem subsume_ends {o : Options} {xs : List Nat} (ha : a.Wf) (hsep : a.Separated) (hs : t.Sound a)
    (hvars : w.candidateVars = .ok xs) (hx : ∀ x ∈ xs, x < t.numVars ∧ x < 2 ^ 31)
    (hE : E .overflow ∨ volume a.bodies < 2 ^ 32) :
    Ends E (subsume o a t w) fun s =>
      Subsumed (·.var ∈ xs) 0 0 a t s.1.strengthened s.1.subsumed s.2.1 s.2.2 := by
  unfold subsume
  rw [hvars, ok_bind]
  refine ends_foldlM (fun (_ : List Nat) (s : SubsumeCounts × Arena × Occurrences) =>
    Subsumed (·.var ∈ xs) 0 0 a t s.1.strengthened s.1.subsumed s.2.1 s.2.2) (.refl ha hs 0 0) ?_
  rintro done x rest ⟨counts, a₁, t₁⟩ hxs (h : Subsumed _ 0 0 a t counts.strengthened counts.subsumed a₁ t₁)
  have hmem : x ∈ xs := by rw [hxs]; simp
  have hvolume := h.trims.volume_le
  have hcount : a.bodies.length < 2 ^ 32 := ha.listable.length_bodies_lt
  refine (subsumeVar_ends (toWord o.subsumeLimit) h.wf (h.separated hsep) h.sound (h.numVars.symm ▸ (hx x hmem).1)
    (hx x hmem).2 (hE.imp_right fun h => by omega)).bind ?_
  rintro ⟨more, a₂, t₂⟩ ⟨(h' : Subsumed (·.var = x) 0 0 a₁ t₁ more.strengthened more.subsumed a₂ t₂), _⟩
  have hall := h.trans ((h'.mono fun k (hk : k.var = x) => (hk ▸ hmem : k.var ∈ xs)).add counts.strengthened
    counts.subsumed)
  have hlost := hall.lost
  have hmelted := hall.melted
  refine (ends_sum32 (hE.imp_right fun h => by omega)).bind ?_
  rintro _ rfl
  refine (ends_sum32 (hE.imp_right fun h => by omega)).bind ?_
  rintro _ rfl
  exact hall

end CnfSimp
