import CnfSimp.Proofs.Pass.HiddenRun

/-!
# The irredundant clauses

* `Arena.Sufficient`: the live irredundant clauses imply the learnt ones.
* `Arena.Sufficient.of_retains`: subsumption keeps that up, because a learnt clause that takes the place of an
  irredundant one becomes irredundant.
* `Hides.sufficient_of_binary`: so does the removal of hidden tautologies where the binary clauses left are irredundant.
  Its reasons are not made irredundant: `removeHidden_loses_core` is a run after which the irredundant clauses have more
  models.
* `core_models_iff`: which passes keep the models of the irredundant clauses.
-/

namespace CnfSimp

variable {a a' : Arena} {t : Occurrences} {w : WorkingSet} {v : Assignment} {is : List Nat} {i n n' : Nat}

namespace Arena

/-- The live irredundant clauses imply the other live ones. -/
def Sufficient (a : Arena) : Prop := ∀ v, a.CoreModels v → a.Models v

theorem Models.coreModels (h : a.Models v) : a.CoreModels v := by
  intro c hc
  obtain ⟨i, hc, _⟩ := mem_core.1 hc
  exact h.holds hc

/-- Where nothing irredundant is lost, irredundant clauses that were sufficient have the same models as before, and are
sufficient. -/
theorem Sufficient.of_retains (hs : a.Sufficient) (h : a.Retains a') (hp : Preserves a a' []) :
    (∀ v, a'.CoreModels v ↔ a.CoreModels v) ∧ a'.Sufficient :=
  ⟨fun v => ⟨h.coreModels, fun hv => (hp.down v (hs v hv)).coreModels⟩, fun v hv => hp.down v (hs v (h.coreModels hv))⟩

/-- Melting does not touch the status of a clause. -/
theorem Melts.status (h : a.Melts is a') (i : Nat) : (a'.header i).status = (a.header i).status := by
  induction h with
  | nil => rfl
  | cons hi _ ih =>
    rw [ih, melted, header_withHeader (Nat.lt_of_lt_of_le (alive_iff.1 hi).1 (len_le_slots _))]
    split
    · next he => rw [he]; rfl
    · rfl

/-- What is irredundant after melting was so before. -/
theorem Melts.coreModels (h : a.Melts is a') (ha : a.Wf) (hv : a.CoreModels v) : a'.CoreModels v := by
  intro c hc
  obtain ⟨i, hc, hirr⟩ := mem_core.1 hc
  exact hv c (mem_core.2 ⟨i, (Drops.of_melts h ha).body i c hc, h.status i ▸ hirr⟩)

end Arena

/-! ## Hidden tautologies -/

section Hides

variable (h : Hides n a n' a') (hs : a.Sufficient)
include h hs

/-- The irredundant clauses have the same models as before if and only if they are sufficient. -/
theorem Hides.coreModels_iff (ha : a.Wf) : (∀ v, a'.CoreModels v ↔ a.CoreModels v) ↔ a'.Sufficient := by
  obtain ⟨is, hmelts, _⟩ := h.melts
  constructor
  · intro hiff v hv
    exact h.preserves.down v (hs v ((hiff v).1 hv))
  · intro hs' v
    exact ⟨fun hv => (h.preserves.up v (hs' v hv)).coreModels, hmelts.coreModels ha⟩

/-- They are if the binary clauses left are irredundant. -/
theorem Hides.sufficient_of_binary (hbin : ∀ c ∈ a'.bodies, c.length = 2 → c ∈ a'.core) : a'.Sufficient := by
  obtain ⟨is, hmelts, _⟩ := h.melts
  intro v hv
  apply h.preserves.down v
  apply hs v
  intro c hc
  obtain ⟨i, hc, hirr⟩ := Arena.mem_core.1 hc
  rcases h.follows v (fun d hd h2 => hv d (hbin d hd h2)) i c hc with hc | hc
  · exact hv c (Arena.mem_core.2 ⟨i, hc, (hmelts.status i).trans hirr⟩)
  · exact hc

end Hides

/-! ## Both passes -/

/-- Let the irredundant clauses imply the learnt ones. After subsumption they have the same models as before and imply
the learnt ones again. After the removal of hidden tautologies they have the models that they had; they have no others
if and only if they imply the learnt clauses again, for which it is enough that the binary clauses left are
irredundant. Subsumption faults only where its counters overflow, and the removal of hidden tautologies does not fault
where the clauses and the marks are those of the variables of the table. -/
theorem core_models_iff {o : Options} {a : Arena} {t : Occurrences} {w : WorkingSet} {xs : List Nat}
    (ht : t.Maintained a) (hsep : a.Separated) (hvars : w.candidateVars = .ok xs) (hx : ∀ x ∈ xs, x < t.numVars)
    (hnum : t.numVars ≤ 2 ^ 31) (hs : a.Sufficient) :
    ((∀ s, subsume o a t w = .ok s → (∀ v, s.2.1.CoreModels v ↔ a.CoreModels v) ∧ s.2.1.Sufficient) ∧
      ∀ f, subsume o a t w = .error f → f = .overflow ∧ 2 ^ 32 ≤ volume a.bodies) ∧
    (∀ s, removeHidden o a t w = .ok s → (∀ v, a.CoreModels v → s.2.CoreModels v) ∧
      ((∀ v, s.2.CoreModels v ↔ a.CoreModels v) ↔ s.2.Sufficient) ∧
      ((∀ c ∈ s.2.bodies, c.length = 2 → c ∈ s.2.core) → s.2.Sufficient)) ∧
    (a.Below t.numVars → t.numVars ≤ w.elected.capacity → ∃ s, removeHidden o a t w = .ok s) := by
  obtain ⟨ha, hsound, _⟩ := ht.valid
  have hx2 : ∀ x ∈ xs, x < t.numVars ∧ x < 2 ^ 31 := fun x hxs => ⟨hx x hxs, Nat.lt_of_lt_of_le (hx x hxs) hnum⟩
  have hsub := subsume_ends (E := fun f => f = .overflow ∧ 2 ^ 32 ≤ volume a.bodies) (o := o) ha hsep hsound hvars hx2
    ((Nat.lt_or_ge (volume a.bodies) (2 ^ 32)).symm.imp_left fun h => ⟨rfl, h⟩)
  refine ⟨⟨?_, fun f hf => hsub.of_error hf⟩, ?_, exists_removeHidden ht hvars hx2⟩
  · intro s hrun
    have h := hsub.of_ok hrun
    exact hs.of_retains h.retains h.preserves
  · intro s hrun
    have h := (removeHidden_ends (E := fun _ => True) ha hsound (Or.inl fun _ => trivial) rfl hvars hx2).of_ok hrun
    obtain ⟨is, hmelts, _⟩ := h.melts
    exact ⟨fun v => hmelts.coreModels ha, h.coreModels_iff hs ha, h.sufficient_of_binary hs⟩

/-- Irredundant clauses and a learnt one behind them, their table, and a working set that elects the given variables. -/
def learnIn (core : List (List Int)) (learnt : List Int) (numVars : Nat) (vars : List Nat) :
    Except Fault (Arena × Occurrences × WorkingSet) := do
  let a ← Arena.allocate 8 32
  let (_, a) ← (Arena.appendAll core).run? a
  let (_, a) ← (Arena.append (learnt.map Lit.ofInt) .learnt).run? a
  let t ← (Occurrences.empty numVars).build a
  let (_, w) ← (WorkingSet.setCandidates vars).run? (.empty numVars)
  return (a, t, w)

theorem learnIn_ok {core : List (List Int)} {learnt : List Int} {numVars : Nat} {vars : List Nat}
    (hn : numVars ≤ 2 ^ 31) (hc : ∀ c ∈ core, ∀ i ∈ c, IsLit numVars i) (hl : ∀ i ∈ learnt, IsLit numVars i)
    (h : learnIn core learnt numVars vars = .ok (a, t, w)) :
    a.Wf ∧ a.Ordered ∧ (Occurrences.empty numVars).build a = .ok t ∧ t.numVars = numVars ∧
      w.candidateVars = .ok vars := by
  unfold learnIn at h
  simp only [bind_eq_ok_iff, pure, Except.pure, Except.ok.injEq, Prod.mk.injEq, Prod.exists] at h
  obtain ⟨a₀, halloc, _, a₁, happ, _, a, hlearn, t, hbuild, _, w, hset, rfl, rfl, rfl⟩ := h
  obtain ⟨ha₀, ho, _⟩ := (Arena.allocate_ends (E := fun _ => True) (Or.inl fun _ => trivial)).of_ok halloc
  have hcore := (Arena.appendAll_ends (E := fun _ => True) ha₀ hn hc (Or.inl fun _ => trivial)).of_ok happ
  have hlearnt := (Arena.append_ends (E := fun _ => True) hcore.wf hn hl (by decide)
    (Or.inl fun _ => trivial)).of_ok hlearn
  have helects := (WorkingSet.setCandidates_ends (E := fun _ => True) (WorkingSet.wf_empty numVars)
    (Or.inl fun _ => trivial)).of_ok hset
  refine ⟨hlearnt.wf, hlearnt.ordered (hcore.ordered ho), hbuild, ?_, ?_⟩
  · exact ((Occurrences.build_ends (E := fun _ => True) hlearnt.wf (Or.inl fun _ => trivial)).of_ok hbuild).2
  · rw [WorkingSet.candidateVars_ok helects.wf, helects.contents]

/-- Of `x₀ ∨ x₁ ∨ x₂`, `x₀ ∨ x₁ ∨ ¬x₂` and the learnt `x₀ ∨ x₁`, the third one follows from the others. -/
theorem learnIn_sufficient (h : learnIn [[1, 2, 3], [1, 2, -3]] [1, 2] 3 [0] = .ok (a, t, w)) :
    a.core = [[⟨0⟩, ⟨2⟩, ⟨4⟩], [⟨0⟩, ⟨2⟩, ⟨5⟩]] ∧ a.Sufficient := by
  have hclauses : (learnIn [[1, 2, 3], [1, 2, -3]] [1, 2] 3 [0]).map (fun r => (r.1.core, r.1.bodies)) =
      .ok ([[⟨0⟩, ⟨2⟩, ⟨4⟩], [⟨0⟩, ⟨2⟩, ⟨5⟩]], [[⟨0⟩, ⟨2⟩, ⟨4⟩], [⟨0⟩, ⟨2⟩, ⟨5⟩], [⟨0⟩, ⟨2⟩]]) := by decide +kernel
  rw [h] at hclauses
  obtain ⟨hcore, hbodies⟩ := Prod.mk.inj (Except.ok.inj hclauses)
  refine ⟨hcore, fun v hv c hc => ?_⟩
  have h₁ : Holds v [⟨0⟩, ⟨2⟩, ⟨4⟩] := hv _ (by rw [hcore]; simp)
  have h₂ : Holds v [⟨0⟩, ⟨2⟩, ⟨5⟩] := hv _ (by rw [hcore]; simp)
  have h₃ : Holds v [⟨0⟩, ⟨2⟩] := by
    have hnot : (⟨5⟩ : Lit).Holds v ↔ ¬(⟨4⟩ : Lit).Holds v := Lit.holds_not (l := ⟨4⟩)
    by_cases h₄ : (⟨4⟩ : Lit).Holds v
    · simpa [Holds, hnot, h₄] using h₂
    · simpa [Holds, h₄] using h₁
  rw [hbodies] at hc
  simp only [List.mem_cons, List.not_mem_nil, or_false] at hc
  rcases hc with rfl | rfl | rfl
  · exact h₁
  · exact h₂
  · exact h₃

/-- Subsumption makes the learnt clause irredundant before it melts the other two. -/
theorem core_models_iff_three_clauses : ∃ a t w s, learnIn [[1, 2, 3], [1, 2, -3]] [1, 2] 3 [0] = .ok (a, t, w) ∧
    subsume {} a t w = .ok s ∧ (∀ v, s.2.1.CoreModels v ↔ a.CoreModels v) ∧ s.2.1.Sufficient := by
  obtain ⟨s, hs⟩ := exists_ok_of_isOk (x := do
    let r ← learnIn [[1, 2, 3], [1, 2, -3]] [1, 2] 3 [0]
    subsume {} r.1 r.2.1 r.2.2) (by decide +kernel)
  obtain ⟨⟨a, t, w⟩, hset, hs⟩ := bind_eq_ok_iff.1 hs
  obtain ⟨ha, ho, hbuild, hnum, hvars⟩ := learnIn_ok (by decide) (by decide) (by decide) hset
  have hsuff := (learnIn_sufficient hset).2
  obtain ⟨hcore, hs'⟩ := (core_models_iff (.built ha hbuild) ho.separated hvars (by rw [hnum]; decide)
    (by rw [hnum]; decide) hsuff).1.1 s hs
  exact ⟨a, t, w, s, hset, hs, hcore, hs'⟩

/-- The removal of hidden tautologies melts the other two as well, and leaves the clause learnt. Then any assignment is
a model of the irredundant clauses. -/
theorem removeHidden_loses_core : ∃ a t w s, learnIn [[1, 2, 3], [1, 2, -3]] [1, 2] 3 [0] = .ok (a, t, w) ∧
    a.Sufficient ∧ removeHidden {} a t w = .ok s ∧ ¬∀ v, s.2.CoreModels v ↔ a.CoreModels v := by
  have hrun : (learnIn [[1, 2, 3], [1, 2, -3]] [1, 2] 3 [0] >>= fun r => removeHidden {} r.1 r.2.1 r.2.2).map
      (fun s => s.2.core) = .ok [] := by decide +kernel
  obtain ⟨s, hs, hempty⟩ := map_eq_ok_iff.1 hrun
  obtain ⟨⟨a, t, w⟩, hset, hs⟩ := bind_eq_ok_iff.1 hs
  obtain ⟨hcore, hsuff⟩ := learnIn_sufficient hset
  refine ⟨a, t, w, s, hset, hsuff, hs, fun hiff => ?_⟩
  have hall : s.2.CoreModels fun _ => false := by
    intro c hc
    rw [← hempty] at hc
    cases hc
  have hfalse := (hiff _).1 hall [⟨0⟩, ⟨2⟩, ⟨4⟩] (by rw [hcore]; simp)
  exact absurd hfalse (by decide)

end CnfSimp
