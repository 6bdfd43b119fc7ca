import CnfSimp.Proofs.Simplifier.Answers

/-!
# What a run leaves

* `Arena.Packed`: an arena whose slots hold exactly the given clauses, each live, with its signature, in the cells right
  behind those of the one before. Compaction of clauses with their signatures gives one (`Arena.Compacted.packed`).
* `Simplifier.Leaves`: the state in which a run ends, by the clauses and the unit literals in it
  (`Simplifier.Stages.leaves`).
* `run_leaves`: every run that answers leaves such a state.
-/

namespace CnfSimp

namespace Arena

variable {a : Arena} {cs : List (List Lit)} {c : List Lit} {k : Nat}

/-- Every slot in use holds a live clause, and these are the given ones: each with its size and its signature, and with
its literals right behind those of the clauses before it, from the first cell on. -/
structure Packed (a : Arena) (cs : List (List Lit)) : Prop where
  len : a.len = cs.length
  numLits : a.numLits = volume cs
  live : a.live = .ok (List.range a.len)
  clause : ∀ k c, cs[k]? = some c → ∃ d, a.clause k = .ok d ∧ d.lits = .ok c ∧ d.size = c.length ∧
    d.header.sig = signature c ∧ d.start = volume (cs.take k)

namespace Compacted

variable (h : a.Compacted cs)
include h

theorem len : a.len = cs.length := by
  have hle := a.length_bodies_le_slots
  rw [h.bodies, ← h.clauseCount] at hle
  unfold Arena.len capacity
  rw [Nat.min_eq_left hle, h.clauseCount]

theorem numLits : a.numLits = volume cs := by
  have hle := h.ordered.volume_le h.wf
  rw [h.bodies, ← h.litCount] at hle
  unfold Arena.numLits litCapacity
  rw [Nat.min_eq_left hle, h.litCount]

theorem body_eq (hk : cs[k]? = some c) : a.body k = some c := by
  rw [h.body k (List.getElem?_eq_some_iff.1 hk).1, hk]

/-- No slot is wasted. -/
theorem live_ok : a.live = .ok (List.range a.len) := by
  rw [h.wf.live_ok]
  refine congrArg Except.ok (List.filter_eq_self.2 fun k hk => ?_)
  have hlt : k < cs.length := h.len ▸ List.mem_range.1 hk
  exact (body_eq_some_iff.1 (h.body_eq (List.getElem?_eq_getElem hlt))).1

theorem packed (hs : a.Signed) : a.Packed cs := by
  refine ⟨h.len, h.numLits, h.live_ok, fun k c hk => ?_⟩
  have hb := h.body_eq hk
  have hlt := lt_of_body hb
  refine ⟨a.clauseAt k, clause_ok hlt, ?_, h.size k c hk, hs k c hb, ?_⟩
  · rw [h.wf.lits_clauseAt hlt, text_of_body hb]
  · exact h.start k (List.getElem?_eq_some_iff.1 hk).1

end Compacted

end Arena

/-! ## Runs -/

namespace Simplifier

variable {s u t : Simplifier} {a : Arena} {w : WorkingSet} {n k : Nat}

/-- A run over `n` variables has led from `s` to `t`, where the given clauses and unit literals are left. What was a
unit clause when the phases had ended is one of the unit literals. -/
structure Leaves (n : Nat) (s t : Simplifier) (left : List (List Lit)) (units : List Lit) : Prop where
  packed : t.arena.Packed left
  ascends : ∀ c ∈ left, c.Pairwise (· < ·)
  noUnits : ∀ c ∈ left, c.length ≠ 1
  clausesAfter : t.report.clausesAfter = t.arena.len
  litsAfter : t.report.litsAfter = t.arena.numLits
  unusedVars : t.report.unusedVars = (absent n left).length
  unitLits : t.work.unitLits = .ok units
  nodup : units.Nodup
  collected : ∃ u last, s.beforeUnits = .ok u ∧ u.fromUnits = .ok t ∧ u.arena.mapLive (fun _ c => c.lits) = .ok last ∧
    ∀ l, [l] ∈ last → l ∈ units

theorem Stages.leaves (hst : Stages n k s u a w t) (hrun : s.run = .ok t) (hs : s.arena.Signed) :
    Leaves n s t a.bodies w.units.contents := by
  obtain ⟨units, hreport⟩ := hst.report
  have hbodies := hst.compacted.bodies
  have hunits : t.work.units.contents = w.units.contents := by rw [hst.work]
  refine ⟨hst.compacted.packed (hst.signed_arena hs), fun c hc => ?_, fun c hc hlen => ?_, ?_, ?_, ?_, ?_, ?_, u,
    u.arena.bodies, hst.before, ?_, hst.runs.wf.arena.mapLive_lits_ok, hst.units⟩
  · obtain ⟨i, hi⟩ := Arena.mem_bodies.1 (hbodies ▸ hc)
    exact hst.wf.arena.ascends i c hi
  · obtain ⟨l, rfl⟩ := List.length_eq_one_iff.1 hlen
    exact hst.noUnits l hc
  · rw [hreport, hst.compacted.len, ← hbodies]
    exact hst.counted.numClauses
  · rw [hreport, hst.compacted.numLits, ← hbodies]
    exact hst.counted.numLits
  · rw [hreport, ← hbodies]
    exact hst.counted.unusedVars_eq hst.wf.sized.seen
  · rw [← hunits]
    exact WorkingSet.unitLits_ok hst.wf.work
  · rw [← hunits]
    exact hst.wf.work.nodup
  · rwa [run_eq, hst.before] at hrun

end Simplifier

open Simplifier in
/-- Whatever the clauses of the first `n` variables and the options, a first or repeated run that answers leaves an
arena without gaps, in which every slot in use holds a live and strictly ascending clause with its signature, but no
unit clause. It reports the clauses, the literals and the absent variables of this arena. The unit literals are
distinct, and those of all unit clauses that the phases have left are among them. Over inputs in range a first run
answers unless the capacity for unit literals wraps around. -/
theorem run_leaves {clauses : List (List Int)} {n : Nat} (hn : n ≤ 2 ^ 31) (hc : ∀ c ∈ clauses, ∀ i ∈ c, IsLit n i) :
    (∀ o a s s' t, Arena.ofDimacs clauses = .ok a → ofArena o a n = .ok s →
      Relation.ReflTransGen (fun s t => s.run = .ok t) s s' → s'.run = .ok t →
      ∃ left units, s'.Leaves n t left units) ∧
    ∀ o, Simplifiable n o clauses → n < 2 ^ 31 - 1 →
      ∃ a s t, Arena.ofDimacs clauses = .ok a ∧ ofArena o a n = .ok s ∧ s.run = .ok t := by
  refine ⟨fun o a s s' t ha hs hruns hrun => ?_, fun o h hlt => h.answers hlt⟩
  obtain ⟨rfl, hwf, _⟩ := start_of_ok hn hc ha hs
  have hsigned := signed_of_runs hruns hn hwf (Arena.signed_ofDimacs hn hc ha)
  obtain ⟨u, a', w, hst⟩ := run_stages hn (wf_of_runs hruns hn hwf) hrun
  exact ⟨_, _, hst.leaves hrun hsigned⟩

open Simplifier in
/-- Of six clauses three are left over six variables; two variables have been eliminated and one literal is a unit. -/
theorem run_leaves_six_clauses : ∃ a s t left units,
    Arena.ofDimacs [[1, 2], [-1, 3], [-2, -3], [2, 4], [2, 5], [5]] = .ok a ∧
    ofArena { minCandidates := 1, phases := 1, posOccursLimit := 1, negOccursLimit := 1 } a 6 = .ok s ∧
    s.run = .ok t ∧ s.Leaves 6 t left units ∧ left.length = 3 ∧ volume left = 6 ∧ (absent 6 left).length = 3 := by
  obtain ⟨t, ht⟩ := exists_ok_of_isOk (x := do
    let a ← Arena.ofDimacs [[1, 2], [-1, 3], [-2, -3], [2, 4], [2, 5], [5]]
    let s ← ofArena { minCandidates := 1, phases := 1, posOccursLimit := 1, negOccursLimit := 1 } a 6
    let t ← s.run
    if (t.report.clausesAfter, t.report.litsAfter, t.report.unusedVars) = (3, 6, 3) then
      return t
    else
      throw .failedCheck) (by decide +kernel)
  obtain ⟨a, ha, ht⟩ := bind_eq_ok_iff.1 ht
  obtain ⟨s, hs, ht⟩ := bind_eq_ok_iff.1 ht
  obtain ⟨t, hrun, ht⟩ := bind_eq_ok_iff.1 ht
  split at ht
  · next hreport =>
    simp only [Prod.mk.injEq] at hreport
    obtain ⟨hclauses, hlits, hunused⟩ := hreport
    obtain ⟨left, units, hleaves⟩ := (run_leaves (by decide) (by decide)).1 _ a s s t ha hs .refl hrun
    refine ⟨a, s, t, left, units, ha, hs, hrun, hleaves, ?_, ?_, ?_⟩
    · rw [← hleaves.packed.len, ← hleaves.clausesAfter, hclauses]
    · rw [← hleaves.packed.numLits, ← hleaves.litsAfter, hlits]
    · rw [← hleaves.unusedVars, hunused]
  · cases ht

end CnfSimp
