import CnfSimp.Proofs.Simplifier.Steps

/-!
# Rounds

* `Simplifier.Fresh`: variables are elected, no two of which share a live clause, and the lists are those of the arena.
* `Simplifier.Ready`: variables are elected, and their lists can be used. `Simplifier.Valid`: besides, only live clauses
  are listed. Every pass keeps this up, as it reduces the lists when it is done.
* `Simplifier.Passes`: what passes do. They are steps, and leave alone what is counted between rounds.
* `Simplifier.runEliminate_ends` and its companions: the passes. The room made for resolvents is enough
  (`Simplifier.reserve_ends`).
* `Simplifier.round_ends`: a round.
-/

namespace CnfSimp

namespace Simplifier

variable {E : Fault → Prop} {s t u : Simplifier} {n clauses lits : Nat} {xs : List Nat} {kept : Nat → Prop}

/-- What is counted between rounds. -/
def clock (s : Simplifier) : Nat × Nat × Nat × Nat :=
  (s.compactions, s.report.rounds, s.report.phases, s.work.heat)

/-- What passes do. -/
structure Passes (n : Nat) (s t : Simplifier) : Prop extends Refines n s t where
  clock : t.clock = s.clock

theorem Passes.refl (h : s.Wf n) : Passes n s s := ⟨.refl h, rfl⟩

theorem Passes.trans (h : Passes n s t) (h' : Passes n t u) : Passes n s u :=
  ⟨h.toRefines.trans h'.toRefines, h'.clock.trans h.clock⟩

/-- The lists have just been built, and variables without common clauses are elected. -/
structure Fresh (n : Nat) (xs : List Nat) (s : Simplifier) : Prop extends Wf s n where
  table : s.table.Exact s.arena
  candidates : s.work.candidates.contents = xs
  nodup : xs.Nodup
  below : ∀ x ∈ xs, x < n
  apart : ∀ x ∈ xs, ∀ y ∈ xs, x ≠ y → s.arena.Apart x y

/-- Variables are elected, and their lists can be used. Those of the variables that are kept are complete. -/
structure Ready (n : Nat) (xs : List Nat) (kept : Nat → Prop) (s : Simplifier) : Prop extends Wf s n where
  table : s.table.Sound s.arena
  candidates : s.work.candidates.contents = xs
  below : ∀ x ∈ xs, x < n
  usable : ∀ x ∈ xs, s.table.Usable s.arena x
  complete : ∀ x ∈ xs, kept x → ∀ l : Lit, l.var = x → s.table.Complete s.arena l

/-- Besides, the lists hold live clauses only. -/
structure Valid (n : Nat) (xs : List Nat) (kept : Nat → Prop) (s : Simplifier) : Prop extends Ready n xs kept s where
  alive : ∀ i, ∀ x ∈ s.table.listAt i, s.arena.alive x

theorem Wf.candidateVars_ok (h : s.Wf n) (hxs : s.work.candidates.contents = xs) : s.work.candidateVars = .ok xs := by
  rw [WorkingSet.candidateVars_ok h.work, hxs]

theorem Fresh.valid (h : s.Fresh n xs) (kept : Nat → Prop) : s.Valid n xs kept where
  toWf := h.toWf
  table := h.table.sound
  candidates := h.candidates
  below := h.below
  usable _ _ := Or.inl fun l _ => h.table.complete l
  complete _ _ _ l _ := h.table.complete l
  alive := h.table.alive

/-- The tables of elected variables have their lists. -/
theorem Fresh.lt (h : s.Fresh n xs) : ∀ x ∈ xs, x < s.table.numVars := h.numVars.symm ▸ h.below

/-- The bounds of elected variables. -/
theorem Ready.lt (h : s.Ready n xs kept) (hn : n ≤ 2 ^ 31) : ∀ x ∈ xs, x < s.table.numVars ∧ x < 2 ^ 31 := fun x hx =>
  ⟨h.numVars.symm ▸ h.below x hx, Nat.lt_of_lt_of_le (h.below x hx) hn⟩

/-! ## Lists -/

/-- Dropping clauses that are not live from the lists. -/
theorem reduce_ends (h : s.Ready n xs kept) :
    Ends E s.reduce fun t => Passes n s t ∧ t.removed = s.removed ∧ t.Valid n xs kept := by
  unfold reduce
  refine (Occurrences.reduce_ends h.arena h.table.wf h.table.lt).bind ?_
  rintro ⟨_, table⟩ ⟨hwf, hsize, hnum, hlist⟩
  have hsound := h.table.reduced hwf hsize hnum hlist
  have hcomplete (l : Lit) (hl : s.table.Complete s.arena l) : table.Complete s.arena l := fun j c hb hlc => by
    rw [hlist]
    exact List.mem_filter.2 ⟨hl j c hb hlc, (Arena.body_eq_some_iff.1 hb).1⟩
  have husable (x : Nat) (hu : s.table.Usable s.arena x) : table.Usable s.arena x := by
    refine hu.imp (fun hc l hl => hcomplete l (hc l hl)) fun hd l hl j hj => ?_
    rw [hlist] at hj
    exact hd l hl j (List.mem_of_mem_filter hj)
  have ht : Valid n xs kept { s with table } := {
    arena := h.arena, ordered := h.ordered, within := h.within, work := h.work, sized := h.sized
    numVars := hnum.trans h.numVars
    size := hsize.trans h.size
    table := hsound
    candidates := h.candidates
    below := h.below
    usable x hx := husable x (h.usable x hx)
    complete x hx hk l hl := hcomplete l (h.complete x hx hk l hl)
    alive i x hx := (List.mem_filter.1 (hlist i ▸ hx)).2 }
  exact ⟨⟨.of_bodies ht.toWf rfl id rfl rfl rfl rfl rfl rfl, rfl⟩, rfl, ht⟩

/-- Making room for clauses keeps those that are there, and the room is enough. -/
theorem reserve_ends (h : s.Fresh n xs) (hE : (∀ f, E f) ∨
    s.arena.bodies.length + clauses < 2 ^ 32 ∧ volume s.arena.bodies + lits < 2 ^ 61) :
    Ends E (s.reserve clauses lits) fun t => Passes n s t ∧ t.Fresh n xs ∧ t.arena.bodies = s.arena.bodies ∧
      t.removed = s.removed ∧ clauses ≤ t.arena.freeClauses ∧ lits ≤ t.arena.freeLits := by
  unfold reserve
  split
  · next hfree => exact ⟨.refl h.toWf, h, rfl, rfl, hfree.1, hfree.2⟩
  obtain ⟨s₁, hcount, heq, hrefines, hcounted⟩ := count_ok h.toWf
  have hwf := hrefines.wf
  have harena : s₁.arena = s.arena := by rw [heq]
  have hclauses := hcounted.numClauses
  have hlits := hcounted.numLits
  rw [harena] at hclauses hlits
  rw [hcount, ok_bind, hclauses, hlits]
  refine (ends_sum32_lt (hE.imp (fun hE => hE _) And.left)).bind ?_
  rintro m ⟨rfl, hm⟩
  refine (ends_sum64_lt (hE.imp (fun hE => hE _) fun hE => Nat.lt_trans hE.2 (by decide))).bind ?_
  rintro k ⟨rfl, hk⟩
  refine (moveTo_ends hwf hm hk (hE.imp_right And.right) (by rw [harena]; omega) (by rw [harena]; omega)).bind ?_
  rintro s₂ ⟨heq₂, hcompacted, hsigned, hslots, hcells⟩
  rw [harena] at hcompacted hsigned
  have hwithin := hcompacted.within n h.within.below
  have htable : s₂.table = s.table := by rw [heq₂, heq]
  refine (Occurrences.build_ends (t := s₂.table) hcompacted.wf (Or.inr ⟨?_, ?_⟩)).bind ?_
  · rw [htable, h.numVars, h.size]
  · rw [htable, h.numVars]
    exact hwithin.below.codesBelow (Nat.le_refl n)
  rintro table ⟨hexact, hnum⟩
  have hwork : s₂.work = s₁.work := by rw [heq₂]
  have hcand : s₁.work.candidates = s.work.candidates := by rw [heq]
  have ht : Fresh n xs { s₂ with table } := {
    arena := hcompacted.wf, ordered := hcompacted.ordered, within := hwithin
    work := hwork ▸ hwf.work
    sized := hwork ▸ hwf.sized
    numVars := by rw [hnum, htable, h.numVars]
    size := by rw [hexact.size, hnum, htable, h.numVars]
    table := hexact
    candidates := by rw [hwork, hcand, h.candidates]
    nodup := h.nodup
    below := h.below
    apart x hx y hy hxy := (h.apart x hx y hy hxy).congr hcompacted.bodies }
  have hbound := hcompacted.clauseCount
  have hbound' := hcompacted.litCount
  have hremoved : s₂.removed = s.removed := by rw [heq₂, heq]
  refine ⟨⟨.of_bodies ht.toWf hcompacted.bodies hsigned ?_ hremoved ?_ ?_ ?_ ?_, ?_⟩, ht, hcompacted.bodies, hremoved,
    ?_, ?_⟩
  · rw [heq₂, heq]
  · rw [heq₂, heq]
  · rw [heq₂, heq]
  · rw [heq₂, heq]
  · rw [heq₂, heq]
  · rw [heq₂, heq]
    rfl
  · show clauses ≤ s₂.arena.freeClauses
    unfold Arena.freeClauses Arena.capacity Arena.len
    omega
  · show lits ≤ s₂.arena.freeLits
    unfold Arena.freeLits Arena.litCapacity Arena.numLits
    omega

/-! ## Single passes -/

/-- Clauses can go. -/
theorem Ready.dropped {a : Arena} (h : s.Ready n xs kept) (hd : Drops s.arena a) (r : Reconstruction) (p : Report) :
    Ready n xs kept { s with arena := a, removed := r, report := p } where
  arena := hd.wf
  ordered := hd.ordered h.ordered
  within := hd.trims.within h.within
  work := h.work
  sized := h.sized
  numVars := h.numVars
  size := h.size
  table := hd.sound h.table
  candidates := h.candidates
  below := h.below
  usable x hx := hd.usable (h.usable x hx)
  complete x hx hk l hl := hd.complete (h.complete x hx hk l hl)

/-- Clauses go if they are repaired by those on the stack, and only clauses that go are counted. -/
theorem Passes.of_dropped {a : Arena} {gone : List Removal} {p : Report} (h : s.Ready n xs kept) (hd : Drops s.arena a)
    (hpres : Preserves s.arena a gone) (hgone : ∀ g ∈ gone, g.witness ∈ g.lits ∧ g.lits ∈ s.arena.bodies)
    (hp : p = { s.report with blocked := p.blocked, hidden := p.hidden })
    (hcleared : p.cleared + a.mass ≤ s.report.cleared + s.arena.mass) :
    Passes n s { s with arena := a, removed := ⟨gone.reverse ++ s.removed.stack⟩, report := p } where
  wf := (h.dropped hd _ _).toWf
  options := rfl
  gone := ⟨gone, rfl, hpres, fun g hg => ⟨(hgone g hg).1, h.within.below _ (hgone g hg).2⟩⟩
  units := ⟨[], by simp, by simp⟩
  mass := hd.trims.mass_le
  bulk := hd.trims.bulk_le
  slack := hd.trims.slack_le
  strengthened := by
    rw [hp]
    exact Nat.add_le_add_left hd.trims.bulk_le _
  cleared := hcleared
  eliminated := by
    rw [hp]
    exact Nat.add_le_add_left hd.trims.spread_le _
  signed := hd.trims.signed
  clock := by
    show (_, p.rounds, p.phases, _) = _
    rw [hp]
    rfl

/-- Elected variables fit into literals. -/
theorem Fresh.lt_code (h : s.Fresh n xs) (hn : n ≤ 2 ^ 31) : ∀ x ∈ xs, x < 2 ^ 31 := fun x hx =>
  Nat.lt_of_lt_of_le (h.below x hx) hn

theorem Fresh.pairwise (h : s.Fresh n xs) : xs.Pairwise s.arena.Apart :=
  h.nodup.imp_of_mem fun hx hy hne => h.apart _ hx _ hy hne

section Eliminated

variable {a : Arena} {w : WorkingSet} {gone : List (List Removal)} {limit : Nat} (hn : n ≤ 2 ^ 31)
  (h : s.Fresh n xs) (hall : EliminatesAll limit s.arena xs gone a) (hgain : s.work.Gains w s.arena.Yields)
include hn h hall hgain

/-- Variables can be eliminated. Those that leave nothing on the stack are kept. -/
theorem Fresh.eliminated (r : Reconstruction) (p : Report) :
    Ready n xs (fun x => ∀ g ∈ gone.flatten, g.witness.var ≠ x)
      { s with arena := a, work := w, removed := r, report := p } := by
  have hlists (x : Nat) (hx : x ∈ xs) := hall.complete_or h.arena (h.lt_code hn) h.pairwise h.table.sound
    (fun l _ => h.table.complete l) hx
  exact {
    arena := hall.wf h.arena
    ordered := hall.ordered h.arena h.ordered
    within := hall.within h.arena h.within
    work := hgain.wf
    sized := hgain.sized n h.sized fun l ⟨_, c, hc, hl⟩ => h.within.below c hc l hl
    numVars := h.numVars
    size := h.size
    table := hall.sound h.arena h.table.sound
    candidates := by
      show w.candidates.contents = xs
      rw [hgain.same]
      exact h.candidates
    below := h.below
    usable x hx := (hlists x hx).imp_right And.right
    complete x hx hk := (hlists x hx).resolve_right fun ⟨⟨g, hg, hgx⟩, _⟩ => hk g hg hgx }

theorem Passes.of_eliminated :
    Passes n s { s with
      arena := a, work := w, removed := ⟨gone.flatten.reverse ++ s.removed.stack⟩,
      report.eliminated := s.report.eliminated + gone.countP (!·.isEmpty) } := by
  obtain ⟨hmass, hbulk, hslack⟩ := hall.weights_le h.arena (h.lt_code hn)
  have hspread := hall.countP_le h.arena (h.lt_code hn) h.below
  exact {
    wf := (h.eliminated hn hall hgain _ _).toWf
    options := rfl
    gone := by
      refine ⟨gone.flatten, rfl, hall.preserves h.arena (h.lt_code hn) h.pairwise, fun g hg => ?_⟩
      obtain ⟨hw, _, hmem⟩ := hall.mem_gone h.arena (h.lt_code hn) h.pairwise hg
      exact ⟨hw, fun l hl => h.within.below _ hmem l hl⟩
    units := by
      obtain ⟨new, hnew, hyields⟩ := hgain.contents
      exact ⟨new, hnew, fun l hl v hv => (hyields l hl).1 v hv⟩
    mass := hmass
    bulk := hbulk
    slack := hslack
    strengthened := Nat.add_le_add_left hbulk _
    cleared := Nat.add_le_add_left hmass _
    eliminated := by
      show s.report.eliminated + _ + a.spread n ≤ _
      omega
    signed := hall.signed h.arena
    clock := by
      show (_, _, _, w.heat) = _
      rw [hgain.same]
      rfl }

end Eliminated

section Subsumed

variable {p : Lit → Prop} {a : Arena} {table : Occurrences} {i j : Nat} (h : s.Ready n xs kept)
  (hsub : Subsumed p 0 0 s.arena s.table i j a table)
include h hsub

/-- Clauses can be subsumed and strengthened. -/
theorem Ready.subsumed (r : Report) : Ready n xs kept { s with arena := a, table, report := r } where
  arena := hsub.wf
  ordered := hsub.ordered h.ordered
  within := hsub.trims.within h.within
  work := h.work
  sized := h.sized
  numVars := hsub.numVars.trans h.numVars
  size := (hsub.size_eq h.table).trans h.size
  table := hsub.sound
  candidates := h.candidates
  below := h.below
  usable x hx := hsub.usable x (h.usable x hx)
  complete x hx hk l hl := hsub.complete l (h.complete x hx hk l hl)

theorem Passes.of_subsumed :
    Passes n s { s with
      arena := a, table, report.subsumed := s.report.subsumed + j,
      report.strengthened := s.report.strengthened + i } where
  wf := (h.subsumed hsub _).toWf
  options := rfl
  gone := ⟨[], rfl, hsub.preserves, by simp⟩
  units := ⟨[], by simp, by simp⟩
  mass := hsub.trims.mass_le
  bulk := hsub.trims.bulk_le
  slack := hsub.trims.slack_le
  strengthened := by
    have := hsub.lost_bulk
    show s.report.strengthened + i + a.bulk ≤ _
    omega
  cleared := by
    have := hsub.melted_mass
    show s.report.subsumed + j + s.report.blocked + s.report.hidden + a.mass ≤
      s.report.subsumed + s.report.blocked + s.report.hidden + s.arena.mass
    omega
  eliminated := Nat.add_le_add_left hsub.trims.spread_le _
  signed := hsub.trims.signed
  clock := rfl

end Subsumed

section Passes

variable (hn : n ≤ 2 ^ 31) (hE : Safe E n s)
include hn hE

/-- The resolvents fit into an arena with the clauses. -/
theorem Fresh.room (h : s.Fresh n xs) (limit : Nat) : (∀ f, E f) ∨
    s.arena.bodies.length + (s.arena.eliminations limit xs).length < 2 ^ 32 ∧
      volume s.arena.bodies + volume (s.arena.eliminations limit xs) < 2 ^ 61 := by
  have ⟨hcount, hvolume⟩ : (s.arena.eliminations limit xs).length ≤ s.arena.mass ∧
      volume (s.arena.eliminations limit xs) ≤ s.arena.bulk := eliminations_le (h.lt_code hn) h.nodup h.apart
  have hbodies := s.arena.length_bodies_le_mass
  have hbulk := s.arena.bulk_eq
  rcases hE with hE | ⟨_, hfits⟩
  · exact Or.inl hE
  · have := hfits.room
    have := hfits.strengthened
    exact Or.inr ⟨by omega, by omega⟩

/-- The pass that eliminates variables. Those that leave nothing on the stack are kept. -/
theorem runEliminate_ends (h : s.Fresh n xs) :
    Ends E s.runEliminate fun t => Passes n s t ∧ ∃ gone : List Removal,
      t.removed = ⟨gone.reverse ++ s.removed.stack⟩ ∧ t.Valid n xs fun x => ∀ g ∈ gone, g.witness.var ≠ x := by
  have hroom := h.room hn hE (toWord s.options.resolventLimit)
  have hnum : s.table.numVars ≤ 2 ^ 31 := h.numVars.symm ▸ hn
  unfold runEliminate
  refine (resolventRoom_ends h.arena h.table (h.candidateVars_ok h.candidates) h.lt hnum
    (hroom.imp_right fun hroom => ⟨?_, ?_⟩)).bind ?_
  · omega
  · show volume _ < _
    omega
  rintro _ rfl
  refine (reserve_ends h hroom).bind ?_
  rintro s₁ ⟨hpasses, h₁, hsame, hremoved, hclauses, hlits⟩
  have hE₁ := hE.refines hpasses.toRefines
  rw [← Arena.eliminations_congr hsame, ← hpasses.options] at hclauses hlits
  have hnum₁ : s₁.table.numVars ≤ 2 ^ 31 := h₁.numVars.symm ▸ hn
  refine (eliminate_ends h₁.arena h₁.work h₁.table (h₁.candidateVars_ok h₁.candidates) h₁.nodup h₁.lt hnum₁ h₁.apart
    (hE₁.imp_right fun ⟨hunits, _⟩ => ⟨Arena.roomFor_of_free hclauses hlits (nil_notMem_eliminations _ _ _), h₁.sized,
      h₁.within.below, hunits⟩)).bind ?_
  rintro ⟨m, a, w, r⟩ ⟨gone, hall, rfl, hgain, rfl⟩
  simp only at hall hgain
  refine (ends_sum32 (hE₁.overflow fun hfits => ?_)).bind ?_
  · have := hfits.eliminated
    have := hall.countP_le h₁.arena (h₁.lt_code hn) h₁.below
    omega
  rintro _ rfl
  refine (reduce_ends (h₁.eliminated hn hall hgain _ _)).imp fun t ⟨hreduce, hstack, ht⟩ => ?_
  exact ⟨hpasses.trans ((Passes.of_eliminated hn h₁ hall hgain).trans hreduce), _, hremoved ▸ hstack, ht⟩

/-- The pass that subsumes and strengthens clauses. -/
theorem runSubsume_ends (h : s.Ready n xs kept) :
    Ends E s.runSubsume fun t => Passes n s t ∧ t.Valid n xs kept := by
  unfold runSubsume
  refine (subsume_ends h.arena h.ordered.separated h.table (h.candidateVars_ok h.candidates) (h.lt hn)
    (hE.overflow fun hfits => ?_)).bind ?_
  · have := hfits.strengthened
    have := s.arena.bulk_eq
    omega
  rintro ⟨counts, a, table⟩ hsub
  have hlost := hsub.lost_bulk
  have hmelted := hsub.melted_mass
  simp only [Nat.zero_add] at hlost hmelted
  refine (ends_sum32 (hE.overflow fun hfits => ?_)).bind ?_
  · have := hfits.cleared
    unfold Report.cleared at this
    omega
  rintro _ rfl
  refine (ends_sum32 (hE.overflow fun hfits => ?_)).bind ?_
  · have := hfits.strengthened
    omega
  rintro _ rfl
  exact (reduce_ends (h.subsumed hsub _)).imp fun t ⟨hreduce, _, ht⟩ => ⟨(Passes.of_subsumed h hsub).trans hreduce, ht⟩

/-- The pass that removes blocked clauses. -/
theorem runBlocked_ends (h : s.Ready n xs kept) :
    Ends E s.runBlocked fun t => Passes n s t ∧ t.Valid n xs kept := by
  unfold runBlocked
  refine (removeBlocked_ends h.arena h.table (h.candidateVars_ok h.candidates) fun x hx =>
    ⟨h.usable x hx, h.lt hn x hx⟩).bind ?_
  rintro ⟨_, a, _⟩ ⟨gone, rfl, hblocks, rfl⟩
  have hcount : gone.length + a.mass ≤ s.arena.mass := hblocks.count
  refine (ends_sum32 (hE.overflow fun hfits => ?_)).bind ?_
  · have := hfits.cleared
    unfold Report.cleared at this
    omega
  rintro _ rfl
  refine (reduce_ends (h.dropped hblocks.toDrops _ _)).imp fun t ⟨hred, _, ht⟩ => ⟨Passes.trans ?_ hred, ht⟩
  refine .of_dropped h hblocks.toDrops hblocks.preserves hblocks.mem rfl ?_
  show s.report.subsumed + (s.report.blocked + gone.length) + s.report.hidden + a.mass ≤
    s.report.subsumed + s.report.blocked + s.report.hidden + s.arena.mass
  omega

/-- The pass that removes hidden tautologies. -/
theorem runHidden_ends (h : s.Ready n xs kept) :
    Ends E s.runHidden fun t => Passes n s t ∧ t.Valid n xs kept := by
  unfold runHidden
  refine (removeHidden_ends h.arena h.table (Or.inr ⟨h.table.within h.within, Nat.le_of_eq h.sized.elected.symm⟩)
    h.numVars (h.candidateVars_ok h.candidates) fun x hx => ⟨h.below x hx, (h.lt hn x hx).2⟩).bind ?_
  rintro ⟨m, a⟩ hhides
  have hcount := hhides.count
  simp only at hcount
  refine (ends_sum32 (hE.overflow fun hfits => ?_)).bind ?_
  · have := hfits.cleared
    unfold Report.cleared at this
    omega
  rintro _ rfl
  refine (reduce_ends (h.dropped hhides.toDrops s.removed _)).imp fun t ⟨hred, _, ht⟩ => ⟨Passes.trans ?_ hred, ht⟩
  have hmem : ∀ g ∈ ([] : List Removal), g.witness ∈ g.lits ∧ g.lits ∈ s.arena.bodies := by simp
  refine .of_dropped h hhides.toDrops hhides.preserves hmem rfl ?_
  show s.report.subsumed + s.report.blocked + (s.report.hidden + m) + a.mass ≤
    s.report.subsumed + s.report.blocked + s.report.hidden + s.arena.mass
  omega

end Passes

/-- A pass that is not enabled does nothing. -/
theorem runIf_ends {pass : Simplifier → Except Fault Simplifier} {enabled : Bool} (h : s.Valid n xs kept)
    (hpass : Ends E (pass s) fun t => Passes n s t ∧ t.Valid n xs kept) :
    Ends E (s.runIf enabled pass) fun t => Passes n s t ∧ t.Valid n xs kept := by
  unfold runIf
  split
  · exact hpass
  · exact ⟨.refl h.toWf, h⟩

/-- So does elimination. -/
theorem runIf_eliminate_ends {enabled : Bool} (hn : n ≤ 2 ^ 31) (hE : Safe E n s) (h : s.Fresh n xs) :
    Ends E (s.runIf enabled runEliminate) fun t => Passes n s t ∧ ∃ gone : List Removal,
      t.removed = ⟨gone.reverse ++ s.removed.stack⟩ ∧ t.Valid n xs fun x => ∀ g ∈ gone, g.witness.var ≠ x := by
  unfold runIf
  split
  · exact runEliminate_ends hn hE h
  · exact ⟨.refl h.toWf, [], rfl, h.valid _⟩

/-! ## All passes -/

/-- Electing variables. -/
theorem prepare_ends (hn : n ≤ 2 ^ 31) (h : s.Wf n) :
    Ends E s.prepare fun r => ∃ xs, r.1 = xs.length ∧ Passes n s r.2 ∧ r.2.removed = s.removed ∧ r.2.Fresh n xs ∧
      (s.Counted → r.2.Counted) := by
  have hcodes := h.within.below.codesBelow (Nat.le_refl n)
  unfold prepare
  refine (Occurrences.build_ends (t := s.table) h.arena (Or.inr ⟨?_, ?_⟩)).bind ?_
  · rw [h.numVars, h.size]
  · rw [h.numVars]
    exact hcodes
  rintro table ⟨hexact, hnum⟩
  have hnum : table.numVars = n := hnum.trans h.numVars
  rw [show s.work.numVars = n from h.sized.seen]
  refine (Score.ofHistogram_ends h.arena.listable hn (Or.inr hcodes)).bind fun scores hscores => ?_
  have hperm : (scores.map Score.var).Perm (List.range n) := hscores ▸ Score.map_var_tabulate n _
  have hwork : WorkingSet.Wf { s.work with scores } :=
    ⟨h.work.candidates, h.work.units, h.work.nodup, h.work.marked⟩
  have hsized : WorkingSet.Sized { s.work with scores } n :=
    ⟨h.sized.candidates, h.sized.units, h.sized.unitMarks, h.sized.elected, h.sized.seen, h.sized.below⟩
  refine (elect_ends h.arena h.within hexact hnum hn hwork hsized hperm).bind ?_
  rintro ⟨_, w⟩ ⟨xs, rfl, helects, hnodup, hbelow, hapart⟩
  have hsame := helects.same
  simp only at hsame
  have ht : Fresh n xs { s with table, work := w } := {
    arena := h.arena, ordered := h.ordered, within := h.within
    work := helects.wf
    sized := helects.sized n hsized
    numVars := hnum
    size := by
      show table.size = _
      rw [hexact.size, hnum]
    table := hexact
    candidates := helects.contents
    nodup := hnodup
    below := hbelow
    apart := hapart }
  refine ⟨xs, rfl, ⟨.of_bodies ht.toWf rfl id rfl rfl ?_ rfl rfl rfl, ?_⟩, rfl, ht, fun hc => ?_⟩
  · show w.units = _
    rw [hsame]
  · show (_, _, _, w.heat) = _
    rw [hsame]
    rfl
  · show w.tally.Counts s.arena
    rw [hsame]
    exact hc

/-- A round. -/
theorem round_ends (hn : n ≤ 2 ^ 31) (hE : Safe E n s) (h : s.Wf n) (hc : s.Counted) :
    Ends E s.round fun r => Passes n s r.2 ∧ r.2.Counted := by
  unfold round
  refine (prepare_ends hn h).bind ?_
  rintro ⟨_, s₁⟩ ⟨xs, rfl, hp₁, _, h₁, hcount₁⟩
  simp only
  split
  · exact ⟨hp₁, hcount₁ hc⟩
  have hE₁ := hE.refines hp₁.toRefines
  refine (runIf_eliminate_ends hn hE₁ h₁).bind fun s₂ ⟨hp₂, _, _, h₂⟩ => ?_
  have hE₂ := hE₁.refines hp₂.toRefines
  refine (runIf_ends h₂ (runSubsume_ends hn hE₂ h₂.toReady)).bind fun s₃ ⟨hp₃, h₃⟩ => ?_
  have hE₃ := hE₂.refines hp₃.toRefines
  refine (runIf_ends h₃ (runBlocked_ends hn hE₃ h₃.toReady)).bind fun s₄ ⟨hp₄, h₄⟩ => ?_
  have hE₄ := hE₃.refines hp₄.toRefines
  refine (runIf_ends h₄ (runHidden_ends hn hE₄ h₄.toReady)).bind fun s₅ ⟨hp₅, h₅⟩ => ?_
  obtain ⟨s₆, hrun, heq, hrefines, hc₆⟩ := count_ok h₅.toWf
  rw [hrun]
  have hp₆ : Passes n s₅ s₆ := by
    refine ⟨hrefines, ?_⟩
    rw [heq]
    rfl
  exact ⟨hp₁.trans (hp₂.trans (hp₃.trans (hp₄.trans (hp₅.trans hp₆)))), hc₆⟩

end Simplifier

end CnfSimp
