import CnfSimp.Proofs.Pass.EliminateRun
import CnfSimp.Proofs.Pass.Subsume

/-!
# Runs of subsumption

* `subsume_preserves`: what one pass over the elected variables does to models, clauses and lists.
* `Arena.laidOut`: an arena with given blocks. Where they share cells, the pass may lose models and need not reach a
  fixpoint (`subsume_loses_models_on_shared_cells`, `subsume_repeats_on_shared_cells`).
* `subsumeVar_idle`: around a settled variable, and around one with too many literals, nothing happens.
* `Confined.body_of_apart`: a clause with a variable that shares no clauses with the others is as it was. So a variable
  that was settled stays settled (`Arena.Settled.of_body`), and one with too many literals keeps them.
* `subsume_settles`, `subsume_fixpoint`: after a pass over variables that share no clauses, nothing is left to do around
  them, and a second pass does nothing.
-/

namespace CnfSimp

variable {a a' : Arena} {t t' : Occurrences} {w : WorkingSet} {l : Lit} {c : List Lit} {crefs targets : List Nat}
  {cref x y limit i n : Nat}

theorem Arena.Trims.apart (h : a.Trims a') (hap : a.Apart x y) : a'.Apart x y := by
  intro c hc l hl k hk
  obtain ⟨i, hi⟩ := mem_bodies.1 hc
  obtain ⟨d, hd, hsub⟩ := h.body hi
  exact hap d (mem_bodies.2 ⟨i, hd⟩) l (hsub.subset hl) k (hsub.subset hk)

/-! ## Models, clauses and lists -/

theorem electIn_ordered {clauses : List (List Int)} {numVars : Nat} {vars : List Nat} (hn : numVars ≤ 2 ^ 31)
    (hc : ∀ c ∈ clauses, ∀ i ∈ c, IsLit numVars i) (h : electIn clauses numVars vars = .ok (a, t, w)) :
    a.Ordered ∧ a.Signed := by
  unfold electIn at h
  simp only [bind_eq_ok_iff, pure, Except.pure, Except.ok.injEq, Prod.mk.injEq, Prod.exists] at h
  obtain ⟨a₀, halloc, _, a, happ, t, _, _, w, _, rfl, rfl, rfl⟩ := h
  obtain ⟨ha₀, ho, hlen, _⟩ := (Arena.allocate_ends (E := fun _ => True) (Or.inl fun _ => trivial)).of_ok halloc
  have hext := (Arena.appendAll_ends (E := fun _ => True) ha₀ hn hc (Or.inl fun _ => trivial)).of_ok happ
  refine ⟨hext.ordered ho, hext.signed ?_⟩
  intro i c hb
  have := Arena.lt_of_body hb
  omega

example :
    (do
      let (a, t, w) ← electIn [[1, 2], [1, 2, 3], [-1, 2, 4]] 4 [0]
      let (counts, a, t) ← subsume {} a t w
      return (counts, ← a.mapLive fun _ c => c.lits, ← t.occurs (.negative 0))) =
    .ok (⟨1, 1⟩, [[⟨0⟩, ⟨2⟩], [⟨2⟩, ⟨6⟩]], []) := by
  decide +kernel

/-- Irredundant clauses with their signatures, each in the block with the given start and length; the cells hold the
given literals. -/
def Arena.laidOut (blocks : List (Nat × Nat)) (cells : List Int) : Arena where
  headers := (blocks.map fun (start, size) =>
    .install (.ofNat start) (.ofNat size) (signature (((cells.drop start).take size).map Lit.ofInt))
      .irredundant).toArray
  cells := (cells.map Lit.ofInt).toArray
  clauseCount := .ofNat blocks.length
  litCount := .ofNat cells.length

/-- The table of an arena, and a working set that elects the given variables. -/
def electOn (a : Arena) (numVars : Nat) (vars : List Nat) : Except Fault (Occurrences × WorkingSet) := do
  let t ← (Occurrences.empty numVars).build a
  let (_, w) ← (WorkingSet.setCandidates vars).run? (.empty numVars)
  return (t, w)

section Idle

variable (ha : a.Wf)
include ha

theorem strengthenBy_idle (hc : a.body cref = some c) (hnot : l.not ∉ c) (htargets : ∀ d ∈ targets, d < a.len)
    (h : ∀ j, ¬a.Strengthens l c j) :
    strengthenBy l cref (signature (c.filter fun k => k ≠ l)) n a t targets = .ok (n, a, t) := by
  induction targets with
  | nil => rfl
  | cons dref targets ih =>
    obtain ⟨b, hb, hsome, _⟩ := strengthens_ok ha hc hnot (htargets dref List.mem_cons_self)
    have hfalse : b = false := Bool.eq_false_iff.2 fun hb => h dref (hsome hb)
    unfold strengthenBy
    rw [hb, ok_bind, hfalse]
    exact ih fun d hd => htargets d (List.mem_cons_of_mem _ hd)

theorem strengthenByAll_idle (htargets : ∀ d ∈ targets, d < a.len) (hcrefs : ∀ i ∈ crefs, i < a.len)
    (hl : ∀ i ∈ crefs, ∀ c, a.body i = some c → l ∈ c) (h : ∀ i, a.Spent l i) :
    strengthenByAll l targets n a t crefs = .ok (n, a, t) := by
  induction crefs with
  | nil => rfl
  | cons cref crefs ih =>
    have hcref := hcrefs cref List.mem_cons_self
    have ih := ih (fun i hi => hcrefs i (List.mem_cons_of_mem _ hi)) fun i hi => hl i (List.mem_cons_of_mem _ hi)
    unfold strengthenByAll
    rw [Arena.clause_ok hcref, ok_bind, ha.isLive_clauseAt hcref, ok_bind]
    cases hal : a.alive cref with
    | false => exact ih
    | true =>
      have hb := Arena.body_eq_some_iff.2 ⟨hal, rfl⟩
      simp only [Bool.not_true, Bool.false_eq_true, if_false, ha.has_ok hb, ok_bind]
      split
      · exact ih
      · next hnot =>
        have hnot : l.not ∉ a.text cref := by simpa using hnot
        rw [ha.lits_clauseAt hcref, ok_bind, strengthenBy_idle ha hb hnot htargets
          (h cref _ hb (hl cref List.mem_cons_self _ hb) hnot), ok_bind]
        exact ih

theorem strengthenOn_idle (hs : t.Sound a) (hl : l.index < t.size) (hl' : l.not.index < t.size)
    (h : ∀ i, a.Spent l i) : strengthenOn l a t = .ok (0, a, t) := by
  unfold strengthenOn
  rw [hs.wf.occurs_ok hl', hs.wf.occurs_ok hl, ok_bind, ok_bind]
  exact strengthenByAll_idle ha (hs.lt _) (hs.lt _) (hs.mem l) h

theorem meltSubsumed_idle (hs : t.Sound a) (hc : a.body cref = some c) (htargets : ∀ j ∈ targets, j ∈ t.listAt l.index)
    (h : ∀ j ∈ targets, ¬a.Subsumes c j) : meltSubsumed l cref n a targets = .ok (n, a) := by
  induction targets with
  | nil => rfl
  | cons dref targets ih =>
    have hmem := htargets dref List.mem_cons_self
    obtain ⟨b, hb, hsome, _⟩ := subsumes_ok ha hc (hs.lt _ dref hmem) (hs.mem l dref hmem)
    have hfalse : b = false := Bool.eq_false_iff.2 fun hb => h dref List.mem_cons_self (hsome hb)
    unfold meltSubsumed
    rw [hb, ok_bind, hfalse]
    exact ih (fun j hj => htargets j (List.mem_cons_of_mem _ hj)) fun j hj => h j (List.mem_cons_of_mem _ hj)

theorem subsumeLater_idle (hs : t.Sound a) (hn : crefs.Nodup) (hcrefs : ∀ i ∈ crefs, i ∈ t.listAt l.index)
    (h : a.Antichain l) : subsumeLater l n a crefs = .ok (n, a) := by
  induction crefs with
  | nil => rfl
  | cons cref crefs ih =>
    obtain ⟨hcref, hn⟩ := List.nodup_cons.1 hn
    have hmem := hcrefs cref List.mem_cons_self
    have hrest := fun i hi => hcrefs i (List.mem_cons_of_mem _ hi)
    unfold subsumeLater
    rw [ha.isLive_ok (hs.lt _ cref hmem), ok_bind]
    cases hal : a.alive cref with
    | false => exact ih hn hrest
    | true =>
      have hb := Arena.body_eq_some_iff.2 ⟨hal, rfl⟩
      rw [if_pos rfl, meltSubsumed_idle ha hs hb hrest fun j hj =>
        h cref j _ (fun he => hcref (he ▸ hj)) hb (hs.mem l cref hmem _ hb), ok_bind]
      exact ih hn hrest

theorem subsumeOn_idle (hs : t.Sound a) (hl : l.index < t.size) (h : a.Antichain l) :
    subsumeOn l a t = .ok (0, a) := by
  obtain ⟨is, hperm, _, heq⟩ := subsumeOn_eq ha hs hl
  rw [heq]
  exact subsumeLater_idle ha hs (hperm.nodup_iff.2 ((hs.ascends _).imp Nat.ne_of_lt)) (fun i hi => hperm.mem_iff.1 hi) h

/-- Around a settled variable, and around one with too many literals, nothing happens. -/
theorem subsumeVar_idle (hs : t.Sound a) (hx : x < t.numVars) (hx2 : x < 2 ^ 31)
    (h : t.sizeAround a x ≤ limit → a.Settled x) : subsumeVar limit a t x = .ok (⟨0, 0⟩, a, t) := by
  have hlp := index_lt_of_var hs hx (Lit.var_positive hx2)
  have hln := index_lt_of_var hs hx (Lit.var_negative hx2)
  have hslots : ∀ i ∈ t.listAt (Lit.positive x).index ++ t.listAt (Lit.negative x).index, i < a.len := fun i hi =>
    (List.mem_append.1 hi).elim (hs.lt _ i) (hs.lt _ i)
  unfold subsumeVar
  rw [hs.wf.occurs_ok hlp, hs.wf.occurs_ok hln, ok_bind, ok_bind, totalSize_ok ha hslots, ok_bind]
  show (if limit < t.sizeAround a x then _ else _) = _
  split
  · rfl
  next hle =>
  have hsettled := h (Nat.le_of_not_lt hle)
  have hpos := Lit.var_positive hx2
  have hneg := Lit.var_negative hx2
  simp only [strengthenOn_idle ha hs hlp (by rwa [Lit.not_positive hx2]) (hsettled.spent _ hpos),
    strengthenOn_idle ha hs hln (by rwa [Lit.not_negative hx2]) (hsettled.spent _ hneg),
    subsumeOn_idle ha hs hlp (hsettled.antichain _ hpos), subsumeOn_idle ha hs hln (hsettled.antichain _ hneg), ok_bind]
  rfl

end Idle

/-! ## Variables that share no clauses -/

/-- What is left to do around a variable is left to do around clauses with that variable. -/
theorem Arena.Settled.of_body (h : a.Settled x)
    (hbody : ∀ i c l, a'.body i = some c → l ∈ c → l.var = x → a.body i = some c) : a'.Settled x := by
  constructor
  · intro l hl i c hc hlc hnot j hstr
    obtain ⟨d, hd, hld, hrest⟩ := hstr
    exact h.spent l hl i c (hbody i c l hc hlc hl) hlc hnot j
      ⟨d, hbody j d l.not hd hld ((Lit.var_not l).trans hl), hld, hrest⟩
  · intro l hl i j c hij hc hlc hsub
    obtain ⟨d, hd, hcd⟩ := hsub
    exact h.antichain l hl i j c hij (hbody i c l hc hlc hl) hlc ⟨d, hbody j d l hd (hcd hlc) hl, hcd⟩

section Apart

variable {q : Nat → Prop} (h : Confined (fun k => q k.var) a t a' t') (hq : ∀ y, q y → a.Apart y x)
include h hq

/-- A clause with a variable that shares no clauses with those around which the pass works is as it was. -/
theorem Confined.body_eq_of_apart (hb : a.body i = some c) (hl : l ∈ c) (hlx : l.var = x) : a'.body i = some c :=
  h.body i c hb fun k hk hkq => hq k.var hkq c (Arena.mem_bodies.2 ⟨i, hb⟩) k hk l hl rfl hlx

/-- It did not come from a greater one. -/
theorem Confined.body_of_apart (ht : a.Trims a') (hb : a'.body i = some c) (hl : l ∈ c) (hlx : l.var = x) :
    a.body i = some c := by
  obtain ⟨d, hd, hsub⟩ := ht.body hb
  have hd' := h.body_eq_of_apart hq hd (hsub.subset hl) hlx
  rw [hb, Option.some.injEq] at hd'
  exact hd' ▸ hd

/-- The clauses listed for such a variable are the same and have as many literals. -/
theorem Confined.sizeAround_eq (hx2 : x < 2 ^ 31) (hx : ¬q x)
    (hlisted : ∀ l : Lit, l.var = x → ∀ i ∈ t.listAt l.index, ∃ c, a.body i = some c ∧ l ∈ c) :
    t'.sizeAround a' x = t.sizeAround a x := by
  have hlist (l : Lit) (hl : l.var = x) : (t'.listAt l.index).map a'.text = (t.listAt l.index).map a.text := by
    rw [h.list l (hl.symm ▸ hx)]
    apply List.map_congr_left
    intro i hi
    obtain ⟨c, hc, hlc⟩ := hlisted l hl i hi
    rw [Arena.text_of_body hc, Arena.text_of_body (h.body_eq_of_apart hq hc hlc hl)]
  unfold Occurrences.sizeAround
  rw [List.map_append, List.map_append, hlist _ (Lit.var_positive hx2), hlist _ (Lit.var_negative hx2)]

end Apart

/-! ## Settling all variables -/

/-- After some variables: those whose lists were small enough are settled, and clauses and lists of all others are as
they were. -/
structure Settles (limit : Nat) (a : Arena) (t : Occurrences) (done : List Nat) (a' : Arena) (t' : Occurrences) :
    Prop where
  subsumed : ∃ n m, Subsumed (fun k => k.var ∈ done ∧ t.sizeAround a k.var ≤ limit) 0 0 a t n m a' t'
  settled : ∀ x ∈ done, t.sizeAround a x ≤ limit → a'.Settled x

section Fixpoint

variable {o : Options} {xs done : List Nat} (ht : t.Exact a)
include ht

/-- The literals of a variable that shares no clauses with those done are listed as before. -/
theorem Settles.sizeAround_eq (h : Settles limit a t done a' t') (hx2 : x < 2 ^ 31)
    (hapart : ∀ y ∈ done, t.sizeAround a y ≤ limit → a.Apart y x)
    (hx : x ∈ done → limit < t.sizeAround a x) : t'.sizeAround a' x = t.sizeAround a x := by
  obtain ⟨⟨n, m, h⟩, _⟩ := h
  refine h.toConfined.sizeAround_eq (q := fun y => y ∈ done ∧ t.sizeAround a y ≤ limit)
    (fun y hy => hapart y hy.1 hy.2) hx2 (fun hq => Nat.not_le.2 (hx hq.1) hq.2) ?_
  intro l _ i hi
  rw [ht.listAt_index] at hi
  exact Arena.mem_slotsWith.1 hi

variable (hsep : a.Separated) (hsigned : a.Signed)
include hsep hsigned

/-- One more variable that shares no clauses with those done. -/
theorem Settles.step (h : Settles limit a t done a' t') (hxt : x < t.numVars) (hx2 : x < 2 ^ 31)
    (hxd : x ∉ done) (hapart : ∀ y ∈ done, a.Apart y x) :
    Ends (fun _ => True) (subsumeVar limit a' t' x) fun s => Settles limit a t (done ++ [x]) s.2.1 s.2.2 := by
  have hsize := h.sizeAround_eq ht hx2 (fun y hy _ => hapart y hy) fun hx => absurd hx hxd
  obtain ⟨⟨n, m, h⟩, hsettled⟩ := h
  refine (subsumeVar_ends limit h.wf (h.separated hsep) h.sound (h.numVars.symm ▸ hxt) hx2 (Or.inl trivial)).imp ?_
  intro ⟨more, a₂, t₂⟩ ⟨h', hskip, hsettle⟩
  rw [hsize] at hskip hsettle
  have hmono : ∀ k : Lit, k.var ∈ done ∧ t.sizeAround a k.var ≤ limit →
      k.var ∈ done ++ [x] ∧ t.sizeAround a k.var ≤ limit := fun k hk => ⟨List.mem_append_left _ hk.1, hk.2⟩
  by_cases hw : t.sizeAround a x ≤ limit
  · have hnew : ∀ k : Lit, k.var = x → k.var ∈ done ++ [x] ∧ t.sizeAround a k.var ≤ limit := fun k hk => by
      rw [hk]
      exact ⟨by simp, hw⟩
    refine ⟨⟨_, _, (h.mono hmono).trans ((h'.mono hnew).add n m)⟩, ?_⟩
    intro y hy hyw
    rcases List.mem_append.1 hy with hy | hy
    · -- The clauses of a variable done before are not touched.
      have hyx : ∀ z, z = x → a'.Apart z y := fun z hz => hz ▸ h.trims.apart (hapart y hy).symm
      apply (hsettled y hy hyw).of_body
      intro i c l hb hl hly
      exact h'.toConfined.body_of_apart (q := (· = x)) hyx h'.trims hb hl hly
    · rw [List.mem_singleton.1 hy]
      exact hsettle hw (h.trims.signed hsigned) fun l _ => h.complete l (ht.complete l)
  · cases hskip (Nat.lt_of_not_le hw)
    refine ⟨⟨n, m, h.mono hmono⟩, ?_⟩
    intro y hy hyw
    rcases List.mem_append.1 hy with hy | hy
    · exact hsettled y hy hyw
    · rw [List.mem_singleton.1 hy] at hyw
      exact absurd hyw hw

variable (ha : a.Wf) (hvars : w.candidateVars = .ok xs) (hn : xs.Nodup) (hx : ∀ x ∈ xs, x < t.numVars)
  (hnum : t.numVars ≤ 2 ^ 31) (hapart : ∀ x ∈ xs, ∀ y ∈ xs, x ≠ y → a.Apart x y)
include ha hvars hn hx hnum hapart

/-- A pass over variables that share no clauses. -/
theorem subsume_settles : Ends (fun _ => True) (subsume o a t w) fun s =>
    Settles (toWord o.subsumeLimit) a t xs s.2.1 s.2.2 := by
  unfold subsume
  rw [hvars, ok_bind]
  refine ends_foldlM (fun (done : List Nat) (s : SubsumeCounts × Arena × Occurrences) =>
    Settles (toWord o.subsumeLimit) a t done s.2.1 s.2.2) ⟨⟨0, 0, .refl ha ht.sound 0 0⟩, by simp⟩ ?_
  rintro done x rest ⟨counts, a₁, t₁⟩ hxs h
  have hmem : x ∈ xs := by rw [hxs]; simp
  obtain ⟨_, _, hdisj⟩ := List.nodup_append.1 (hxs ▸ hn)
  have hne (y : Nat) (hy : y ∈ done) : y ≠ x := hdisj y hy x List.mem_cons_self
  refine (h.step ht hsep hsigned (hx x hmem) (Nat.lt_of_lt_of_le (hx x hmem) hnum)
    (fun hxd => hne x hxd rfl) fun y hy => hapart y (by rw [hxs]; simp [hy]) x hmem (hne y hy)).bind ?_
  rintro ⟨more, a₂, t₂⟩ h'
  refine (ends_sum32 (Or.inl trivial)).bind fun _ _ => ?_
  exact (ends_sum32 (Or.inl trivial)).bind fun _ _ => h'

omit ha hsep hsigned hn in
/-- Another pass does nothing. -/
theorem subsume_idle {s : SubsumeCounts × Arena × Occurrences}
    (h : Settles (toWord o.subsumeLimit) a t xs s.2.1 s.2.2) :
    subsume o s.2.1 s.2.2 w = .ok (⟨0, 0⟩, s.2.1, s.2.2) := by
  obtain ⟨n, m, hsub⟩ := h.subsumed
  have hidle (x : Nat) (hxs : x ∈ xs) :
      subsumeVar (toWord o.subsumeLimit) s.2.1 s.2.2 x = .ok (⟨0, 0⟩, s.2.1, s.2.2) := by
    have hx2 := Nat.lt_of_lt_of_le (hx x hxs) hnum
    refine subsumeVar_idle hsub.wf hsub.sound (hsub.numVars.symm ▸ hx x hxs) hx2 fun hle => ?_
    by_cases hw : t.sizeAround a x ≤ toWord o.subsumeLimit
    · exact h.settled x hxs hw
    · -- A variable that was left out has as many literals as before.
      have hlt := Nat.lt_of_not_le hw
      rw [h.sizeAround_eq ht hx2 (fun y hy hyw => hapart y hy x hxs fun he => hw (he ▸ hyw)) fun _ => hlt] at hle
      exact absurd hle hw
  suffices hends : Ends (fun _ => False) (subsume o s.2.1 s.2.2 w) (· = (⟨0, 0⟩, s.2.1, s.2.2)) by
    obtain ⟨r, hr, rfl⟩ := hends.exists_ok fun _ => id
    exact hr
  unfold subsume
  rw [hvars, ok_bind]
  refine ends_foldlM (fun (_ : List Nat) (r : SubsumeCounts × Arena × Occurrences) => r = (⟨0, 0⟩, s.2.1, s.2.2)) rfl ?_
  rintro done x rest _ hxs rfl
  have hmem : x ∈ xs := by rw [hxs]; simp
  simp only [hidle x hmem, ok_bind]
  rfl

end Fixpoint

/-- The literals listed for a variable in a table that was just built. -/
theorem Occurrences.Exact.sizeAround_eq (ht : t.Exact a) (x : Nat) :
    t.sizeAround a x = volume (a.clausesWith (.positive x)) + volume (a.clausesWith (.negative x)) := by
  unfold Occurrences.sizeAround
  rw [List.map_append, volume_append, ht.listAt_index, ht.listAt_index, Arena.map_text_slotsWith,
    Arena.map_text_slotsWith]

/-- Subsumption and strengthening around variables that share no clauses reach a fixpoint. Around each variable whose
clauses have no more literals than allowed, no clause with one of its literals is contained in another one, and none
with more than two literals has all literals of another one, but for one of which it has the negation. So the same pass
does nothing when it is repeated. -/
theorem subsume_fixpoint {o : Options} {a : Arena} {t₀ t : Occurrences} {w : WorkingSet} {xs : List Nat}
    {s : SubsumeCounts × Arena × Occurrences} (ha : a.Wf) (hsep : a.Separated) (hsigned : a.Signed)
    (hbuild : t₀.build a = .ok t) (hvars : w.candidateVars = .ok xs) (hn : xs.Nodup) (hx : ∀ x ∈ xs, x < t.numVars)
    (hnum : t.numVars ≤ 2 ^ 31) (hapart : ∀ x ∈ xs, ∀ y ∈ xs, x ≠ y → a.Apart x y) (hs : subsume o a t w = .ok s) :
    (∀ x ∈ xs,
      volume (a.clausesWith (.positive x)) + volume (a.clausesWith (.negative x)) ≤ toWord o.subsumeLimit →
      ∀ l : Lit, l.var = x →
        (∀ i j c d, i ≠ j → s.2.1.body i = some c → s.2.1.body j = some d → l ∈ c → l ∈ d → ¬c ⊆ d) ∧
        ∀ i j c d, s.2.1.body i = some c → s.2.1.body j = some d → l ∈ c → l.not ∉ c → l.not ∈ d → 2 < d.length →
          ¬(c.filter fun k => k ≠ l) ⊆ d) ∧
    subsume o s.2.1 s.2.2 w = .ok (⟨0, 0⟩, s.2.1, s.2.2) := by
  have ht := Occurrences.exact_of_build ha hbuild
  have h := (subsume_settles (o := o) ht hsep hsigned ha hvars hn hx hnum hapart).of_ok hs
  refine ⟨?_, subsume_idle ht hvars hx hnum hapart h⟩
  intro x hxs hw l hl
  have hsettled := h.settled x hxs (ht.sizeAround_eq x ▸ hw)
  constructor
  · intro i j c d hij hc hd hlc _ hsub
    exact hsettled.antichain l hl i j c hij hc hlc ⟨d, hd, hsub⟩
  · intro i j c d hc hd hlc hnot hld h2 hsub
    refine hsettled.spent l hl i c hc hlc hnot j ⟨d, hd, hld, h2, fun k hk hkl => hsub ?_⟩
    exact List.mem_filter.2 ⟨hk, decide_eq_true hkl⟩

/-- The first and the fourth variable share no clauses. -/
theorem subsume_fixpoint_five_clauses : ∃ a t w s,
    electIn [[1, 2], [1, 2, 3], [-1, 2, 3], [2, 4], [2, 3, -4]] 4 [0, 3] = .ok (a, t, w) ∧
      subsume {} a t w = .ok s ∧ subsume {} s.2.1 s.2.2 w = .ok (⟨0, 0⟩, s.2.1, s.2.2) := by
  obtain ⟨s, hs⟩ := exists_ok_of_isOk (x := electIn [[1, 2], [1, 2, 3], [-1, 2, 3], [2, 4], [2, 3, -4]] 4 [0, 3] >>=
    fun r => subsume {} r.1 r.2.1 r.2.2) (by decide +kernel)
  obtain ⟨⟨a, t, w⟩, hset, hs⟩ := bind_eq_ok_iff.1 hs
  have hc : ∀ c ∈ [[1, 2], [1, 2, 3], [-1, 2, 3], [2, 4], [2, 3, -4]], ∀ i ∈ c, IsLit 4 i := by decide
  obtain ⟨ha, _, hbodies, hbuild, hnum, _, _, hvars⟩ := electIn_ok (by decide) hc hset
  obtain ⟨hord, hsigned⟩ := electIn_ordered (by decide) hc hset
  refine ⟨a, t, w, s, hset, hs,
    (subsume_fixpoint ha hord.separated hsigned hbuild hvars (by decide) ?_ ?_ ?_ hs).2⟩
  · rw [hnum]
    decide
  · rw [hnum]
    decide
  · unfold Arena.Apart
    rw [hbodies]
    decide +kernel

/-- Again two clauses, `{-1, 2, 3}` and `{2, 3, 4}`, share cells. Around the fourth variable there is nothing to do at
first. Then the first clause loses `-1`, the second one reads `{3, 3, 4}`, and a second pass takes `-4` out of
`{3, -4, 5}`. -/
theorem subsume_repeats_on_shared_cells :
    let a := Arena.laidOut [(0, 3), (1, 3), (4, 2), (6, 3)] [-1, 2, 3, 4, 1, 2, 3, -4, 5]
    a.Wf ∧ a.Signed ∧ (∀ x ∈ [3, 0], ∀ y ∈ [3, 0], x ≠ y → a.Apart x y) ∧
      (∀ x ∈ [3, 0], volume (a.clausesWith (.positive x)) + volume (a.clausesWith (.negative x)) ≤
        toWord ({} : Options).subsumeLimit) ∧
      ∃ t w s r, electOn a 5 [3, 0] = .ok (t, w) ∧ subsume {} a t w = .ok s ∧
        s.2.1.bodies = [[⟨2⟩, ⟨4⟩], [⟨4⟩, ⟨4⟩, ⟨6⟩], [⟨0⟩, ⟨2⟩], [⟨4⟩, ⟨7⟩, ⟨8⟩]] ∧
        subsume {} s.2.1 s.2.2 w = .ok r ∧ r.1 = ⟨0, 1⟩ := by
  intro a
  have hrun : (do
      let e ← electOn (.laidOut [(0, 3), (1, 3), (4, 2), (6, 3)] [-1, 2, 3, 4, 1, 2, 3, -4, 5]) 5 [3, 0]
      let s ← subsume {} (.laidOut [(0, 3), (1, 3), (4, 2), (6, 3)] [-1, 2, 3, 4, 1, 2, 3, -4, 5]) e.1 e.2
      let r ← subsume {} s.2.1 s.2.2 e.2
      return (s.2.1.bodies, r.1)) =
      .ok ([[⟨2⟩, ⟨4⟩], [⟨4⟩, ⟨4⟩, ⟨6⟩], [⟨0⟩, ⟨2⟩], [⟨4⟩, ⟨7⟩, ⟨8⟩]], ⟨0, 1⟩) := by decide +kernel
  simp only [bind_eq_ok_iff, pure, Except.pure, Except.ok.injEq, Prod.mk.injEq, Prod.exists] at hrun
  obtain ⟨t, w, helect, counts, a', t', hs, counts', a'', t'', hr, hbodies, hcounts⟩ := hrun
  refine ⟨by decide +kernel, by decide +kernel, ?_, by decide +kernel, t, w, _, _, helect, hs, hbodies, hr, hcounts⟩
  unfold Arena.Apart
  decide +kernel

end CnfSimp
