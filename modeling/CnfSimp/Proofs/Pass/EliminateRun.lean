import CnfSimp.Proofs.Arena.Dimacs
import CnfSimp.Proofs.Pass.Eliminate

/-!
# Runs of variable elimination

* `EliminatesAll`: several variables are eliminated, one after another. `eliminateVars_ends`: the pass does that, and
  faults only where it is out of room.
* `EliminatesAll.preserves`: a run preserves models. `EliminatesAll.occurs_iff`: an eliminated variable occurs
  afterwards in the resolvents that contain it, and nowhere else.
* `eliminate_preserves`: what one pass over the elected variables does to models, units and reconstruction.
* `eliminated_occurs_iff`: which eliminated variables still occur after the pass.
-/

namespace CnfSimp

variable {E : Fault → Prop} {a a' a₁ : Arena} {t : Occurrences} {w w' : WorkingSet} {l k : Lit} {c r : List Lit}
  {rs : List (List Lit)} {x y limit i j n : Nat} {v : Assignment}

/-! ## Eliminating several variables -/

/-- The variables are eliminated, one after another, or left; the removals are listed by variable. -/
inductive EliminatesAll (limit : Nat) : Arena → List Nat → List (List Removal) → Arena → Prop
  | nil (a : Arena) : EliminatesAll limit a [] [] a
  | skip {a a' : Arena} {x : Nat} {xs : List Nat} {gone : List (List Removal)} :
      a.elimination limit x = none → EliminatesAll limit a xs gone a' →
      EliminatesAll limit a (x :: xs) ([] :: gone) a'
  | step {a a₁ a' : Arena} {x : Nat} {xs : List Nat} {gone : List (List Removal)} {rs : List (List Lit)} :
      a.elimination limit x = some rs → Eliminates a a₁ x rs → EliminatesAll limit a₁ xs gone a' →
      EliminatesAll limit a (x :: xs) (a.retired x :: gone) a'

/-- The resolvents of variables that share no clauses. -/
def Arena.eliminations (a : Arena) (limit : Nat) (xs : List Nat) : List (List Lit) :=
  xs.flatMap fun x => (a.elimination limit x).getD []

/-- None of them is empty. -/
theorem nil_notMem_eliminations (a : Arena) (limit : Nat) (xs : List Nat) : [] ∉ a.eliminations limit xs := by
  intro h
  obtain ⟨x, _, h⟩ := List.mem_flatMap.1 h
  cases he : a.elimination limit x with
  | none => simp [he] at h
  | some rs =>
    rw [he] at h
    exact (elimination_eq_some he).2.1 h

/-- Eliminating a variable leaves the resolvents of those that share no clause with it. -/
theorem Eliminates.eliminations_eq (ha : a.Wf) (hx : x < 2 ^ 31) (he : a.elimination limit x = some rs)
    (h : Eliminates a a' x rs) {xs : List Nat} (hax : ∀ y ∈ xs, a.Apart x y) (hxs : ∀ y ∈ xs, y < 2 ^ 31) :
    a'.eliminations limit xs = a.eliminations limit xs := by
  unfold Arena.eliminations
  rw [List.flatMap_congr fun y hy => ?_]
  rw [h.elimination_eq ha hx he (hax y hy) (hxs y hy)]

/-- A literal that an elimination yields was yielded before. -/
theorem Eliminates.yields (ha : a.Wf) (hx : x < 2 ^ 31) (he : a.elimination limit x = some rs)
    (h : Eliminates a a' x rs) (hl : a'.Yields l) : a.Yields l := by
  obtain ⟨hmodels, c, hc, hlc⟩ := hl
  refine ⟨fun v hv => hmodels v ((h.preserves ha hx he).down v hv), ?_⟩
  rcases h.mem_bodies_iff.1 hc with ⟨hc, _⟩ | hc
  · exact ⟨c, hc, hlc⟩
  · obtain ⟨d, hd, hld, _⟩ := exists_parent_of_mem ha he hc hlc
    exact ⟨d, hd, hld⟩

/-- So is a unit resolvent. -/
theorem yields_of_unit (ha : a.Wf) (he : a.elimination limit x = some rs) (hl : [l] ∈ rs) : a.Yields l := by
  refine ⟨fun v hv => ?_, ?_⟩
  · obtain ⟨k, hk, hvk⟩ := hv.holds_resolvent ha he hl
    exact List.mem_singleton.1 hk ▸ hvk
  · obtain ⟨d, hd, hld, _⟩ := exists_parent_of_mem ha he hl (List.mem_singleton_self l)
    exact ⟨d, hd, hld⟩

/-- The pass eliminates the variables one after another; it faults only where it is out of room. -/
theorem eliminateVars_ends {xs : List Nat} (ha : a.Wf) (hw : w.Wf) (hs : t.Sound a)
    (hx : ∀ x ∈ xs, x < 2 ^ 31 ∧ x < t.numVars) (hc : ∀ l : Lit, l.var ∈ xs → t.Complete a l)
    (hapart : xs.Pairwise a.Apart)
    (hroom : (∀ f, E f) ∨ a.RoomFor (a.eliminations limit xs) ∧ w.Sized n ∧ a.Below n ∧
      (E .unitListOverflow ∨ n < 2 ^ 31 - 1)) :
    Ends E (eliminateVars t limit a w xs) fun s => EliminatesAll limit a xs s.1 s.2.1 ∧ w.Gains s.2.2 a.Yields := by
  induction xs generalizing a w with
  | nil => exact ⟨.nil a, .refl hw _⟩
  | cons x xs ih =>
    obtain ⟨hx2, hxt⟩ := hx x List.mem_cons_self
    have hxs := fun y hy => hx y (List.mem_cons_of_mem _ hy)
    obtain ⟨hax, hapart⟩ := List.pairwise_cons.1 hapart
    have hcx : ∀ l : Lit, l.var = x → t.Complete a l := fun l hl => hc l (hl ▸ List.mem_cons_self)
    have hcxs : ∀ l : Lit, l.var ∈ xs → t.Complete a l := fun l hl => hc l (List.mem_cons_of_mem _ hl)
    unfold eliminateVars
    rw [Arena.eliminations, List.flatMap_cons] at hroom
    refine (eliminateVar_ends ha hw hs hx2 hxt hcx (hroom.imp_right fun h => ⟨h.1.left, h.2⟩)).bind ?_
    rintro ⟨gone, a₁, w₁⟩ (⟨he, heq⟩ | ⟨rs, he, hgone, helim, hgain⟩)
    · cases heq
      rw [he] at hroom
      refine (ih ha hw hs hxs hcxs hapart hroom).bind ?_
      rintro ⟨gone', a', w'⟩ ⟨hall, hgain'⟩
      exact ⟨.skip he hall, hgain'⟩
    · cases hgone
      have hunits : ∀ l : Lit, [l] ∈ rs → a.Yields l := fun l => yields_of_unit ha he
      have hbelow {n : Nat} (hb : a.Below n) : a₁.Below n := fun c hcb l hl => by
        rcases helim.mem_bodies_iff.1 hcb with ⟨hcb, _⟩ | hcb
        · exact hb c hcb l hl
        · obtain ⟨d, hd, hld, _⟩ := exists_parent_of_mem ha he hcb hl
          exact hb d hd l hld
      have hsame := helim.eliminations_eq ha hx2 he hax fun y hy => (hxs y hy).1
      have hapart₁ : xs.Pairwise a₁.Apart := hapart.imp_of_mem fun {y z} hy _ h =>
        helim.apart ha hx2 he (hax y hy) h
      have hroom₁ : (∀ f, E f) ∨ a₁.RoomFor (a₁.eliminations limit xs) ∧ w₁.Sized n ∧ a₁.Below n ∧
          (E .unitListOverflow ∨ n < 2 ^ 31 - 1) := hroom.imp_right fun ⟨hr, hsz, hb, hn⟩ => by
        refine ⟨helim.room _ ?_, hgain.sized n hsz fun l hl => ?_, hbelow hb, hn⟩
        · rw [hsame]
          simpa [Arena.eliminations, he] using hr
        · obtain ⟨d, hd, hld, _⟩ := exists_parent_of_mem ha he hl (List.mem_singleton_self l)
          exact hb d hd l hld
      refine (ih helim.wf hgain.wf (helim.sound hs) hxs
        (fun l hl => helim.complete ha hx2 he (hax _ hl) rfl (hcxs l hl)) hapart₁ hroom₁).bind ?_
      rintro ⟨gone', a', w'⟩ ⟨hall, hgain'⟩
      exact ⟨.step he helim hall, (hgain.mono hunits).trans (hgain'.mono fun l => helim.yields ha hx2 he)⟩

section Run

variable {xs : List Nat} {gone : List (List Removal)} (h : EliminatesAll limit a xs gone a') (ha : a.Wf)
  (hx : ∀ x ∈ xs, x < 2 ^ 31) (hapart : xs.Pairwise a.Apart)
include h ha

theorem EliminatesAll.wf : a'.Wf := by
  induction h with
  | nil => exact ha
  | skip _ _ ih => exact ih ha
  | step _ helim _ ih => exact ih helim.wf

theorem EliminatesAll.ordered (ho : a.Ordered) : a'.Ordered := by
  induction h with
  | nil => exact ho
  | skip _ _ ih => exact ih ha ho
  | step _ helim _ ih => exact ih helim.wf (helim.ordered ho)

theorem EliminatesAll.signed (hs : a.Signed) : a'.Signed := by
  induction h with
  | nil => exact hs
  | skip _ _ ih => exact ih ha hs
  | step _ helim _ ih => exact ih helim.wf (helim.signed hs)

theorem EliminatesAll.sound (hs : t.Sound a) : t.Sound a' := by
  induction h with
  | nil => exact hs
  | skip _ _ ih => exact ih ha hs
  | step _ helim _ ih => exact ih helim.wf (helim.sound hs)

/-- Slots in use before hold what they held, or nothing. -/
theorem EliminatesAll.body_of_lt (hj : j < a.len) (hc : a'.body j = some c) : a.body j = some c := by
  induction h with
  | nil => exact hc
  | skip _ _ ih => exact ih ha hj hc
  | step _ helim _ ih =>
    exact (helim.body_of_lt hj (ih helim.wf (by rw [helim.len]; omega) hc)).1

/-- Literals come from literals that were there. -/
theorem EliminatesAll.origin (hc : c ∈ a'.bodies) (hl : l ∈ c) : ∃ d ∈ a.bodies, l ∈ d := by
  induction h generalizing c with
  | nil => exact ⟨c, hc, hl⟩
  | skip _ _ ih => exact ih ha hc hl
  | step he helim _ ih =>
    obtain ⟨d, hd, hld⟩ := ih helim.wf hc hl
    rcases helim.mem_bodies_iff.1 hd with ⟨hd, _⟩ | hd
    · exact ⟨d, hd, hld⟩
    · obtain ⟨e, hbe, hle, _⟩ := exists_parent_of_mem ha he hd hld
      exact ⟨e, hbe, hle⟩

theorem EliminatesAll.within (ho : a.Within n) : a'.Within n := by
  induction h with
  | nil => exact ho
  | skip _ _ ih => exact ih ha ho
  | step he helim _ ih =>
    refine ih helim.wf (helim.within n ho fun r hr l hl => ?_)
    obtain ⟨d, hd, hld, _⟩ := exists_parent_of_mem ha he hr hl
    exact ho.below d hd l hld

include hx

/-- The clauses of a variable that shares no clause with the eliminated ones are as before. -/
theorem EliminatesAll.clause_iff (hy : ∀ x ∈ xs, a.Apart x y) (hapart : xs.Pairwise a.Apart) (hl : l ∈ c)
    (hly : l.var = y) : a'.body j = some c ↔ a.body j = some c := by
  induction h with
  | nil => exact Iff.rfl
  | skip _ _ ih =>
    exact ih ha (fun x hx' => hx x (List.mem_cons_of_mem _ hx')) (fun x hx' => hy x (List.mem_cons_of_mem _ hx'))
      (List.pairwise_cons.1 hapart).2
  | @step a a₁ a' x xs gone rs he helim _ ih =>
    have hx2 := hx x List.mem_cons_self
    obtain ⟨hax, hapart⟩ := List.pairwise_cons.1 hapart
    rw [ih helim.wf (fun y hy' => hx y (List.mem_cons_of_mem _ hy'))
      (fun z hz => helim.apart ha hx2 he (hax z hz) (hy z (List.mem_cons_of_mem _ hz)))
      (hapart.imp_of_mem fun {z z'} hz _ => helim.apart ha hx2 he (hax z hz))]
    exact helim.clause_iff ha hx2 he (hy x List.mem_cons_self) hl hly

include hapart

/-- A run of eliminations preserves models. -/
theorem EliminatesAll.preserves : Preserves a a' gone.flatten := by
  induction h with
  | nil => exact .refl _
  | skip _ _ ih =>
    exact ih ha (fun x hx' => hx x (List.mem_cons_of_mem _ hx')) (List.pairwise_cons.1 hapart).2
  | @step a a₁ a' x xs gone rs he helim _ ih =>
    have hx2 := hx x List.mem_cons_self
    obtain ⟨hax, hapart⟩ := List.pairwise_cons.1 hapart
    exact (helim.preserves ha hx2 he).trans (ih helim.wf (fun y hy' => hx y (List.mem_cons_of_mem _ hy'))
      (hapart.imp_of_mem fun {z z'} hz _ => helim.apart ha hx2 he (hax z hz)))

/-- What goes to the reconstruction stack are clauses of the eliminated variables, with one of their literals. -/
theorem EliminatesAll.mem_gone {g : Removal} (hg : g ∈ gone.flatten) :
    g.witness ∈ g.lits ∧ g.witness.var ∈ xs ∧ g.lits ∈ a.bodies := by
  induction h with
  | nil => cases hg
  | skip _ _ ih =>
    obtain ⟨hw, hv, hb⟩ := ih ha (fun x hx' => hx x (List.mem_cons_of_mem _ hx')) (List.pairwise_cons.1 hapart).2 hg
    exact ⟨hw, List.mem_cons_of_mem _ hv, hb⟩
  | @step a a₁ a' x xs gone rs he helim _ ih =>
    have hx2 := hx x List.mem_cons_self
    obtain ⟨hax, hapart⟩ := List.pairwise_cons.1 hapart
    rw [List.flatten_cons, List.mem_append] at hg
    rcases hg with hg | hg
    · obtain ⟨hw, hwx, hb⟩ := Arena.mem_retired hx2 hg
      exact ⟨hw, hwx ▸ List.mem_cons_self, hb⟩
    · obtain ⟨hw, hv, hb⟩ := ih helim.wf (fun y hy' => hx y (List.mem_cons_of_mem _ hy'))
        (hapart.imp_of_mem fun {z z'} hz _ => helim.apart ha hx2 he (hax z hz)) hg
      obtain ⟨j, hj⟩ := Arena.mem_bodies.1 hb
      refine ⟨hw, List.mem_cons_of_mem _ hv, Arena.mem_bodies.2 ⟨j, ?_⟩⟩
      exact (helim.clause_iff ha hx2 he (hax _ hv) hw rfl).1 hj

/-- After a run, the lists of a variable are complete, or it was eliminated and they hold no live clauses. -/
theorem EliminatesAll.complete_or (hs : t.Sound a) (hc : ∀ l : Lit, l.var ∈ xs → t.Complete a l) (hy : y ∈ xs) :
    (∀ l : Lit, l.var = y → t.Complete a' l) ∨ (∃ g ∈ gone.flatten, g.witness.var = y) ∧
      ∀ l : Lit, l.var = y → ∀ j ∈ t.listAt l.index, a'.alive j = false := by
  induction h with
  | nil => cases hy
  | @skip a a' x xs gone _ hall ih =>
    have hxs : ∀ y ∈ xs, y < 2 ^ 31 := fun y hy => hx y (List.mem_cons_of_mem _ hy)
    obtain ⟨hax, hapart⟩ := List.pairwise_cons.1 hapart
    rcases List.mem_cons.1 hy with hyx | hy
    · refine Or.inl fun l hl j c hb hlc => hc l ((hl.trans hyx).symm ▸ List.mem_cons_self) j c ?_ hlc
      exact (hall.clause_iff ha hxs (fun y hy => (hax y hy).symm) hapart hlc (hl.trans hyx)).1 hb
    · exact ih ha hxs hapart hs (fun k hk => hc k (List.mem_cons_of_mem _ hk)) hy
  | @step a a₁ a' x xs gone rs he helim hall ih =>
    have hx2 := hx x List.mem_cons_self
    have hxs : ∀ y ∈ xs, y < 2 ^ 31 := fun y hy => hx y (List.mem_cons_of_mem _ hy)
    obtain ⟨hax, hapart⟩ := List.pairwise_cons.1 hapart
    have hapart₁ : xs.Pairwise a₁.Apart := hapart.imp_of_mem fun {z z'} hz _ => helim.apart ha hx2 he (hax z hz)
    by_cases hyx : y = x
    · by_cases hocc : ∃ c ∈ a.bodies, ∃ l ∈ c, l.var = x
      · obtain ⟨c, hcb, l, hl, hlx⟩ := hocc
        obtain ⟨g, hg, _⟩ := Arena.exists_retired hx2 hcb hl hlx
        refine Or.inr ⟨⟨g, List.mem_append_left _ hg, hyx ▸ (Arena.mem_retired hx2 hg).2.1⟩, fun l hl j hj => ?_⟩
        refine Arena.body_eq_none_iff.1 (Option.eq_none_iff_forall_ne_some.2 fun c hb => ?_)
        have hb₁ := hall.body_of_lt helim.wf (Nat.lt_of_lt_of_le (hs.lt _ j hj) (by rw [helim.len]; omega)) hb
        have := helim.not_alive hs (hl.trans hyx) hj
        rw [(Arena.body_eq_some_iff.1 hb₁).1] at this
        cases this
      · -- Literals come from literals that were there, so a variable without clauses gets none.
        refine Or.inl fun l hl j c hb hlc => absurd ?_ hocc
        obtain ⟨d, hd, hld⟩ := hall.origin helim.wf (Arena.mem_bodies.2 ⟨j, hb⟩) hlc
        rcases helim.mem_bodies_iff.1 hd with ⟨_, hne⟩ | hr
        · exact absurd (hl.trans hyx) (hne l hld)
        · obtain ⟨e, hbe, hle, _⟩ := exists_parent_of_mem ha he hr hld
          exact ⟨e, hbe, l, hle, hl.trans hyx⟩
    · have hy := (List.mem_cons.1 hy).resolve_left hyx
      refine (ih helim.wf hxs hapart₁ (helim.sound hs)
        (fun k hk => helim.complete ha hx2 he (hax _ hk) rfl (hc k (List.mem_cons_of_mem _ hk))) hy).imp_right ?_
      rintro ⟨⟨g, hg, hgy⟩, hdead⟩
      exact ⟨⟨g, List.mem_append_right _ hg, hgy⟩, hdead⟩

/-- An eliminated variable occurs afterwards in the resolvents that contain it, and nowhere else. -/
theorem EliminatesAll.occurs_iff {g : Removal} (hg : g ∈ gone.flatten) :
    (∃ c ∈ a'.bodies, ∃ l ∈ c, l.var = g.witness.var) ↔
      ∃ r ∈ resolventsOn (a.clausesWith (.positive g.witness.var)) (a.clausesWith (.negative g.witness.var))
        (.positive g.witness.var), ∃ l ∈ r, l.var = g.witness.var := by
  induction h with
  | nil => cases hg
  | skip _ _ ih =>
    exact ih ha (fun x hx' => hx x (List.mem_cons_of_mem _ hx')) (List.pairwise_cons.1 hapart).2 hg
  | @step a a₁ a' x xs gone rs he helim hall ih =>
    have hx2 := hx x List.mem_cons_self
    have hxs : ∀ y ∈ xs, y < 2 ^ 31 := fun y hy => hx y (List.mem_cons_of_mem _ hy)
    obtain ⟨hax, hapart⟩ := List.pairwise_cons.1 hapart
    have hapart₁ : xs.Pairwise a₁.Apart := hapart.imp_of_mem fun {z z'} hz _ => helim.apart ha hx2 he (hax z hz)
    rw [List.flatten_cons, List.mem_append] at hg
    rcases hg with hg | hg
    · have hgx := (Arena.mem_retired hx2 hg).2.1
      have hax₁ : ∀ y ∈ xs, a₁.Apart y x := fun y hy c hc l hl k hk hly hkx => by
        rcases helim.mem_bodies_iff.1 hc with ⟨_, hne⟩ | hc
        · exact hne k hk hkx
        · exact not_mem_of_apart ha hx2 he (hax y hy) hc hl hly
      rw [hgx, ← (elimination_eq_some he).1]
      constructor
      · rintro ⟨c, hc, l, hl, hlx⟩
        obtain ⟨j, hj⟩ := Arena.mem_bodies.1 hc
        have hc₁ := Arena.mem_bodies.2 ⟨j, (hall.clause_iff helim.wf hxs hax₁ hapart₁ hl hlx).1 hj⟩
        rcases helim.mem_bodies_iff.1 hc₁ with ⟨_, hne⟩ | hr
        · exact absurd hlx (hne l hl)
        · exact ⟨c, hr, l, hl, hlx⟩
      · rintro ⟨r, hr, l, hl, hlx⟩
        obtain ⟨j, hj⟩ := Arena.mem_bodies.1 (helim.mem_bodies_iff.2 (Or.inr hr))
        exact ⟨r, Arena.mem_bodies.2 ⟨j, (hall.clause_iff helim.wf hxs hax₁ hapart₁ hl hlx).2 hj⟩, l, hl, hlx⟩
    · have hgx := (hall.mem_gone helim.wf hxs hapart₁ hg).2.1
      have hg2 := hxs _ hgx
      rw [ih helim.wf hxs hapart₁ hg, helim.clausesWith_eq ha hx2 he (hax _ hgx) (Lit.var_positive hg2),
        helim.clausesWith_eq ha hx2 he (hax _ hgx) (Lit.var_negative hg2)]

end Run

/-! ## The pass -/

section Pass

variable {o : Options} {r r' : Reconstruction} {xs : List Nat} {m : Nat} (ha : a.Wf) (hw : w.Wf)
  (ht : t.Exact a) (hvars : w.candidateVars = .ok xs) (hn : xs.Nodup)
  (hx : ∀ x ∈ xs, x < t.numVars) (hnum : t.numVars ≤ 2 ^ 31)
  (hapart : ∀ x ∈ xs, ∀ y ∈ xs, x ≠ y → a.Apart x y)
include ha hw ht hvars hn hx hnum hapart

/-- One pass is a run of eliminations of the elected variables. -/
theorem eliminate_ends (hroom : (∀ f, E f) ∨ a.RoomFor (a.eliminations (toWord o.resolventLimit) xs) ∧ w.Sized n ∧
      a.Below n ∧ (E .unitListOverflow ∨ n < 2 ^ 31 - 1)) :
    Ends E (eliminate o a t w r) fun s => ∃ gone, EliminatesAll (toWord o.resolventLimit) a xs gone s.2.1 ∧
      s.1 = gone.countP (!·.isEmpty) ∧ w.Gains s.2.2.1 a.Yields ∧ s.2.2.2 = ⟨gone.flatten.reverse ++ r.stack⟩ := by
  have hpair : xs.Pairwise a.Apart := hn.imp_of_mem fun {x y} hx hy => hapart x hx y hy
  have hx2 : ∀ x ∈ xs, x < 2 ^ 31 := fun x hxs => Nat.lt_of_lt_of_le (hx x hxs) hnum
  unfold eliminate
  rw [hvars, ok_bind]
  refine (eliminateVars_ends ha hw ht.sound (fun x hxs => ⟨hx2 x hxs, hx x hxs⟩)
    (fun l _ => ht.complete l) hpair hroom).bind ?_
  rintro ⟨gone, a', w'⟩ ⟨hall, hgain⟩
  simp only [Reconstruction.pushAll_ok (fun g hg => (hall.mem_gone ha hx2 hpair hg).1) r, ok_bind]
  exact ⟨gone, hall, rfl, hgain, rfl⟩

section Room

omit hw hn hapart

/-- The room that is asked for is that of the resolvents, unless it overflows the words that hold it. -/
theorem resolventRoom_ends_lt (hroom : E .overflow ∨ (a.eliminations (toWord o.resolventLimit) xs).length < 2 ^ 32 ∧
      ((a.eliminations (toWord o.resolventLimit) xs).map List.length).sum < 2 ^ 64) :
    Ends E (resolventRoom o a t w) fun q => q = ((a.eliminations (toWord o.resolventLimit) xs).length,
      ((a.eliminations (toWord o.resolventLimit) xs).map List.length).sum) ∧ q.1 < 2 ^ 32 ∧ q.2 < 2 ^ 64 := by
  unfold resolventRoom
  rw [hvars, ok_bind]
  refine ends_foldlM (fun (done : List Nat) (q : Nat × Nat) =>
    q = ((a.eliminations (toWord o.resolventLimit) done).length,
      ((a.eliminations (toWord o.resolventLimit) done).map List.length).sum) ∧ q.1 < 2 ^ 32 ∧ q.2 < 2 ^ 64)
    ⟨rfl, by simp, by simp⟩ ?_
  rintro done x rest _ hxs ⟨rfl, hlt⟩
  have hxm : x ∈ xs := by rw [hxs]; simp
  have hres : resolvents a t (toWord o.resolventLimit) x = .ok (a.elimination (toWord o.resolventLimit) x) := by
    have hx2 := Nat.lt_of_lt_of_le (hx x hxm) hnum
    refine resolvents_ok ha ht.sound fun l hl => ⟨ht.complete l, ?_⟩
    exact index_lt_of_var ht.sound (hx x hxm) ((Lit.var_eq_iff_positive_or_negative hx2).2 hl)
  have happend (x : Nat) : a.eliminations (toWord o.resolventLimit) (done ++ [x]) =
      a.eliminations (toWord o.resolventLimit) done ++ (a.elimination (toWord o.resolventLimit) x).getD [] := by
    simp [Arena.eliminations]
  have hle : a.eliminations (toWord o.resolventLimit) xs = a.eliminations (toWord o.resolventLimit) (done ++ [x]) ++
      a.eliminations (toWord o.resolventLimit) rest := by
    rw [hxs]
    simp [Arena.eliminations]
  rw [hle, happend] at hroom
  rw [happend, hres]
  simp only [ok_bind, totalOf_eq_sum]
  cases he : a.elimination (toWord o.resolventLimit) x with
  | none => simpa [pure, Except.pure] using hlt
  | some rs =>
    simp only [he, Option.getD_some, List.length_append, List.map_append, List.sum_append] at hroom ⊢
    refine (ends_sum32_lt (hroom.imp_right fun h => by omega)).bind ?_
    rintro _ ⟨rfl, hclauses⟩
    refine (ends_sum64_lt (hroom.imp_right fun h => by omega)).bind ?_
    rintro _ ⟨rfl, hlits⟩
    exact ⟨rfl, hclauses, hlits⟩

theorem resolventRoom_ends (hroom : (∀ f, E f) ∨ (a.eliminations (toWord o.resolventLimit) xs).length < 2 ^ 32 ∧
      ((a.eliminations (toWord o.resolventLimit) xs).map List.length).sum < 2 ^ 64) :
    Ends E (resolventRoom o a t w) fun q => q = ((a.eliminations (toWord o.resolventLimit) xs).length,
      ((a.eliminations (toWord o.resolventLimit) xs).map List.length).sum) :=
  (resolventRoom_ends_lt ha ht hvars hx hnum (hroom.imp_left fun h => h _)).imp fun _ => And.left

end Room

end Pass

/-- The clauses in an arena with room for more, its table, and a working set that elects the given variables. -/
def electIn (clauses : List (List Int)) (numVars : Nat) (vars : List Nat) :
    Except Fault (Arena × Occurrences × WorkingSet) := do
  let a ← Arena.allocate 8 32
  let (_, a) ← (Arena.appendAll clauses).run? a
  let t ← (Occurrences.empty numVars).build a
  let (_, w) ← (WorkingSet.setCandidates vars).run? (.empty numVars)
  return (a, t, w)

theorem electIn_ok {clauses : List (List Int)} {numVars : Nat} {vars : List Nat} (hn : numVars ≤ 2 ^ 31)
    (hc : ∀ c ∈ clauses, ∀ i ∈ c, IsLit numVars i) (h : electIn clauses numVars vars = .ok (a, t, w)) :
    a.Wf ∧ a.Within numVars ∧ a.bodies = clauses.map clauseOfInts ∧ (Occurrences.empty numVars).build a = .ok t ∧
      t.numVars = numVars ∧ w.Wf ∧ w.Sized numVars ∧ w.candidateVars = .ok vars := by
  unfold electIn at h
  simp only [bind_eq_ok_iff, pure, Except.pure, Except.ok.injEq, Prod.mk.injEq, Prod.exists] at h
  obtain ⟨a₀, halloc, _, a, happ, t, hbuild, _, w, hset, rfl, rfl, rfl⟩ := h
  obtain ⟨ha₀, _, hlen, hwithin, _⟩ := (Arena.allocate_ends (E := fun _ => True) (Or.inl fun _ => trivial)).of_ok halloc
  have hext := (Arena.appendAll_ends (E := fun _ => True) ha₀ hn hc (Or.inl fun _ => trivial)).of_ok happ
  have helects := (WorkingSet.setCandidates_ends (E := fun _ => True) (WorkingSet.wf_empty numVars)
    (Or.inl fun _ => trivial)).of_ok hset
  have hvars := ((Occurrences.build_ends (E := fun _ => True) hext.wf (Or.inl fun _ => trivial)).of_ok hbuild).2
  refine ⟨hext.wf, hext.within numVars (hwithin numVars) fun r hr l hl => ?_, ?_, hbuild, hvars, helects.wf,
    helects.sized numVars (WorkingSet.sized_empty numVars), ?_⟩
  · obtain ⟨c, hcm, rfl⟩ := List.mem_map.1 hr
    obtain ⟨i, hi, rfl⟩ := mem_clauseOfInts.1 hl
    exact Lit.var_ofInt_lt hn (hc c hcm i hi)
  · rw [hext.bodies_eq]
    simp [Arena.bodies, Arena.crefs, hlen]
  · rw [WorkingSet.candidateVars_ok helects.wf, helects.contents]

/-- Variable elimination preserves models, with exact reconstruction. Models of the clauses before are models of the
clauses after and of the units newly found; and walking the entries newly pushed turns a model of the clauses after into
one of the clauses before, changing elected variables only. With the room that `resolventRoom` asks for, the pass does
not fault. -/
theorem eliminate_preserves {o : Options} {a : Arena} {t₀ t : Occurrences} {w : WorkingSet} {r : Reconstruction}
    {xs : List Nat} (ha : a.Wf) (hw : w.Wf) (hbuild : t₀.build a = .ok t) (hvars : w.candidateVars = .ok xs)
    (hn : xs.Nodup) (hx : ∀ x ∈ xs, x < t.numVars) (hnum : t.numVars ≤ 2 ^ 31)
    (hapart : ∀ x ∈ xs, ∀ y ∈ xs, x ≠ y → a.Apart x y) :
    (∀ s, eliminate o a t w r = .ok s →
      (∀ v, a.Models v → s.2.1.Models v) ∧
      (∃ us new, w.unitLits = .ok us ∧ s.2.2.1.unitLits = .ok (us ++ new) ∧
        ∀ l ∈ new, ∀ v, a.Models v → l.Holds v) ∧
      ∃ gone, s.2.2.2.toList = r.toList ++ gone ∧
        ∀ model : Array Bool, (∀ c ∈ a.bodies, ∀ l ∈ c, l.var < model.size) →
          s.2.1.Models (assignment model) →
          ∃ model', (Reconstruction.mk gone.reverse).extend.run? model = .ok ((), model') ∧
            model'.size = model.size ∧ a.Models (assignment model') ∧ ∀ x, x ∉ xs → model'[x]? = model[x]?) ∧
    (∀ clauses lits n, resolventRoom o a t w = .ok (clauses, lits) → clauses ≤ a.freeClauses → lits ≤ a.freeLits →
      w.Sized n → a.Below n → n < 2 ^ 31 - 1 → ∃ s, eliminate o a t w r = .ok s) := by
  have ht : t.Exact a := (Occurrences.build_ends (E := fun _ => True) ha (Or.inl fun _ => trivial)).of_ok hbuild |>.1
  have hx2 : ∀ x ∈ xs, x < 2 ^ 31 := fun x hxs => Nat.lt_of_lt_of_le (hx x hxs) hnum
  have hpair : xs.Pairwise a.Apart := hn.imp_of_mem fun {x y} hx hy => hapart x hx y hy
  constructor
  · rintro ⟨m, a', w', r'⟩ hs
    obtain ⟨gone, hall, _, hgain, hr'⟩ := (eliminate_ends (E := fun _ => True) (n := 0) (r := r) ha hw ht hvars hn
      hx hnum hapart (Or.inl fun _ => trivial)).of_ok hs
    have hpres := hall.preserves ha hx2 hpair
    have hgone := fun g hg => hall.mem_gone ha hx2 hpair (g := g) hg
    obtain ⟨new, hnew, hyields⟩ := hgain.contents
    refine ⟨hpres.down, ⟨_, new, WorkingSet.unitLits_ok hw, ?_, fun l hl => (hyields l hl).1⟩, gone.flatten, ?_, ?_⟩
    · rw [← hnew]
      exact WorkingSet.unitLits_ok hgain.wf
    · rw [hr']
      exact Reconstruction.toList_mk_reverse_append _ r
    · intro model hsize hmodel
      obtain ⟨model', hrun, hsize', hassign⟩ := Reconstruction.run?_extend model
        (r := ⟨gone.flatten.reverse⟩) fun g hg => by
          obtain ⟨hw, _, hb⟩ := hgone g (List.mem_reverse.1 hg)
          exact ⟨hsize _ hb _ hw, hsize _ hb⟩
      rw [Reconstruction.toList, List.reverse_reverse] at hassign
      refine ⟨model', hrun, hsize', ?_, fun x hxs => getElem?_eq_of_assignment hsize' ?_⟩
      · rw [hassign]
        exact hpres.up _ hmodel
      · rw [hassign]
        refine repairAll_of_ne fun g hg hgx => hxs ?_
        exact hgx ▸ (hgone g hg).2.1
  · intro clauses lits n hroom hclauses hlits hsized hbelow hn31
    have hq := (resolventRoom_ends (E := fun _ => True) ha ht hvars hx hnum (Or.inl fun _ => trivial)).of_ok hroom
    cases hq
    have hne := nil_notMem_eliminations a (toWord o.resolventLimit) xs
    obtain ⟨s, hs, _⟩ := (eliminate_ends (E := fun _ => False) (o := o) (r := r) ha hw ht hvars hn hx hnum hapart
      (Or.inr ⟨Arena.roomFor_of_free hclauses hlits hne, hsized, hbelow, Or.inr hn31⟩)).exists_ok fun _ => id
    exact ⟨s, hs⟩

/-- Eliminating the first variable from `x₀ ∨ x₁` and `¬x₀ ∨ x₂`. -/
theorem eliminate_preserves_two_clauses : ∃ a t w s, electIn [[1, 2], [-1, 3]] 3 [0] = .ok (a, t, w) ∧
    eliminate {} a t w .empty = .ok s ∧ ∀ v, a.Models v → s.2.1.Models v := by
  obtain ⟨s, hs⟩ := exists_ok_of_isOk (x := do
    let (a, t, w) ← electIn [[1, 2], [-1, 3]] 3 [0]
    eliminate {} a t w .empty) (by decide +kernel)
  obtain ⟨⟨a, t, w⟩, hset, hs⟩ := bind_eq_ok_iff.1 hs
  have hc : ∀ c ∈ [[1, 2], [-1, 3]], ∀ i ∈ c, IsLit 3 i := by decide
  obtain ⟨ha, _, _, hbuild, hnum, hw, _, hvars⟩ := electIn_ok (by decide) hc hset
  refine ⟨a, t, w, s, hset, hs, ((eliminate_preserves ha hw hbuild hvars (by decide) ?_ ?_ ?_).1 s hs).1⟩
  · rw [hnum]
    decide
  · rw [hnum]
    decide
  · simp

/-- Which eliminated variables still occur after the pass. Exactly those for which there were a clause with both
literals of the variable and a clause with one of them, say `l`, whose literals without the negation of `l` are no
tautology together: the resolvent of the two keeps the variable. -/
theorem eliminated_occurs_iff {o : Options} {a : Arena} {t₀ t : Occurrences} {w : WorkingSet} {r : Reconstruction}
    {xs : List Nat} {s : Nat × Arena × WorkingSet × Reconstruction} (ha : a.Wf) (hw : w.Wf)
    (hbuild : t₀.build a = .ok t) (hvars : w.candidateVars = .ok xs) (hn : xs.Nodup) (hx : ∀ x ∈ xs, x < t.numVars)
    (hnum : t.numVars ≤ 2 ^ 31) (hapart : ∀ x ∈ xs, ∀ y ∈ xs, x ≠ y → a.Apart x y)
    (hs : eliminate o a t w r = .ok s) :
    ∃ gone, s.2.2.2.toList = r.toList ++ gone ∧ ∀ x, (∃ g ∈ gone, g.witness.var = x) →
      ((∃ c ∈ s.2.1.bodies, ∃ l ∈ c, l.var = x) ↔ ∃ c ∈ a.bodies, ∃ d ∈ a.bodies, ∃ l, l.var = x ∧ l ∈ c ∧ l.not ∈ c ∧
        l ∈ d ∧ l.not ∉ d ∧ ¬Tautology ((c ++ d).filter fun k => k ≠ l.not)) := by
  have ht : t.Exact a := (Occurrences.build_ends (E := fun _ => True) ha (Or.inl fun _ => trivial)).of_ok hbuild |>.1
  have hx2 : ∀ x ∈ xs, x < 2 ^ 31 := fun x hxs => Nat.lt_of_lt_of_le (hx x hxs) hnum
  have hpair : xs.Pairwise a.Apart := hn.imp_of_mem fun {x y} hx hy => hapart x hx y hy
  have hasc : ∀ c ∈ a.bodies, c.Pairwise (· < ·) := fun c hc => by
    obtain ⟨i, hi⟩ := Arena.mem_bodies.1 hc
    exact ha.ascends i c hi
  obtain ⟨gone, hall, _, _, hr'⟩ := (eliminate_ends (E := fun _ => True) (n := 0) (r := r) ha hw ht hvars hn hx hnum
    hapart (Or.inl fun _ => trivial)).of_ok hs
  refine ⟨gone.flatten, by rw [hr']; exact Reconstruction.toList_mk_reverse_append _ r, ?_⟩
  rintro _ ⟨g, hg, rfl⟩
  have hgx := hx2 _ (hall.mem_gone ha hx2 hpair hg).2.1
  rw [hall.occurs_iff ha hx2 hpair hg]
  constructor
  · rintro ⟨r, hr, l, hl, hlx⟩
    obtain ⟨p, hp, n, hn, hres⟩ := mem_resolventsOn.1 hr
    obtain ⟨hp, hxp⟩ := Arena.mem_clausesWith.1 hp
    obtain ⟨hn, hxn⟩ := Arena.mem_clausesWith.1 hn
    obtain ⟨c, d, hcd, hrest⟩ := both_of_mem_resolve hgx (hasc p hp) (hasc n hn) hxp hxn hres hl hlx
    rcases hcd with ⟨rfl, rfl⟩ | ⟨rfl, rfl⟩
    · exact ⟨c, hp, d, hn, l, hlx, hrest⟩
    · exact ⟨c, hn, d, hp, l, hlx, hrest⟩
  · rintro ⟨c, hc, d, hd, l, hlx, hlc, hnc, hld, hnd, ht⟩
    obtain ⟨p, n, r, hpn, hxp, hxn, hres, hlr⟩ :=
      exists_resolve_of_both hgx (hasc c hc) (hasc d hd) hlx hlc hnc hld hnd ht
    refine ⟨r, mem_resolventsOn.2 ⟨p, ?_, n, ?_, hres⟩, l, hlr, hlx⟩
    · refine Arena.mem_clausesWith.2 ⟨?_, hxp⟩
      rcases hpn with ⟨rfl, _⟩ | ⟨rfl, _⟩
      · exact hc
      · exact hd
    · refine Arena.mem_clausesWith.2 ⟨?_, hxn⟩
      rcases hpn with ⟨_, rfl⟩ | ⟨_, rfl⟩
      · exact hd
      · exact hc

/-- The variable of a clause with both of its literals can be eliminated and still occur: of `x₀ ∨ ¬x₀ ∨ x₁` and
`¬x₀ ∨ x₂`, the resolvent `¬x₀ ∨ x₁ ∨ x₂` is left. -/
theorem eliminated_variable_occurs :
    (do
      let (a, t, w) ← electIn [[1, -1, 2], [-1, 3]] 3 [0]
      let (n, a, _, r) ← eliminate {} a t w .empty
      return (n, ← a.mapLive fun _ c => c.lits, r.toList)) =
    .ok (1, [[⟨1⟩, ⟨2⟩, ⟨4⟩]], [⟨⟨0⟩, [⟨0⟩, ⟨1⟩, ⟨2⟩]⟩, ⟨⟨1⟩, [⟨1⟩, ⟨4⟩]⟩]) := by
  decide +kernel

/-- The theorem at these clauses. -/
theorem eliminated_occurs_iff_two_clauses : ∃ a t w s, electIn [[1, -1, 2], [-1, 3]] 3 [0] = .ok (a, t, w) ∧
    eliminate {} a t w .empty = .ok s ∧ ∃ gone, s.2.2.2.toList = gone ∧ ∀ x, (∃ g ∈ gone, g.witness.var = x) →
      ((∃ c ∈ s.2.1.bodies, ∃ l ∈ c, l.var = x) ↔ ∃ c ∈ a.bodies, ∃ d ∈ a.bodies, ∃ l, l.var = x ∧ l ∈ c ∧ l.not ∈ c ∧
        l ∈ d ∧ l.not ∉ d ∧ ¬Tautology ((c ++ d).filter fun k => k ≠ l.not)) := by
  obtain ⟨s, hs⟩ := exists_ok_of_isOk (x := do
    let (a, t, w) ← electIn [[1, -1, 2], [-1, 3]] 3 [0]
    eliminate {} a t w .empty) (by decide +kernel)
  obtain ⟨⟨a, t, w⟩, hset, hs⟩ := bind_eq_ok_iff.1 hs
  have hc : ∀ c ∈ [[1, -1, 2], [-1, 3]], ∀ i ∈ c, IsLit 3 i := by decide
  obtain ⟨ha, _, _, hbuild, hnum, hw, _, hvars⟩ := electIn_ok (by decide) hc hset
  refine ⟨a, t, w, s, hset, hs, eliminated_occurs_iff ha hw hbuild hvars (by decide) ?_ ?_ ?_ hs⟩
  · rw [hnum]
    decide
  · rw [hnum]
    decide
  · simp

end CnfSimp
