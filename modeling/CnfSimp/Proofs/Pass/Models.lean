import CnfSimp.Proofs.Arena.Append
import CnfSimp.Proofs.Assignment
import CnfSimp.Proofs.Occurrences.View

/-!
# Models of an arena

* `Arena.Models`: an assignment makes every live clause true.
* `Preserves a a' gone`: what a simplification has to do. Models stay models, and a model of what is left becomes one of
  what was there by repairing it for the clauses that are gone. Simplifications compose (`Preserves.trans`).
* `Prunes`, `Drops`: what passes do that append nothing. Literals or clauses are gone, and the invariants are kept.
* `Arena.core`, `Arena.Retains`: the irredundant clauses on their own, and what keeps their models.
* `Arena.Apart`: no live clause has literals of both of two variables.
-/

namespace CnfSimp

variable {a a' a'' : Arena} {i : Nat} {c : List Lit} {v : Assignment} {gone more : List Removal}

/-- The assignment makes every live clause true. -/
def Arena.Models (a : Arena) (v : Assignment) : Prop := ∀ c ∈ a.bodies, Holds v c

theorem Arena.Models.holds (h : a.Models v) (hc : a.body i = some c) : Holds v c := h c (Arena.mem_bodies.2 ⟨i, hc⟩)

/-- Models stay models, and repairing a model of what is left for what is gone gives a model of what was there. -/
structure Preserves (a a' : Arena) (gone : List Removal) : Prop where
  down : ∀ v, a.Models v → a'.Models v
  up : ∀ v, a'.Models v → a.Models (repairAll gone v)

namespace Preserves

theorem refl (a : Arena) : Preserves a a [] := ⟨fun _ h => h, fun _ h => h⟩

theorem trans (h : Preserves a a' gone) (h' : Preserves a' a'' more) : Preserves a a'' (gone ++ more) where
  down _ hv := h'.down _ (h.down _ hv)
  up _ hv := by
    rw [repairAll_append]
    exact h.up _ (h'.up _ hv)

/-- Arenas with the same clauses have the same models. -/
theorem of_bodies (h : ∀ c, c ∈ a'.bodies ↔ c ∈ a.bodies) : Preserves a a' [] where
  down _ hv c hc := hv c ((h c).1 hc)
  up _ hv c hc := hv c ((h c).2 hc)

/-- A literal that no model needs can go. -/
theorem erased (ha : a.Wf) (hsep : a.Separated) (hb : a.body i = some c) {l : Lit} (hl : l ∈ c)
    (h : ∀ v, a.Models v → Holds v (c.erase l)) : Preserves a (a.erased i l) [] := by
  obtain ⟨hal, rfl⟩ := Arena.body_eq_some_iff.1 hb
  have hi := Arena.lt_of_body hb
  refine ⟨fun v hv d hd => ?_, fun v hv d hd => ?_⟩
  · obtain ⟨j, hj⟩ := Arena.mem_bodies.1 hd
    rw [Arena.body_erased ha hsep hi hl hal] at hj
    split at hj
    · rw [← Option.some.inj hj]
      exact h v hv
    · exact hv.holds hj
  · obtain ⟨j, hj⟩ := Arena.mem_bodies.1 hd
    have hbody := Arena.body_erased ha hsep hi hl hal j
    split at hbody
    · next he =>
      rw [he, hb, Option.some.injEq] at hj
      subst hj
      exact (hv.holds hbody).of_subset fun k hk => List.erase_subset hk
    · exact hv.holds (hbody.trans hj)

/-- A clause that follows from the others can go. -/
theorem melted (hi : i < a.len) (h : ∀ v c, (∀ j d, j ≠ i → a.body j = some d → Holds v d) → a.body i = some c →
    Holds v c) : Preserves a (a.melted i) [] where
  down v hv c hc := by
    obtain ⟨j, hj⟩ := Arena.mem_bodies.1 hc
    rw [Arena.body_melted hi] at hj
    split at hj
    · cases hj
    · exact hv.holds hj
  up v hv c hc := by
    obtain ⟨j, hj⟩ := Arena.mem_bodies.1 hc
    have hothers : ∀ j d, j ≠ i → a.body j = some d → Holds v d := fun j d hne hd =>
      hv.holds (by rw [Arena.body_melted hi, if_neg hne]; exact hd)
    by_cases he : j = i
    · exact h v c hothers (he ▸ hj)
    · exact hothers j c he hj

end Preserves

/-! ## Passes that append nothing -/

/-- Nothing was added, and the invariants were kept. -/
structure Prunes (a a' : Arena) : Prop where
  trims : a.Trims a'
  wf : a'.Wf
  ordered : a.Ordered → a'.Ordered

/-- Clauses are gone, and the others are as they were. -/
structure Drops (a a' : Arena) : Prop extends Prunes a a' where
  body : ∀ i c, a'.body i = some c → a.body i = some c

theorem Prunes.refl (ha : a.Wf) : Prunes a a := ⟨.refl a, ha, id⟩

theorem Prunes.trans (h : Prunes a a') (h' : Prunes a' a'') : Prunes a a'' :=
  ⟨h.trims.trans h'.trims, h'.wf, fun ho => h'.ordered (h.ordered ho)⟩

namespace Drops

theorem refl (ha : a.Wf) : Drops a a := ⟨.refl ha, fun _ _ h => h⟩

theorem trans (h : Drops a a') (h' : Drops a' a'') : Drops a a'' :=
  ⟨h.toPrunes.trans h'.toPrunes, fun i c hc => h.body i c (h'.body i c hc)⟩

theorem melted (ha : a.Wf) (hi : i < a.len) : Drops a (a.melted i) where
  trims := Arena.trims_melted hi
  wf := ha.melted hi
  ordered ho := ho.melted hi
  body j c hc := by
    rw [Arena.body_melted hi] at hc
    split at hc
    · cases hc
    · exact hc

/-- Lists of clauses stay sound when clauses go. -/
theorem sound {t : Occurrences} (h : Drops a a') (hs : t.Sound a) : t.Sound a' where
  wf := hs.wf
  size := hs.size
  lt i x hx := by
    rw [h.trims.len]
    exact hs.lt i x hx
  ascends := hs.ascends
  mem l x hx c hc := hs.mem l x hx c (h.body x c hc)

theorem alive (h : Drops a a') (hi : a.alive i = false) : a'.alive i = false := by
  rw [← Arena.body_eq_none_iff] at hi ⊢
  refine Option.eq_none_iff_forall_ne_some.2 fun c hc => ?_
  rw [h.body i c hc] at hi
  cases hi

theorem complete {t : Occurrences} {l : Lit} (h : Drops a a') (hc : t.Complete a l) : t.Complete a' l :=
  fun j c hb => hc j c (h.body j c hb)

theorem usable {t : Occurrences} {x : Nat} (h : Drops a a') (hu : t.Usable a x) : t.Usable a' x :=
  hu.imp (fun hc l hl => h.complete (hc l hl)) fun hd l hl j hj => h.alive (hd l hl j hj)

/-- Melting clauses. -/
theorem of_melts {is : List Nat} (h : a.Melts is a') (ha : a.Wf) : Drops a a' := by
  induction h with
  | nil => exact .refl ha
  | cons hi _ ih =>
    have hlt := (Arena.alive_iff.1 hi).1
    exact (Drops.melted ha hlt).trans (ih (ha.melted hlt))

end Drops

namespace Arena

/-- The literals of live clauses are of the first `n` variables. -/
def Below (a : Arena) (n : Nat) : Prop := ∀ c ∈ a.bodies, ∀ l ∈ c, l.var < n

theorem Within.below {n : Nat} (h : a.Within n) : a.Below n := fun c hc l hl => by
  obtain ⟨i, hi⟩ := mem_bodies.1 hc
  exact h i (lt_of_body hi) l (text_of_body hi ▸ hl)

/-- The live irredundant clauses, in order. -/
def core (a : Arena) : List (List Lit) :=
  a.crefs.filterMap fun i => if (a.header i).code = Status.irredundant.code then a.body i else none

theorem mem_core : c ∈ a.core ↔ ∃ i, a.body i = some c ∧ (a.header i).status = .ok .irredundant := by
  unfold core crefs
  simp only [List.mem_filterMap, List.mem_range, Header.status_eq_ok_iff]
  constructor
  · rintro ⟨i, _, hi⟩
    split at hi
    · next hs => exact ⟨i, hi, hs⟩
    · cases hi
  · rintro ⟨i, hi, hs⟩
    exact ⟨i, lt_of_body hi, by rw [if_pos hs, hi]⟩

/-- The assignment makes every live irredundant clause true. -/
def CoreModels (a : Arena) (v : Assignment) : Prop := ∀ c ∈ a.core, Holds v c

/-- Every live irredundant clause has a part that is one afterwards. -/
def Retains (a a' : Arena) : Prop := ∀ c ∈ a.core, ∃ d ∈ a'.core, d ⊆ c

namespace Retains

theorem refl (a : Arena) : a.Retains a := fun c hc => ⟨c, hc, List.Subset.refl c⟩

theorem trans (h : a.Retains a') (h' : a'.Retains a'') : a.Retains a'' := by
  intro c hc
  obtain ⟨d, hd, hsub⟩ := h c hc
  obtain ⟨e, he, hsub'⟩ := h' d hd
  exact ⟨e, he, List.Subset.trans hsub' hsub⟩

theorem coreModels (h : a.Retains a') (hv : a'.CoreModels v) : a.CoreModels v := by
  intro c hc
  obtain ⟨d, hd, hsub⟩ := h c hc
  exact (hv d hd).of_subset fun l hl => hsub hl

/-- A clause can go if another one is a part of it, which is irredundant if that clause was. -/
theorem melted {j : Nat} {d : List Lit} (hi : i < a.len) (hne : j ≠ i) (hd : a.body j = some d)
    (hs : (a.header i).status = .ok .irredundant → (a.header j).status = .ok .irredundant)
    (hsub : ∀ c, a.body i = some c → d ⊆ c) : a.Retains (a.melted i) := by
  have hstay {k : Nat} {c : List Lit} (hk : k ≠ i) (hc : a.body k = some c)
      (hirr : (a.header k).status = .ok .irredundant) : c ∈ (a.melted i).core := by
    refine mem_core.2 ⟨k, by rw [body_melted hi, if_neg hk, hc], ?_⟩
    rw [Arena.melted, header_withHeader (Nat.lt_of_lt_of_le hi a.len_le_slots), if_neg hk, hirr]
  intro c hc
  obtain ⟨k, hc, hirr⟩ := mem_core.1 hc
  by_cases hk : k = i
  · subst hk
    exact ⟨d, hstay hne hd (hs hirr), hsub c hc⟩
  · exact ⟨c, hstay hk hc hirr, List.Subset.refl c⟩

/-- A clause can lose a literal. -/
theorem erased (ha : a.Wf) (hsep : a.Separated) (hb : a.body i = some c) {l : Lit} (hl : l ∈ c) :
    a.Retains (a.erased i l) := by
  obtain ⟨hal, rfl⟩ := body_eq_some_iff.1 hb
  have hi := lt_of_body hb
  intro d hd
  obtain ⟨k, hd, hirr⟩ := mem_core.1 hd
  have hs : ((a.erased i l).header k).status = .ok .irredundant := by
    rw [Header.status_eq_ok_iff] at hirr ⊢
    rw [header_erased hi]
    split
    · next he => rw [← hirr, he]
    · exact hirr
  have hbody := body_erased ha hsep hi hl hal k
  split at hbody
  · next he =>
    subst he
    rw [hb, Option.some.injEq] at hd
    exact ⟨_, mem_core.2 ⟨k, hbody, hs⟩, hd ▸ List.erase_subset⟩
  · exact ⟨d, mem_core.2 ⟨k, hbody.trans hd, hs⟩, List.Subset.refl d⟩

/-- A learnt clause can become irredundant. -/
theorem promoted (hi : i < a.len) (hs : (a.header i).status = .ok .learnt) : a.Retains (a.promoted i) := by
  intro d hd
  obtain ⟨k, hd, hirr⟩ := mem_core.1 hd
  refine ⟨d, mem_core.2 ⟨k, (body_promoted hi hs k).trans hd, ?_⟩, List.Subset.refl d⟩
  rw [Arena.promoted, header_withHeader (Nat.lt_of_lt_of_le hi a.len_le_slots)]
  split
  · exact Header.status_eq_ok_iff.2 rfl
  · exact hirr

end Retains

/-- A literal of a live clause that is true in every model. -/
def Yields (a : Arena) (l : Lit) : Prop := (∀ v, a.Models v → l.Holds v) ∧ ∃ c ∈ a.bodies, l ∈ c

/-- No live clause has literals of both variables. -/
def Apart (a : Arena) (x y : Nat) : Prop := ∀ c ∈ a.bodies, ∀ l ∈ c, ∀ k ∈ c, l.var = x → k.var ≠ y

theorem Apart.symm {x y : Nat} (h : a.Apart x y) : a.Apart y x := fun c hc l hl k hk hy hx => h c hc k hk l hl hx hy

/-- The live clauses with a literal, in order. -/
def clausesWith (a : Arena) (l : Lit) : List (List Lit) := a.bodies.filter fun c => c.contains l

theorem mem_clausesWith {l : Lit} : c ∈ a.clausesWith l ↔ c ∈ a.bodies ∧ l ∈ c := by
  rw [clausesWith, List.mem_filter, List.contains_iff_mem]

/-- The clauses with a literal, by their slots. -/
theorem map_text_slotsWith (a : Arena) (l : Lit) : (a.slotsWith l).map a.text = a.clausesWith l := by
  unfold slotsWith clausesWith bodies
  induction a.crefs with
  | nil => rfl
  | cons i is ih =>
    rw [List.filter_cons, List.filterMap_cons]
    cases hb : a.body i with
    | none => simpa using ih
    | some c =>
      simp only [Option.any_some, List.filter_cons]
      split
      · rw [List.map_cons, ih, text_of_body hb]
      · exact ih

end Arena

end CnfSimp
