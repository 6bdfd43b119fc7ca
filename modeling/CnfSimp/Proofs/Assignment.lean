import CnfSimp.Proofs.Literals
import CnfSimp.Proofs.Outcome
import CnfSimp.Reconstruction

/-!
# Assignments

* `Lit.Holds`, `Holds`: an assignment makes a literal, a clause true. `Tautology`: a clause with two complementary
  literals, which holds always (`Tautology.holds`).
* `Assignment.make`: the assignment with one literal made true.
* `Removal.repair`, `repairAll`: what walking the reconstruction stack does to an assignment. Removals that share their
  witness flip it at most once (`repairAll_map`).
* `Reconstruction.run?_extend`: on an array of truth values the walk never leaves the array and is `repairAll`.
-/

namespace CnfSimp

/-- A truth value for every variable. -/
abbrev Assignment := Nat → Bool

variable {v : Assignment} {l k : Lit} {lits : List Lit}

/-- The assignment makes the literal true. -/
def Lit.Holds (v : Assignment) (l : Lit) : Prop := v l.var = !l.isNeg

instance : Decidable (l.Holds v) := inferInstanceAs (Decidable (v l.var = !l.isNeg))

/-- Exactly one of two complementary literals is true. -/
@[simp]
theorem Lit.holds_not : l.not.Holds v ↔ ¬l.Holds v := by
  unfold Lit.Holds
  rw [var_not, isNeg_not]
  cases v l.var <;> cases l.isNeg <;> simp

/-- The assignment makes a literal of the clause true. -/
def Holds (v : Assignment) (lits : List Lit) : Prop := ∃ l ∈ lits, l.Holds v

instance : Decidable (Holds v lits) := inferInstanceAs (Decidable (∃ l ∈ lits, l.Holds v))

/-- The clause has two complementary literals. -/
def Tautology (lits : List Lit) : Prop := ∃ l ∈ lits, l.not ∈ lits

instance : Decidable (Tautology lits) := inferInstanceAs (Decidable (∃ l ∈ lits, l.not ∈ lits))

/-- A tautology holds always. -/
theorem Tautology.holds (h : Tautology lits) (v : Assignment) : Holds v lits := by
  obtain ⟨l, hl, hn⟩ := h
  by_cases hv : l.Holds v
  · exact ⟨l, hl, hv⟩
  · exact ⟨l.not, hn, Lit.holds_not.2 hv⟩

/-- A clause holds where a part of it does. -/
theorem Holds.of_subset {lits' : List Lit} (h : Holds v lits) (hsub : ∀ l ∈ lits, l ∈ lits') : Holds v lits' := by
  obtain ⟨l, hl, hv⟩ := h
  exact ⟨l, hsub l hl, hv⟩

/-- The assignment with one literal made true. -/
def Assignment.make (v : Assignment) (l : Lit) : Assignment := fun x => if x = l.var then !l.isNeg else v x

/-- The made literal is true, and those of other variables are as before. -/
theorem holds_make : k.Holds (Assignment.make v l) ↔ k = l ∨ k.var ≠ l.var ∧ k.Holds v := by
  unfold Lit.Holds Assignment.make
  by_cases h : k.var = l.var
  · rw [if_pos h]
    constructor
    · intro hn
      refine Or.inl (Lit.ext_var h ?_)
      revert hn
      cases k.isNeg <;> cases l.isNeg <;> simp
    · rintro (rfl | ⟨hn, _⟩)
      · rfl
      · exact absurd h hn
  · rw [if_neg h]
    refine ⟨fun hv => Or.inr ⟨h, hv⟩, ?_⟩
    rintro (rfl | ⟨_, hv⟩)
    · exact absurd rfl h
    · exact hv

theorem holds_make_self (v : Assignment) (l : Lit) : l.Holds (Assignment.make v l) := holds_make.2 (Or.inl rfl)

/-- A clause that holds keeps holding when a literal is made true whose negation it does not need. -/
theorem Holds.make (h : ∃ k ∈ lits, k ≠ l.not ∧ k.Holds v) : Holds (Assignment.make v l) lits := by
  obtain ⟨k, hk, hne, hv⟩ := h
  refine ⟨k, hk, holds_make.2 ?_⟩
  by_cases hvar : k.var = l.var
  · exact Or.inl ((Lit.var_eq_iff.1 hvar).resolve_right hne)
  · exact Or.inr ⟨hvar, hv⟩

/-! ## Repairing assignments -/

/-- Makes the witness of a removed clause true unless the clause holds. -/
def Removal.repair (removal : Removal) (v : Assignment) : Assignment :=
  if Holds v removal.lits then v else v.make removal.witness

/-- Repairs for all removed clauses, the last one first. -/
def repairAll (gone : List Removal) (v : Assignment) : Assignment := gone.foldr Removal.repair v

@[simp]
theorem repairAll_nil : repairAll [] v = v := rfl

@[simp]
theorem repairAll_cons (removal : Removal) (gone : List Removal) :
    repairAll (removal :: gone) v = removal.repair (repairAll gone v) := rfl

theorem repairAll_append (gone more : List Removal) : repairAll (gone ++ more) v = repairAll gone (repairAll more v) :=
  List.foldr_append

/-- Repairing for clauses that all contain the witness flips it unless all of them hold. -/
theorem repairAll_map {clauses : List (List Lit)} (h : ∀ c ∈ clauses, l ∈ c) :
    repairAll (clauses.map (Removal.mk l)) v = if ∀ c ∈ clauses, Holds v c then v else v.make l := by
  induction clauses with
  | nil => simp
  | cons c clauses ih =>
    rw [List.map_cons, repairAll_cons, ih fun d hd => h d (List.mem_cons_of_mem _ hd), Removal.repair]
    by_cases hall : ∀ d ∈ clauses, Holds v d
    · rw [if_pos hall]
      by_cases hc : Holds v c
      · rw [if_pos hc, if_pos (List.forall_mem_cons.2 ⟨hc, hall⟩)]
      · rw [if_neg hc, if_neg fun hn => hc (List.forall_mem_cons.1 hn).1]
    · rw [if_neg hall, if_pos ⟨l, h c List.mem_cons_self, holds_make_self v l⟩,
        if_neg fun hn => hall (List.forall_mem_cons.1 hn).2]

/-- After repairing for clauses that all contain the witness, all of them hold. -/
theorem holds_repairAll_map {clauses : List (List Lit)} (h : ∀ c ∈ clauses, l ∈ c) {c : List Lit}
    (hc : c ∈ clauses) : Holds (repairAll (clauses.map (Removal.mk l)) v) c := by
  rw [repairAll_map h]
  split
  · next hall => exact hall c hc
  · exact ⟨l, h c hc, holds_make_self v l⟩

/-- Repairing changes the variables of the witnesses only. -/
theorem repairAll_of_ne {gone : List Removal} {x : Nat} (h : ∀ g ∈ gone, g.witness.var ≠ x) :
    repairAll gone v x = v x := by
  induction gone with
  | nil => rfl
  | cons g gone ih =>
    have hg := h g List.mem_cons_self
    have ih := ih fun g' hg' => h g' (List.mem_cons_of_mem _ hg')
    rw [repairAll_cons, Removal.repair]
    split
    · exact ih
    · rw [Assignment.make, if_neg (Ne.symm hg), ih]

/-! ## Arrays of truth values -/

section Arrays

variable {model : Array Bool}

/-- The truth values in an array; variables beyond it are false. -/
def assignment (model : Array Bool) : Assignment := fun x => model[x]?.getD false

/-- The value of a literal of a variable in the array. -/
theorem Lit.value_ok (h : l.var < model.size) : l.value model = .ok (decide (l.Holds (assignment model))) := by
  have hv : l.Holds (assignment model) ↔ model[l.var] = !l.isNeg := by
    unfold Lit.Holds assignment
    rw [Array.getElem?_eq_getElem h, Option.getD_some]
  unfold Lit.value
  rw [Array.getElem?_eq_getElem h]
  refine congrArg Except.ok ?_
  rw [Bool.eq_iff_iff, decide_eq_true_iff, hv]
  cases model[l.var] <;> cases l.isNeg <;> decide

/-- The value of a clause whose variables are in the array. -/
theorem satisfied_ok (h : ∀ l ∈ lits, l.var < model.size) :
    satisfied lits model = .ok (decide (Holds (assignment model) lits)) := by
  rw [satisfied, anyM_ok fun l hl => Lit.value_ok (h l hl)]
  refine congrArg Except.ok ?_
  rw [Bool.eq_iff_iff, List.any_eq_true, decide_eq_true_iff]
  exact exists_congr fun l => and_congr_right fun _ => decide_eq_true_iff

/-- Writing the value that makes a literal true. -/
theorem assignment_setIfInBounds (h : l.var < model.size) :
    assignment (model.setIfInBounds l.var (!l.isNeg)) = (assignment model).make l := by
  funext x
  unfold assignment Assignment.make
  rw [Array.getElem?_setIfInBounds]
  by_cases hx : x = l.var
  · subst hx
    rw [if_pos rfl, if_pos h, if_pos rfl]
    rfl
  · rw [if_neg (Ne.symm hx), if_neg hx]

/-- One step of the walk over the reconstruction stack. -/
theorem Reconstruction.run?_flip {removal : Removal} (hw : removal.witness.var < model.size)
    (h : ∀ l ∈ removal.lits, l.var < model.size) :
    ∃ model', (flip removal).run? model = .ok ((), model') ∧ model'.size = model.size ∧
      assignment model' = removal.repair (assignment model) := by
  unfold Removal.repair
  by_cases hv : Holds (assignment model) removal.lits
  · refine ⟨model, ?_, rfl, (if_pos hv).symm⟩
    simp [flip, satisfied_ok h, hv]
  · refine ⟨_, ?_, ?_, (assignment_setIfInBounds hw).trans (if_neg hv).symm⟩
    · simp [flip, satisfied_ok h, hv, hw]
    · exact Array.size_setIfInBounds

/-- Removed clauses that contain their witnesses go onto the stack. -/
theorem Reconstruction.pushAll_ok {gone : List Removal} (h : ∀ g ∈ gone, g.witness ∈ g.lits) (r : Reconstruction) :
    r.pushAll gone = .ok ⟨gone.reverse ++ r.stack⟩ := by
  unfold pushAll
  induction gone generalizing r with
  | nil => rfl
  | cons g gone ih =>
    have hpush : r.push g = .ok ⟨g :: r.stack⟩ := by simp [push, h g List.mem_cons_self, pure, Except.pure]
    rw [List.foldlM_cons, hpush, ok_bind, ih fun g' hg => h g' (List.mem_cons_of_mem _ hg)]
    simp

theorem Reconstruction.toList_mk_reverse_append (gone : List Removal) (r : Reconstruction) :
    (Reconstruction.mk (gone.reverse ++ r.stack)).toList = r.toList ++ gone := by
  simp [toList]

/-- The walk over the reconstruction stack repairs the assignment for every removed clause. -/
theorem Reconstruction.run?_extend (model : Array Bool) {r : Reconstruction}
    (h : ∀ g ∈ r.stack, g.witness.var < model.size ∧ ∀ l ∈ g.lits, l.var < model.size) :
    ∃ model', r.extend.run? model = .ok ((), model') ∧ model'.size = model.size ∧
      assignment model' = repairAll r.toList (assignment model) := by
  obtain ⟨stack⟩ := r
  unfold extend toList repairAll
  simp only at h ⊢
  induction stack generalizing model with
  | nil => exact ⟨model, rfl, rfl, rfl⟩
  | cons g stack ih =>
    obtain ⟨hw, hl⟩ := h g List.mem_cons_self
    obtain ⟨model₁, h₁, hs₁, ha₁⟩ := run?_flip hw hl
    have htail : ∀ g ∈ stack, g.witness.var < model₁.size ∧ ∀ l ∈ g.lits, l.var < model₁.size := by
      rw [hs₁]
      exact fun g' hg' => h g' (List.mem_cons_of_mem _ hg')
    obtain ⟨model₂, h₂, hs₂, ha₂⟩ := ih model₁ htail
    refine ⟨model₂, ?_, hs₂.trans hs₁, ?_⟩
    · show (flip g >>= fun _ => stack.forM flip).run? model = _
      rw [Update.run?_bind, h₁]
      exact h₂
    · rw [ha₂, ha₁, List.reverse_cons, List.foldr_append]
      rfl

/-- Arrays of one size hold the same value where their assignments agree. -/
theorem getElem?_eq_of_assignment {model' : Array Bool} {x : Nat} (hsize : model'.size = model.size)
    (h : assignment model' x = assignment model x) : model'[x]? = model[x]? := by
  unfold assignment at h
  by_cases hx : x < model.size
  · rw [Array.getElem?_eq_getElem hx, Array.getElem?_eq_getElem (hsize ▸ hx)] at h ⊢
    exact congrArg some h
  · rw [Array.getElem?_eq_none (Nat.le_of_not_lt hx), Array.getElem?_eq_none (by omega)]

end Arrays

end CnfSimp
