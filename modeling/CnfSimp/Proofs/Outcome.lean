import Mathlib
import CnfSimp.Bounded

/-!
# How computations end

* `Ends E x Q`: the computation `x` answers something with the property `Q`, or faults in a way that `E` allows. With
  no fault allowed it is total correctness (`Ends.exists_ok`), with every fault allowed partial correctness
  (`Ends.of_ok`). Computations are taken apart at their binds (`Ends.bind`) and loops by an invariant over the part of
  the list already done (`ends_foldlM`).
* `mapM_ok`, `selectM_ok`, `filterMapM_ok`, `anyM_ok`, `allM_ok`: a loop whose body never faults is its pure
  counterpart.
* `Update.run?_bind` and its companions: an operation on a state, started in a state, is a computation on the answer and
  the state. `Update.Keeps` is what a run does to its state whether it faults or not.
-/

namespace CnfSimp

variable {α β σ : Type} {E : Fault → Prop}

/-- The computation answers something with the property `Q`, or faults in a way that `E` allows. -/
def Ends (E : Fault → Prop) (x : Except Fault α) (Q : α → Prop) : Prop :=
  match x with
  | .ok a => Q a
  | .error f => E f

section Rules

variable {x : Except Fault α} {P Q : α → Prop}

@[simp]
theorem ends_ok {a : α} : Ends E (.ok a) Q ↔ Q a := Iff.rfl

@[simp]
theorem ends_pure {a : α} : Ends E (pure a) Q ↔ Q a := Iff.rfl

@[simp]
theorem ends_error {f : Fault} : Ends E (.error f) Q ↔ E f := Iff.rfl

theorem exists_ok_of_isOk (h : x.isOk) : ∃ a, x = .ok a := by
  cases x with
  | ok a => exact ⟨a, rfl⟩
  | error e => cases h

/-- A check answers if it is passed. -/
theorem ite_eq_ok_iff {ε : Type} {p : Prop} [Decidable p] {e : ε} {a b : α} :
    (if p then .ok a else .error e : Except ε α) = .ok b ↔ b = a ∧ p := by
  split
  · next hp => exact ⟨fun h => ⟨(Except.ok.inj h).symm, hp⟩, fun h => congrArg _ h.1.symm⟩
  · next hp => exact ⟨nofun, fun h => absurd h.2 hp⟩

theorem map_eq_ok_iff {ε : Type} {x : Except ε α} {f : α → β} {b : β} : x.map f = .ok b ↔ ∃ a, x = .ok a ∧ b = f a := by
  cases x with
  | ok a =>
    constructor
    · rintro ⟨⟩
      exact ⟨a, rfl, rfl⟩
    · rintro ⟨_, ⟨⟩, rfl⟩
      rfl
  | error e => exact ⟨nofun, nofun⟩

/-- Saying more about an error leaves the answers alone. -/
theorem mapError_eq_ok_iff {ε ε' : Type} {x : Except ε α} {f : ε → ε'} {a : α} : x.mapError f = .ok a ↔ x = .ok a := by
  cases x with
  | ok b => exact ⟨fun h => congrArg _ (Except.ok.inj h), fun h => congrArg _ (Except.ok.inj h)⟩
  | error e => exact ⟨nofun, nofun⟩

/-- The rule for sequences. -/
theorem Ends.bind {f : α → Except Fault β} {R : β → Prop} (hx : Ends E x P) (hf : ∀ a, P a → Ends E (f a) R) :
    Ends E (x >>= f) R := by
  cases x with
  | ok a => exact hf a hx
  | error e => exact hx

/-- The property of the answer can be weakened. -/
theorem Ends.imp (hx : Ends E x P) (h : ∀ a, P a → Q a) : Ends E x Q := by
  cases x with
  | ok a => exact h a hx
  | error e => exact hx

/-- What an answer satisfies when it has two properties. -/
theorem Ends.and (hP : Ends E x P) (hQ : Ends E x Q) : Ends E x fun a => P a ∧ Q a := by
  cases x with
  | ok a => exact ⟨hP, hQ⟩
  | error e => exact hP

/-- What an answer satisfies, together with where it is from. -/
theorem Ends.with_eq (h : Ends E x Q) : Ends E x fun a => x = .ok a ∧ Q a := by
  cases x with
  | ok a => exact ⟨rfl, h⟩
  | error e => exact h

/-- A computation that is known to answer. -/
theorem Ends.of_eq {a : α} (h : x = .ok a) (hQ : Q a) : Ends E x Q := by
  rw [h]
  exact hQ

/-- Of a computation that may fault in any way and answer anything nothing is said. -/
theorem ends_any : Ends (fun _ => True) x fun _ => True := by
  cases x <;> trivial

/-- What every answer satisfies. -/
theorem Ends.of_ok {a : α} (h : Ends E x Q) (hx : x = .ok a) : Q a := by
  rw [hx] at h
  exact h

/-- A fault that occurs is allowed. -/
theorem Ends.of_error {f : Fault} (h : Ends E x Q) (hx : x = .error f) : E f := by
  rw [hx] at h
  exact h

/-- Where no fault is allowed, there is an answer. -/
theorem Ends.exists_ok (h : Ends E x Q) (hE : ∀ f, ¬E f) : ∃ a, x = .ok a ∧ Q a := by
  cases x with
  | ok a => exact ⟨a, rfl, h⟩
  | error e => exact absurd h (hE e)

/-- The total of a list of numbers is its sum. -/
theorem totalOf_eq_sum (ns : List Nat) : totalOf ns = ns.sum := rfl

/-- A sum that fits, unless overflow is allowed. -/
theorem ends_sum32_lt {a b : Nat} (h : E .overflow ∨ a + b < 2 ^ 32) :
    Ends E (sum32 a b) fun c => c = a + b ∧ c < 2 ^ 32 := by
  unfold sum32
  split
  · next hlt => exact ⟨rfl, hlt⟩
  · next hn => exact h.resolve_right hn

theorem ends_sum64_lt {a b : Nat} (h : E .overflow ∨ a + b < 2 ^ 64) :
    Ends E (sum64 a b) fun c => c = a + b ∧ c < 2 ^ 64 := by
  unfold sum64
  split
  · next hlt => exact ⟨rfl, hlt⟩
  · next hn => exact h.resolve_right hn

theorem ends_sum32 {a b : Nat} (h : E .overflow ∨ a + b < 2 ^ 32) : Ends E (sum32 a b) (· = a + b) :=
  (ends_sum32_lt h).imp fun _ => And.left

theorem sum64_ok {a b : Nat} (h : a + b < 2 ^ 64) : sum64 a b = .ok (a + b) := if_pos h

/-- The rule for loops: an invariant over the part of the list that is done. -/
theorem ends_foldlM {xs : List β} {f : α → β → Except Fault α} {a : α} (I : List β → α → Prop) (h0 : I [] a)
    (hstep : ∀ done x rest a, xs = done ++ x :: rest → I done a → Ends E (f a x) (I (done ++ [x]))) :
    Ends E (xs.foldlM f a) (I xs) := by
  suffices h : ∀ rest done a, xs = done ++ rest → I done a → Ends E (rest.foldlM f a) (I xs) from h xs [] a rfl h0
  intro rest
  induction rest with
  | nil =>
    intro done a hxs hI
    rw [List.append_nil] at hxs
    rw [hxs]
    exact hI
  | cons x rest ih =>
    intro done a hxs hI
    rw [List.foldlM_cons]
    exact (hstep done x rest a hxs hI).bind fun b hb => ih (done ++ [x]) b (by rw [hxs]; simp) hb

end Rules

/-! ## Loops that never fault -/

section Loops

variable {xs : List α}

theorem mapM_ok {f : α → Except Fault β} {g : α → β} (h : ∀ x ∈ xs, f x = .ok (g x)) :
    xs.mapM f = .ok (xs.map g) := by
  induction xs with
  | nil => rfl
  | cons x xs ih =>
    rw [List.mapM_cons, h x List.mem_cons_self, ih fun y hy => h y (List.mem_cons_of_mem _ hy)]
    rfl

theorem selectM_ok {p : α → Except Fault Bool} {q : α → Bool} (h : ∀ x ∈ xs, p x = .ok (q x)) :
    selectM p xs = .ok (xs.filter q) := by
  induction xs with
  | nil => rfl
  | cons x xs ih =>
    rw [selectM, h x List.mem_cons_self, ih fun y hy => h y (List.mem_cons_of_mem _ hy), List.filter_cons]
    cases q x <;> rfl

theorem filterMapM_ok {f : α → Except Fault (Option β)} {g : α → Option β} (h : ∀ x ∈ xs, f x = .ok (g x)) :
    xs.filterMapM f = .ok (xs.filterMap g) := by
  induction xs with
  | nil => rfl
  | cons x xs ih =>
    rw [List.filterMapM_cons, h x List.mem_cons_self, ih fun y hy => h y (List.mem_cons_of_mem _ hy),
      List.filterMap_cons]
    cases g x <;> rfl

/-- A loop that answers has answered at every step. -/
theorem exists_ok_of_filterMapM {f : α → Except Fault (Option β)} {ys : List β} (h : xs.filterMapM f = .ok ys) :
    ∀ x ∈ xs, ∃ y, f x = .ok y := by
  induction xs generalizing ys with
  | nil => simp
  | cons x xs ih =>
    rw [List.filterMapM_cons] at h
    obtain ⟨y, hy, h⟩ := bind_eq_ok_iff.1 h
    have hrest : ∃ ys, xs.filterMapM f = .ok ys := by
      cases y with
      | none => exact ⟨ys, h⟩
      | some z =>
        obtain ⟨zs, hzs, _⟩ := bind_eq_ok_iff.1 h
        exact ⟨zs, hzs⟩
    obtain ⟨ys, hys⟩ := hrest
    intro x' hx'
    rcases List.mem_cons.1 hx' with rfl | hx'
    · exact ⟨y, hy⟩
    · exact ih hys x' hx'

/-- The answers of a loop are no more than its steps. -/
theorem length_le_of_filterMapM {f : α → Except Fault (Option β)} {ys : List β} (h : xs.filterMapM f = .ok ys) :
    ys.length ≤ xs.length := by
  induction xs generalizing ys with
  | nil =>
    cases h
    exact Nat.le_refl _
  | cons x xs ih =>
    rw [List.filterMapM_cons] at h
    obtain ⟨_ | y, -, h⟩ := bind_eq_ok_iff.1 h
    · exact Nat.le_succ_of_le (ih h)
    · obtain ⟨zs, hzs, hys⟩ := bind_eq_ok_iff.1 h
      cases hys
      exact Nat.succ_le_succ (ih hzs)

theorem anyM_ok {p : α → Except Fault Bool} {q : α → Bool} (h : ∀ x ∈ xs, p x = .ok (q x)) :
    xs.anyM p = .ok (xs.any q) := by
  induction xs with
  | nil => rfl
  | cons x xs ih =>
    rw [List.anyM_cons, h x List.mem_cons_self, ih fun y hy => h y (List.mem_cons_of_mem _ hy), List.any_cons]
    cases q x <;> rfl

theorem allM_ok {p : α → Except Fault Bool} {q : α → Bool} (h : ∀ x ∈ xs, p x = .ok (q x)) :
    xs.allM p = .ok (xs.all q) := by
  induction xs with
  | nil => rfl
  | cons x xs ih =>
    rw [List.allM_cons, h x List.mem_cons_self, ih fun y hy => h y (List.mem_cons_of_mem _ hy), List.all_cons]
    cases q x <;> rfl

end Loops

/-! ## Operations on a state -/

namespace Update

variable {s : σ}

@[simp]
theorem run?_pure (a : α) : (pure a : Update σ α).run? s = .ok (a, s) := rfl

@[simp]
theorem run?_get : (get : Update σ σ).run? s = .ok (s, s) := rfl

@[simp]
theorem run?_set (t : σ) : (set t : Update σ Unit).run? s = .ok ((), t) := rfl

@[simp]
theorem run?_modify (f : σ → σ) : (modify f : Update σ Unit).run? s = .ok ((), f s) := rfl

/-- Where a sequence of operations ends, also when it faults. -/
theorem run_bind (m : Update σ α) (f : α → Update σ β) : (m >>= f).run.run s = (match m.run.run s with
    | (.ok a, t) => (f a).run.run t
    | (.error e, t) => (.error e, t)) := by
  show ExceptT.bindCont (fun a => f a) (m.run.run s).1 (m.run.run s).2 = _
  rcases m.run.run s with ⟨_ | _, _⟩ <;> rfl

/-- An answer is one of the full run. -/
theorem run?_eq_ok_iff {m : Update σ α} {a : α} {t : σ} : m.run? s = .ok (a, t) ↔ m.run.run s = (.ok a, t) := by
  unfold run?
  rcases m.run.run s with ⟨_ | _, _⟩
  · exact ⟨nofun, nofun⟩
  · constructor <;> rintro ⟨⟩ <;> rfl

theorem run_pure (a : α) : (pure a : Update σ α).run.run s = (.ok a, s) := rfl

theorem run_get : (get : Update σ σ).run.run s = (.ok s, s) := rfl

theorem run_set (t : σ) : (set t : Update σ Unit).run.run s = (.ok (), t) := rfl

theorem run_modify (f : σ → σ) : (modify f : Update σ Unit).run.run s = (.ok (), f s) := rfl

theorem run_require (p : Prop) [Decidable p] (f : Fault) :
    (require p f : Update σ Unit).run.run s = (if p then .ok () else .error f, s) := by
  unfold require
  split <;> rfl

theorem run_lift (x : Except Fault α) : (liftM x : Update σ α).run.run s = (x, s) := by
  cases x <;> rfl

/-- The rule for sequences of operations. -/
@[simp]
theorem run?_bind (m : Update σ α) (f : α → Update σ β) :
    (m >>= f).run? s = m.run? s >>= fun x => (f x.1).run? x.2 := by
  unfold run?
  rw [run_bind]
  rcases m.run.run s with ⟨_ | _, _⟩ <;> rfl

/-- Where every fault is allowed, a first part of which nothing is known can be left out. -/
theorem ends_bind {m : Update σ α} {f : α → Update σ β} {Q : β × σ → Prop}
    (hf : ∀ a t, Ends (fun _ => True) ((f a).run? t) Q) : Ends (fun _ => True) ((m >>= f).run? s) Q := by
  rw [run?_bind]
  exact ends_any.bind fun r _ => hf r.1 r.2

@[simp]
theorem run?_map (m : Update σ α) (f : α → β) :
    (f <$> m).run? s = m.run? s >>= fun x => .ok (f x.1, x.2) :=
  run?_bind m fun a => pure (f a)

@[simp]
theorem run?_require (p : Prop) [Decidable p] (f : Fault) :
    (require p f : Update σ Unit).run? s = if p then .ok ((), s) else .error f := by
  unfold require
  split <;> rfl

/-- A computation without a state keeps it. -/
@[simp]
theorem run?_lift (x : Except Fault α) :
    (liftM x : Update σ α).run? s = x >>= fun a => .ok (a, s) := by
  cases x <;> rfl

/-- Whether it faults or not, the operation leaves behind a state that is in a relation to the one it found. -/
def Keeps (R : σ → σ → Prop) (m : Update σ α) : Prop := ∀ s, R s (m.run.run s).2

section Keeps

variable {R : σ → σ → Prop}

/-- The rule for changes of the state. -/
theorem Keeps.modify {f : σ → σ} (h : ∀ s, R s (f s)) : (modify f : Update σ Unit).Keeps R := h

/-- The rule for sequences of operations. -/
theorem Keeps.bind [IsTrans σ R] {m : Update σ α} {f : α → Update σ β} (hm : m.Keeps R) (hf : ∀ a, (f a).Keeps R) :
    (m >>= f).Keeps R := by
  intro s
  rw [run_bind]
  have hs := hm s
  generalize m.run.run s = o at hs ⊢
  obtain ⟨_ | a, t⟩ := o
  · exact hs
  · exact IsTrans.trans _ _ _ hs (hf a t)

variable [Std.Refl R]

theorem Keeps.pure (a : α) : (pure a : Update σ α).Keeps R := refl_of R

theorem Keeps.get : (get : Update σ σ).Keeps R := refl_of R

theorem Keeps.lift (x : Except Fault α) : (liftM x : Update σ α).Keeps R := by
  intro s
  rw [run_lift]
  exact refl_of R s

theorem Keeps.require (p : Prop) [Decidable p] (f : Fault) : (require p f : Update σ Unit).Keeps R := by
  intro s
  rw [run_require]
  exact refl_of R s

end Keeps

end Update

end CnfSimp
