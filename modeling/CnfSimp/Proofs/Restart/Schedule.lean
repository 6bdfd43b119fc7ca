import CnfSimp.Proofs.Restart.Luby

/-!
# The schedule of Luby restarts

A trigger is updated and asked in any order. Only the updates count that find no restart pending.

* `Schedule`: what is to come of the calls, by their count alone. A restart is due as soon as the count has reached one
  of the numbers `restartAt` (`due_iff`).
* `LubyRestart.Follows`: how a trigger stands to the schedule after a number of terms. Every call keeps to it
  (`LubyRestart.Follows.take`, `LubyRestart.Follows.update`), unless the distance to the next restart does not fit 63
  bits.
* `luby_schedule`: a trigger without a limit answers by the schedule, whatever the calls.
-/

namespace CnfSimp

/-- A call of a trigger. -/
inductive LubyCall where
  | update
  | take
  deriving DecidableEq

namespace LubyRestart

/-- One call, behind the answers to those before. -/
def call : List Bool × LubyRestart → LubyCall → Except Fault (List Bool × LubyRestart)
  | (answers, r), .update => do
    let ((), r) ← update.run? r
    return (answers, r)
  | (answers, r), .take => return (answers ++ [r.take.1], r.take.2)

/-- The answers to calls in sequence, and the trigger behind them. -/
def calls (r : LubyRestart) (cs : List LubyCall) : Except Fault (List Bool × LubyRestart) := cs.foldlM call ([], r)

end LubyRestart

/-! ## The schedule -/

/-- The count at which restart `k` is due, where the first one is restart 0: the first distance is the factor alone, the
others are the factor times one term of the sequence after another. -/
def restartAt (factor : Int) (k : Nat) : Int := factor * (1 + ∑ i ∈ Finset.range k, (luby (i + 1) : Int))

/-- Whether a restart is due at a count. Restart `k` is so behind more than `k` updates. -/
def Due (factor : Int) (n : Nat) : Prop := ∃ k < n, (n : Int) = restartAt factor k

instance (factor : Int) (n : Nat) : Decidable (Due factor n) := inferInstanceAs (Decidable (∃ k < n, _))

/-- The updates counted, whether a restart is pending, and the answers to the questions whether one is. -/
structure Schedule where
  counted : Nat
  pending : Bool
  answers : List Bool
  deriving DecidableEq

namespace Schedule

/-- Before the first call. -/
def start : Schedule := ⟨0, false, []⟩

/-- An update counts unless a restart is pending. A question is answered by whether one is, and then none is. -/
def call (factor : Int) (x : Schedule) : LubyCall → Schedule
  | .update =>
    if x.pending then x else { x with counted := x.counted + 1, pending := Due factor (x.counted + 1) }
  | .take => { x with pending := false, answers := x.answers ++ [x.pending] }

/-- The schedule behind calls in sequence. -/
def after (factor : Int) (cs : List LubyCall) : Schedule := cs.foldl (call factor) start

end Schedule

section

variable {factor : Int} {k m n : Nat} {x : Schedule} {r : LubyRestart}

theorem restartAt_zero (factor : Int) : restartAt factor 0 = factor := by
  rw [restartAt, Finset.sum_range_zero, add_zero, mul_one]

theorem restartAt_succ (factor : Int) (k : Nat) :
    restartAt factor (k + 1) = restartAt factor k + (luby (k + 1) : Nat) * factor := by
  rw [restartAt, Finset.sum_range_succ, restartAt]
  ring

section Order

variable (hf : 0 < factor)
include hf

theorem restartAt_strictMono : StrictMono (restartAt factor) := by
  refine strictMono_nat_of_lt_succ fun k => ?_
  have hterm : (0 : Int) < (luby (k + 1) : Nat) * factor :=
    mul_pos (Int.natCast_pos.2 (luby_pos (Nat.succ_ne_zero k))) hf
  rw [restartAt_succ]
  omega

theorem lt_restartAt (k : Nat) : (k : Int) < restartAt factor k := by
  induction k with
  | zero =>
    rw [restartAt_zero]
    exact hf
  | succ k ih =>
    have hlt := restartAt_strictMono hf (Nat.lt_add_one k)
    omega

/-- Every restart is due at some count. -/
theorem due_iff (n : Nat) : Due factor n ↔ ∃ k, (n : Int) = restartAt factor k := by
  constructor
  · rintro ⟨k, -, h⟩
    exact ⟨k, h⟩
  · rintro ⟨k, h⟩
    have hlt := lt_restartAt hf k
    exact ⟨k, by omega, h⟩

/-- Between two restarts none is due. -/
theorem not_due (hlow : ∀ k, restartAt factor k ≤ n ↔ k < m) (hhigh : ((n + 1 : Nat) : Int) ≠ restartAt factor m) :
    ¬Due factor (n + 1) := by
  rintro ⟨k, -, hk⟩
  have hreached : k < m + 1 := by
    by_contra hge
    have hlt := restartAt_strictMono hf (show m < k by omega)
    have hnot := mt (hlow m).1 (Nat.lt_irrefl m)
    omega
  rcases Nat.lt_succ_iff_lt_or_eq.1 hreached with hlt | rfl
  · have := (hlow k).2 hlt
    omega
  · exact hhigh hk

/-- The restarts that have been due when the last one is. -/
theorem restartAt_le_succ_iff (hnext : ((n + 1 : Nat) : Int) = restartAt factor m) (k : Nat) :
    restartAt factor k ≤ (n + 1 : Nat) ↔ k < m + 1 := by
  rw [hnext, (restartAt_strictMono hf).le_iff_le, Nat.lt_succ_iff]

end Order

/-- An update that counts. -/
theorem Schedule.call_update (hp : x.pending = false) : x.call factor .update =
    { x with counted := x.counted + 1, pending := Due factor (x.counted + 1) } :=
  if_neg (by rw [hp]; exact Bool.false_ne_true)

namespace LubyRestart

/-! ## Single calls -/

/-- The sequence goes on whatever the countdown. -/
theorem advance_with (r : LubyRestart) (bound : Int) (pending : Bool) :
    advance { r with bound, pending } = { r.advance with bound, pending } := by
  unfold advance
  split <;> rfl

/-- Without a limit it only goes on. -/
theorem next_of_limit_zero (hl : r.limit = 0) (bound : Int) (pending : Bool) :
    next { r with bound, pending } = (r.v, { r.advance with bound, pending }) := by
  have hnot : (advance { r with bound, pending }).limitReached = false := by
    rw [advance_eq]
    simp [limitReached, hl]
  unfold next
  simp only [hnot, Bool.false_eq_true, if_false]
  rw [advance_with]

theorem run?_update_of_pending (h : r.pending) : update.run? r = .ok ((), r) := by
  simp [update, h]

/-- An update that brings no restart. -/
theorem run?_update_of_ne (hf : r.factor ≠ 0) (hp : r.pending = false) (hb : r.bound ≠ 1) :
    update.run? r = .ok ((), { r with bound := r.bound - 1 }) := by
  have hrest : r.bound - 1 ≠ 0 := by omega
  simp [update, hf, hp, hrest]

/-- An update that brings a restart. -/
theorem run?_update_of_eq (hf : r.factor ≠ 0) (hp : r.pending = false) (hl : r.limit = 0) (hb : r.bound = 1) :
    update.run? r = if r.v * r.factor < 0x8000000000000000 then
        .ok ((), { r.advance with bound := r.v * r.factor, pending := true })
      else .error .overflow := by
  have hnext := next_of_limit_zero hl 0 false
  rw [hl] at hnext
  have hfactor : r.advance.factor = r.factor := by rw [advance_eq]
  by_cases hfits : r.v * r.factor < 0x8000000000000000 <;>
    simp [update, hf, hp, hl, hb, hnext, hfactor, hfits]

/-! ## The trigger and its schedule -/

/-- How a trigger stands to the schedule after `m` terms: what is left to count leads to the next restart, exactly the
restarts before that one have been due, and they have been answered but for the one pending. The distances fit. -/
structure Follows (factor : Int) (x : Schedule) (m : Nat) (r : LubyRestart) : Prop where
  state : r = { (LubyRestart.start factor 0).path m with bound := restartAt factor m - x.counted, pending := x.pending }
  reached : ∀ k, restartAt factor k ≤ x.counted ↔ k < m
  answered : x.answers.count true + x.pending.toNat = m
  fits : ∀ k < m, luby (k + 1) * factor < 2 ^ 63

/-- At the start nothing has been counted. -/
theorem Follows.start (hf : 0 < factor) : Follows factor .start 0 (.start factor 0) where
  state := by
    have hfirst : restartAt factor 0 - (Schedule.start.counted : Int) = factor := by
      rw [restartAt_zero]
      exact Int.sub_zero factor
    rw [hfirst]
    rfl
  reached k := by
    have hlt := lt_restartAt hf k
    refine ⟨fun hk => ?_, fun hk => absurd hk (Nat.not_lt_zero k)⟩
    have hzero : (Schedule.start.counted : Int) = 0 := rfl
    omega
  answered := rfl
  fits k hk := absurd hk (Nat.not_lt_zero k)

namespace Follows

variable (h : Follows factor x m r)
include h

theorem pending_eq : r.pending = x.pending := by
  rw [h.state]

theorem factor_eq : r.factor = factor := by
  rw [h.state, path_eq]
  rfl

theorem limit_eq : r.limit = 0 := by
  rw [h.state, path_eq]
  rfl

theorem v_eq : r.v = luby (m + 1) := by
  rw [h.state]
  exact v_path rfl rfl m

theorem bound_eq : r.bound = restartAt factor m - x.counted := by
  rw [h.state]

theorem words_lt (hm : m < 2 ^ 63) : r.u < 2 ^ 63 ∧ r.v < 2 ^ 63 := by
  rw [h.state]
  exact path_lt rfl rfl hm

/-- A question is answered as the schedule has it. -/
theorem take : r.take.1 = x.pending ∧ Follows factor (x.call factor .take) m r.take.2 where
  left := h.pending_eq
  right :=
    { state := by
        rw [h.state]
        rfl
      reached := h.reached
      answered := by
        rw [← h.answered]
        show (x.answers ++ [x.pending]).count true + 0 = _
        rw [List.count_append]
        cases x.pending <;> rfl
      fits := h.fits }

/-- An update that brings no restart. -/
theorem wait (hf : 0 < factor) (hp : x.pending = false) (hnot : ((x.counted + 1 : Nat) : Int) ≠ restartAt factor m) :
    Follows factor (x.call factor .update) m { r with bound := r.bound - 1 } := by
  have hdue : ¬Due factor (x.counted + 1) := not_due hf h.reached hnot
  have hreached := h.reached
  have hanswered := h.answered
  have hahead := mt (h.reached m).1 (Nat.lt_irrefl m)
  rw [Schedule.call_update hp, decide_eq_false hdue]
  rw [hp] at hanswered
  refine ⟨?_, fun k => ?_, hanswered, h.fits⟩
  · rw [h.state, hp]
    congr 1
    show restartAt factor m - x.counted - 1 = restartAt factor m - (x.counted + 1 : Nat)
    omega
  · show restartAt factor k ≤ (x.counted + 1 : Nat) ↔ k < m
    refine ⟨fun hk => ?_, fun hk => ?_⟩
    · by_contra hge
      have hle := (restartAt_strictMono hf).monotone (Nat.not_lt.1 hge)
      omega
    · have := (hreached k).2 hk
      omega

/-- An update that brings a restart. -/
theorem fire (hf : 0 < factor) (hp : x.pending = false) (hnext : ((x.counted + 1 : Nat) : Int) = restartAt factor m)
    (hfits : luby (m + 1) * factor < 2 ^ 63) :
    Follows factor (x.call factor .update) (m + 1)
      { r.advance with bound := luby (m + 1) * factor, pending := true } := by
  have hdue : Due factor (x.counted + 1) := (due_iff hf _).2 ⟨m, hnext⟩
  have hanswered := h.answered
  rw [Schedule.call_update hp, decide_eq_true hdue]
  rw [hp] at hanswered
  refine ⟨?_, restartAt_le_succ_iff hf hnext, ?_, fun k hk => ?_⟩
  · have hbound : restartAt factor (m + 1) - (x.counted + 1 : Nat) = luby (m + 1) * factor := by
      rw [hnext, restartAt_succ]
      omega
    rw [hbound, path_succ, h.state, advance_with]
  · show x.answers.count true + 1 = m + 1
    rw [← hanswered]
    rfl
  · rcases Nat.lt_succ_iff_lt_or_eq.1 hk with hlt | rfl
    · exact h.fits k hlt
    · exact hfits

/-- An update counts as the schedule has it, unless it brings a restart behind which the next one is too far away. -/
theorem update {E : Fault → Prop} (hf : 0 < factor) (hE : restartAt factor m ≤ (x.call factor .update).counted →
    2 ^ 63 ≤ luby (m + 1) * factor → E .overflow) :
    Ends E (update.run? r) fun p => ∃ m', Follows factor (x.call factor .update) m' p.2 := by
  have hfactor : r.factor ≠ 0 := h.factor_eq ▸ hf.ne'
  have hbound := h.bound_eq
  cases hp : x.pending with
  | true =>
    have hidle : x.call factor .update = x := if_pos hp
    rw [run?_update_of_pending (h.pending_eq.trans hp), hidle]
    exact ⟨m, h⟩
  | false =>
    have hrest := h.pending_eq.trans hp
    by_cases hnext : ((x.counted + 1 : Nat) : Int) = restartAt factor m
    · rw [run?_update_of_eq hfactor hrest h.limit_eq (by omega), h.v_eq, h.factor_eq]
      split
      · next hfits => exact ⟨m + 1, h.fire hf hp hnext hfits⟩
      · next hlarge =>
        rw [Schedule.call_update hp] at hE
        exact hE (Int.le_of_eq hnext.symm) (Int.not_lt.1 hlarge)
    · rw [run?_update_of_ne hfactor hrest (by omega)]
      exact ⟨m, h.wait hf hp hnext⟩

end Follows

end LubyRestart

/-! ## All calls -/

theorem Schedule.counted_le_call (factor : Int) (x : Schedule) (c : LubyCall) :
    x.counted ≤ (x.call factor c).counted := by
  cases c with
  | update =>
    cases hp : x.pending with
    | true => exact Nat.le_of_eq (congrArg counted (if_pos hp : x.call factor .update = x).symm)
    | false => exact call_update hp ▸ Nat.le_succ x.counted
  | take => exact Nat.le_refl x.counted

/-- The count only grows. -/
theorem Schedule.counted_after_le (factor : Int) (cs ds : List LubyCall) :
    (after factor cs).counted ≤ (after factor (cs ++ ds)).counted := by
  rw [after, after, List.foldl_append]
  induction ds using List.reverseRecOn with
  | nil => exact Nat.le_refl _
  | append_singleton ds d ih =>
    rw [List.foldl_append]
    exact Nat.le_trans ih (counted_le_call factor _ d)

theorem Schedule.after_snoc (factor : Int) (cs : List LubyCall) (c : LubyCall) :
    after factor (cs ++ [c]) = (after factor cs).call factor c :=
  List.foldl_append

/-- An update answers nothing. -/
theorem Schedule.answers_call_update (factor : Int) (x : Schedule) : (x.call factor .update).answers = x.answers := by
  cases hp : x.pending with
  | true => exact congrArg answers (if_pos hp : x.call factor .update = x)
  | false => rw [call_update hp]

/-- Behind some calls the answers to them are those of the schedule, and the trigger follows it. -/
structure LubyRestart.OnSchedule (factor : Int) (cs : List LubyCall) (p : List Bool × LubyRestart) : Prop where
  answers : p.1 = (Schedule.after factor cs).answers
  follows : ∃ m, Follows factor (Schedule.after factor cs) m p.2

open LubyRestart in
/-- A trigger stays on its schedule, unless one of the distances it comes to does not fit. -/
theorem LubyRestart.calls_ends (hf : 0 < factor) (cs : List LubyCall) :
    Ends (fun f => f = .overflow ∧ ∃ k, restartAt factor k ≤ (Schedule.after factor cs).counted ∧
      2 ^ 63 ≤ luby (k + 1) * factor) ((LubyRestart.start factor 0).calls cs) (OnSchedule factor cs) := by
  refine ends_foldlM (OnSchedule factor) ⟨rfl, 0, Follows.start hf⟩ ?_
  rintro done c rest ⟨answers, s⟩ rfl ⟨rfl, m, h⟩
  have hsnoc := Schedule.after_snoc factor done c
  cases c with
  | update =>
    have hcount := Schedule.counted_after_le factor (done ++ [.update]) rest
    rw [List.append_assoc, List.singleton_append, hsnoc] at hcount
    refine Ends.bind (h.update hf fun hdue hlarge => ⟨rfl, m, by omega, hlarge⟩) ?_
    rintro ⟨_, s'⟩ hs'
    refine ⟨?_, hsnoc ▸ hs'⟩
    rw [hsnoc, Schedule.answers_call_update]
  | take =>
    obtain ⟨hanswer, hnext⟩ := h.take
    refine ⟨?_, m, hsnoc ▸ hnext⟩
    rw [hsnoc, hanswer]
    rfl

end

open LubyRestart in
/-- A trigger without a limit keeps to the schedule, whatever the calls. The schedule counts the updates that find no
restart pending, and a restart is due when the count reaches the factor times 1 plus a first part of the sequence. A
pending restart is the answer to one question, and updates in between change nothing. The trigger faults exactly when it
comes to a distance of `2 ^ 63` or more. The other numbers that it keeps fit 63 bits for the first `2 ^ 63` restarts. -/
theorem luby_schedule {factor : Int} (hf : 0 < factor) :
    (∀ n, Due factor n ↔ ∃ k, (n : Int) = restartAt factor k) ∧
    ∃ r, init factor 0 = .ok r ∧ ∀ cs, Ends
      (fun f => f = .overflow ∧ ∃ k, restartAt factor k ≤ (Schedule.after factor cs).counted ∧
        2 ^ 63 ≤ luby (k + 1) * factor)
      (r.calls cs)
      fun (answers, s) =>
        answers = (Schedule.after factor cs).answers ∧ s.pending = (Schedule.after factor cs).pending ∧
        (s.pending → update.run? s = .ok ((), s)) ∧
        ∃ m, (∀ k, restartAt factor k ≤ (Schedule.after factor cs).counted ↔ k < m) ∧
          answers.count true + s.pending.toNat = m ∧
          (∀ k < m, luby (k + 1) * factor < 2 ^ 63) ∧
          (m < 2 ^ 63 → s.u < 2 ^ 63 ∧ s.v < 2 ^ 63) := by
  refine ⟨due_iff hf, start factor 0, if_pos hf, fun cs => ?_⟩
  refine (calls_ends hf cs).imp ?_
  rintro ⟨answers, s⟩ ⟨rfl, m, h⟩
  have hpending : s.pending = (Schedule.after factor cs).pending := h.pending_eq
  refine ⟨rfl, hpending, run?_update_of_pending, m, h.reached, ?_, h.fits, h.words_lt⟩
  rw [← h.answered, hpending]

open LubyRestart in
/-- With the factor 2 a restart is due at counts 2 and 4. The update between the first one and its answer does not
count. -/
theorem luby_schedule_factor_two :
    (start 2 0).calls [.update, .update, .update, .take, .take, .update, .update, .take] =
      .ok ([true, false, true], ⟨2, 2, 0, 2, 2, false⟩) ∧
    (Schedule.after 2 [.update, .update, .update, .take, .take, .update, .update, .take]).answers =
      [true, false, true] := by
  have hfactor : (0 : Int) < 2 := by decide
  obtain ⟨-, r, hinit, h⟩ := luby_schedule hfactor
  obtain rfl : start 2 0 = r := Except.ok.inj hinit
  have hcalls : (start 2 0).calls [.update, .update, .update, .take, .take, .update, .update, .take] =
      .ok ([true, false, true], ⟨2, 2, 0, 2, 2, false⟩) := by decide
  exact ⟨hcalls, ((h _).of_ok hcalls).1.symm⟩

end CnfSimp
