import CnfSimp.Proofs.Arena.Append

/-!
# Handing out slots and cells

A reservation moves the counter of its region before it compares with the capacity, the counter wraps around, and a
reservation that fails leaves the moved counter behind. So a failed reservation may hand used places out again.

* `Arena.calls`: a run of reservations, any of which may fail, with the arenas before and behind every call.
* `Arena.Disciplined`: what a run of reservations is expected to keep: the ranges handed out are disjoint, fresh and
  inside their regions, and nothing in use is ever hidden.
* `reservations_disciplined_iff`: a run is disciplined exactly if no call takes its counter around to a place inside
  the region.
* `reservations_undisciplined`: two calls on an arena of four slots that are not.
-/

namespace CnfSimp

/-- The two rows of an arena that are handed out. -/
inductive Region where
  | clauses
  | lits
  deriving DecidableEq

/-- The number at which the counter of a region wraps around. -/
def Region.limit : Region → Nat
  | clauses => 2 ^ 32
  | lits => 2 ^ 64

/-- A reservation of any number of clause slots or of literal cells. -/
inductive Reservation where
  | clauses (n : UInt32)
  | lits (n : UInt64)
  deriving DecidableEq

namespace Reservation

def region : Reservation → Region
  | clauses _ => .clauses
  | lits _ => .lits

def count : Reservation → Nat
  | clauses n => n.toNat
  | lits n => n.toNat

/-- The operation on the arena. -/
def reserve : Reservation → Update Arena Nat
  | clauses n => Arena.reserveClauses n
  | lits n => Arena.reserveLits n

theorem count_lt (q : Reservation) : q.count < q.region.limit := by
  cases q with
  | clauses n => exact n.toNat_lt
  | lits n => exact n.toNat_lt

end Reservation

/-- A reservation in a run: what it finds, asks for, answers and leaves behind. -/
structure Call where
  before : Arena
  request : Reservation
  answer : Except Fault Nat
  after : Arena

/-- The range that a call hands out in a region: its first place and the one behind its last. -/
def Call.range? (k : Region) (c : Call) : Option (Nat × Nat) :=
  match c.answer with
  | .ok start => if c.request.region = k then some (start, start + c.request.count) else none
  | .error _ => none

namespace Arena

/-- How much of a region has been handed out by its counter, which may have run past the region. -/
def counter (a : Arena) : Region → Nat
  | .clauses => a.clauseCount.toNat
  | .lits => a.litCount.toNat

/-- The size of a region. -/
def space (a : Arena) : Region → Nat
  | .clauses => a.capacity
  | .lits => a.litCapacity

/-- How much of a region is in use: `len` or `numLits`. -/
def used (a : Arena) : Region → Nat
  | .clauses => a.len
  | .lits => a.numLits

/-- A reservation on an arena. -/
def call (a : Arena) (q : Reservation) : Call :=
  let (answer, after) := q.reserve.run.run a
  ⟨a, q, answer, after⟩

/-- A run of reservations. Whether they succeed or fail, each starts from what the one before it left. -/
def calls (a : Arena) : List Reservation → List Call
  | [] => []
  | q :: qs => a.call q :: (a.call q).after.calls qs

/-- The ranges that a run hands out in a region, in order. -/
def granted (a : Arena) (k : Region) (qs : List Reservation) : List (Nat × Nat) :=
  (a.calls qs).filterMap (Call.range? k)

/-- What a run of reservations is expected to keep. -/
structure Disciplined (a : Arena) (qs : List Reservation) : Prop where
  /-- No place is handed out twice. -/
  disjoint : ∀ k, (a.granted k qs).Pairwise fun r s => Disjoint (Set.Ico r.1 r.2) (Set.Ico s.1 s.2)
  /-- Every range lies inside its region. -/
  inside : ∀ k, ∀ r ∈ a.granted k qs, r.2 ≤ a.space k
  /-- No range starts before the counter that the run found; behind the end of the region only empty ones are left. -/
  fresh : ∀ k, ∀ r ∈ a.granted k qs, min (a.counter k) (a.space k) ≤ r.1
  /-- No call, failed or not, takes places out of use. -/
  grows : ∀ c ∈ a.calls qs, c.before.len ≤ c.after.len ∧ c.before.numLits ≤ c.after.numLits

variable {a : Arena} {q : Reservation} {qs : List Reservation} {k : Region}

theorem used_eq (a : Arena) (k : Region) : a.used k = min (a.counter k) (a.space k) := by
  cases k <;> rfl

end Arena

/-- The sizes of an allocated arena fit their words, and no call changes them (`Arena.space_call`). -/
theorem Arena.space_lt_of_allocate {a : Arena} {clauseCap : UInt32} {litCap : UInt64}
    (h : allocate clauseCap litCap = .ok a) (k : Region) : a.space k < k.limit := by
  obtain ⟨-, -, -, rfl⟩ := allocate_eq_ok_iff.1 h
  cases k with
  | clauses => simpa [space, capacity, Region.limit] using clauseCap.toNat_lt
  | lits => simpa [space, litCapacity, Region.limit] using litCap.toNat_lt

/-- The call takes its counter around to a place inside the region. -/
def Call.WrapsInside (c : Call) : Prop :=
  let k := c.request.region
  k.limit ≤ c.before.counter k + c.request.count ∧
    c.before.counter k + c.request.count < k.limit + c.before.space k

namespace Arena

variable {a : Arena} {q : Reservation} {qs : List Reservation} {k : Region}

/-! ## One call -/

/-- No call makes a region larger or smaller. -/
theorem space_call (a : Arena) (q : Reservation) (k : Region) : (a.call q).after.space k = a.space k := by
  cases q with
  | clauses n => rw [call, Reservation.reserve, run_reserveClauses]; cases k <;> rfl
  | lits n => rw [call, Reservation.reserve, run_reserveLits]; cases k <;> rfl

/-- The counter of the region asked for moves, whether the call succeeds or not. -/
theorem counter_call (a : Arena) (q : Reservation) (k : Region) : (a.call q).after.counter k =
    if q.region = k then (a.counter k + q.count) % k.limit else a.counter k := by
  cases q with
  | clauses n =>
    rw [call, Reservation.reserve, run_reserveClauses]
    cases k with
    | clauses => exact UInt32.toNat_add _ _
    | lits => rfl
  | lits n =>
    rw [call, Reservation.reserve, run_reserveLits]
    cases k with
    | clauses => rfl
    | lits => exact UInt64.toNat_add _ _

/-- A call answers the counter it finds, exactly if what it asks for from there on lies inside the region. -/
theorem answer_call (h : a.space q.region < q.region.limit) {start : Nat} : (a.call q).answer = .ok start ↔
    start = a.counter q.region ∧ a.counter q.region + q.count ≤ a.space q.region := by
  cases q with
  | clauses n =>
    rw [call, Reservation.reserve, run_reserveClauses]
    show ite (a.counter .clauses + n.toNat ≤ a.space .clauses) _ _ = _ ↔ _ = a.counter .clauses ∧ _ + n.toNat ≤ _
    exact ite_eq_ok_iff
  | lits n =>
    rw [call, Reservation.reserve, run_reserveLits]
    show sum64 (a.counter .lits) n.toNat >>= (fun stop => ite (stop ≤ a.space .lits) _ _) = _ ↔
      _ = a.counter .lits ∧ _ + n.toNat ≤ _
    by_cases hsum : a.counter .lits + n.toNat < 2 ^ 64
    · rw [sum64_ok hsum]
      exact ite_eq_ok_iff
    · rw [show sum64 (a.counter .lits) n.toNat = .error .overflow from if_neg hsum]
      refine ⟨nofun, fun hs => absurd ?_ hsum⟩
      exact Nat.lt_of_le_of_lt hs.2 h

/-- What a call hands out starts at its counter. -/
theorem range?_call (h : a.space k < k.limit) {r : Nat × Nat} : (a.call q).range? k = some r ↔
    q.region = k ∧ r = (a.counter k, a.counter k + q.count) ∧ r.2 ≤ a.space k := by
  have hq : (a.call q).request = q := rfl
  unfold Call.range?
  rw [hq]
  constructor
  · intro hr
    split at hr
    · next start hstart =>
      split at hr
      · next hk =>
        subst hk
        obtain ⟨rfl, hle⟩ := (answer_call h).1 hstart
        cases hr
        exact ⟨rfl, rfl, hle⟩
      · cases hr
    · cases hr
  · rintro ⟨rfl, rfl, hle⟩
    rw [(answer_call h).2 ⟨rfl, hle⟩]
    exact if_pos rfl

theorem counter_lt (a : Arena) (k : Region) : a.counter k < k.limit := by
  cases k with
  | clauses => exact a.clauseCount.toNat_lt
  | lits => exact a.litCount.toNat_lt

/-- The moved counter: a reservation takes it around at most once. -/
theorem counter_call_self (a : Arena) (q : Reservation) : (a.call q).after.counter q.region =
    if a.counter q.region + q.count < q.region.limit then a.counter q.region + q.count
    else a.counter q.region + q.count - q.region.limit := by
  have hcounter := a.counter_lt q.region
  have hcount := q.count_lt
  rw [counter_call, if_pos rfl]
  split
  · next hlt => exact Nat.mod_eq_of_lt hlt
  · next hge =>
    rw [Nat.mod_eq_sub_mod (Nat.le_of_not_lt hge)]
    exact Nat.mod_eq_of_lt (by omega)

/-- A call leaves in use what was, exactly unless it takes its counter around to a place inside the region. -/
theorem used_le_call_iff (a : Arena) (q : Reservation) :
    (∀ k, a.used k ≤ (a.call q).after.used k) ↔ ¬(a.call q).WrapsInside := by
  have hcount := q.count_lt
  have hmoved := counter_call_self a q
  constructor
  · rintro hle ⟨hge, hlt⟩
    have hq := hle q.region
    change q.region.limit ≤ a.counter q.region + q.count at hge
    change a.counter q.region + q.count < q.region.limit + a.space q.region at hlt
    rw [if_neg (Nat.not_lt.2 hge)] at hmoved
    rw [used_eq, used_eq, space_call, hmoved] at hq
    omega
  · intro hw k
    rw [used_eq, used_eq, space_call]
    by_cases hk : q.region = k
    · subst hk
      rw [hmoved]
      split
      · omega
      · next hge =>
        have hout : q.region.limit + a.space q.region ≤ a.counter q.region + q.count := by
          by_contra hin
          exact hw ⟨Nat.le_of_not_lt hge, Nat.lt_of_not_le hin⟩
        omega
    · rw [counter_call, if_neg hk]

/-! ## A run -/

theorem used_le_call (hw : ¬(a.call q).WrapsInside) (k : Region) : a.used k ≤ (a.call q).after.used k :=
  (used_le_call_iff a q).2 hw k

theorem granted_cons (a : Arena) (k : Region) (q : Reservation) (qs : List Reservation) :
    a.granted k (q :: qs) = ((a.call q).range? k).toList ++ (a.call q).after.granted k qs := by
  unfold granted
  rw [calls, List.filterMap_cons]
  cases (a.call q).range? k <;> rfl

/-- The ranges of a run start at what is in use when it starts. -/
theorem mem_granted (h : a.space k < k.limit) (hw : ∀ c ∈ a.calls qs, ¬c.WrapsInside) {r : Nat × Nat}
    (hr : r ∈ a.granted k qs) : a.used k ≤ r.1 ∧ r.2 ≤ a.space k := by
  induction qs generalizing a with
  | nil => cases hr
  | cons q qs ih =>
    rw [granted_cons, List.mem_append, Option.mem_toList] at hr
    rcases hr with hr | hr
    · obtain ⟨_, rfl, hle⟩ := (range?_call h).1 hr
      rw [used_eq]
      exact ⟨Nat.min_le_left _ _, hle⟩
    · have hspace := a.space_call q k
      obtain ⟨hused, hle⟩ := ih (by rwa [hspace]) (fun c hc => hw c (List.mem_cons_of_mem _ hc)) hr
      exact ⟨Nat.le_trans (used_le_call (hw _ List.mem_cons_self) k) hused, hspace ▸ hle⟩

/-- The ranges of a run lie one behind the other. -/
theorem pairwise_granted (h : a.space k < k.limit) (hw : ∀ c ∈ a.calls qs, ¬c.WrapsInside) :
    (a.granted k qs).Pairwise fun r s => r.2 ≤ s.1 := by
  induction qs generalizing a with
  | nil => exact List.Pairwise.nil
  | cons q qs ih =>
    have hspace := a.space_call q k
    have hrest : ∀ c ∈ (a.call q).after.calls qs, ¬c.WrapsInside := fun c hc => hw c (List.mem_cons_of_mem _ hc)
    have htail := ih (by rwa [hspace]) hrest
    rw [granted_cons]
    cases hr : (a.call q).range? k with
    | none => exact htail
    | some r =>
      refine List.pairwise_cons.2 ⟨fun s hs => ?_, htail⟩
      obtain ⟨rfl, rfl, hle⟩ := (range?_call h).1 hr
      obtain ⟨hused, _⟩ := mem_granted (by rwa [hspace]) hrest hs
      rw [used_eq, hspace, counter_call_self, if_pos (Nat.lt_of_le_of_lt hle h)] at hused
      omega

theorem eq_call_of_mem {c : Call} (hc : c ∈ a.calls qs) : c = c.before.call c.request := by
  induction qs generalizing a with
  | nil => cases hc
  | cons q qs ih =>
    rcases List.mem_cons.1 hc with rfl | hc
    · rfl
    · exact ih hc

/-- A run takes nothing out of use, exactly if none of its calls wraps around to a place inside the region. -/
theorem grows_iff (a : Arena) (qs : List Reservation) :
    (∀ c ∈ a.calls qs, c.before.len ≤ c.after.len ∧ c.before.numLits ≤ c.after.numLits) ↔
      ∀ c ∈ a.calls qs, ¬c.WrapsInside := by
  refine forall₂_congr fun c hc => ?_
  have hstep := used_le_call_iff c.before c.request
  rw [← eq_call_of_mem hc] at hstep
  rw [← hstep]
  constructor
  · rintro ⟨hlen, hlits⟩ k
    cases k with
    | clauses => exact hlen
    | lits => exact hlits
  · intro hused
    exact ⟨hused .clauses, hused .lits⟩

end Arena

/-- A run of reservations, on any arena whose sizes fit their words, keeps all that is expected of it exactly if no
call takes its counter around to a place inside the region. -/
theorem reservations_disciplined_iff {a : Arena} (h : ∀ k, a.space k < k.limit) (qs : List Reservation) :
    a.Disciplined qs ↔ ∀ c ∈ a.calls qs, ¬c.WrapsInside := by
  constructor
  · intro hd
    exact (Arena.grows_iff a qs).1 hd.grows
  · intro hw
    refine ⟨fun k => ?_, fun k r hr => ?_, fun k r hr => ?_, (Arena.grows_iff a qs).2 hw⟩
    · refine (Arena.pairwise_granted (h k) hw).imp fun {r s} hrs => ?_
      exact Set.Ico_disjoint_Ico.2 ((min_le_left _ _).trans (hrs.trans (le_max_right _ _)))
    · exact (Arena.mem_granted (h k) hw hr).2
    · exact Arena.used_eq a k ▸ (Arena.mem_granted (h k) hw hr).1

instance (c : Call) : Decidable c.WrapsInside := inferInstanceAs (Decidable (_ ∧ _))

/-- Two slots, too many cells, the one slot left and two cells. -/
theorem reservations_disciplined_iff_five_places : ∃ a, Arena.allocate 3 4 = .ok a ∧
    (∀ k, a.space k < k.limit) ∧
    a.Disciplined [.clauses 2, .lits 3, .clauses 1, .lits 5] ∧
    a.granted .clauses [.clauses 2, .lits 3, .clauses 1, .lits 5] = [(0, 2), (2, 3)] := by
  have hsize := Arena.space_lt_of_allocate (show Arena.allocate 3 4 = .ok _ from rfl)
  exact ⟨_, rfl, hsize, (reservations_disciplined_iff hsize _).2 (by decide), by decide⟩

/-- Four slots, all handed out. The next reservation fails and takes the counter around to zero: no slot counts as in
use any more, and the reservation after that is given the same four slots again. -/
theorem reservations_undisciplined : ∃ a, Arena.allocate 4 4 = .ok a ∧
    ¬a.Disciplined [.clauses 4, .clauses 4294967292] ∧
    (a.calls [.clauses 4, .clauses 4294967292]).map (fun c => (c.before.len, c.after.len)) = [(0, 4), (4, 0)] ∧
    a.granted .clauses [.clauses 4, .clauses 4294967292, .clauses 4] = [(0, 4), (0, 4)] := by
  refine ⟨_, rfl, fun hd => ?_, by decide, by decide⟩
  exact absurd hd.grows (by decide)

end CnfSimp
