import CnfSimp.Arena.Compact
import CnfSimp.Proofs.Arena.Append

/-!
# Compacting arenas

* `Arena.placeAll`: clauses of an arena placed in the first slots of another one, one after another without gaps. Both
  ways to compact are that: `Arena.takeLive_ends` for copying to another arena, and `Arena.packFrom_ok` for moving in
  place, where `Arena.Pending` tells why no literal is lost on the way.
* `Arena.Stacks`: what the first slots and cells hold then.
* `Arena.compactFrom_eq`, `Arena.shrink_eq`: the arenas that both lead to, for any arena whose live clauses can be read
  and have room.
* `Arena.Compacted`: an arena that holds exactly the given clauses and is well-formed. Compaction gives one
  (`Arena.compactFrom_ends`, `Arena.shrink_ok`).
-/

namespace CnfSimp

/-- The number of literals in a list of clauses. -/
def volume (cs : List (List Lit)) : Nat := (cs.map List.length).sum

section Volume

variable {cs ds : List (List Lit)} {c : List Lit} {j k : Nat}

@[simp]
theorem volume_nil : volume [] = 0 := rfl

@[simp]
theorem volume_cons : volume (c :: cs) = c.length + volume cs := by simp [volume]

@[simp]
theorem volume_append : volume (cs ++ ds) = volume cs + volume ds := by simp [volume]

/-- Clauses of a bounded size. -/
theorem volume_le_mul {m : Nat} (h : ∀ c ∈ cs, c.length ≤ m) : volume cs ≤ cs.length * m := by
  have hle := List.sum_le_card_nsmul (cs.map List.length) m (List.forall_mem_map.2 h)
  rwa [List.length_map] at hle

theorem volume_take_succ (h : cs[k]? = some c) : volume (cs.take (k + 1)) = volume (cs.take k) + c.length := by
  rw [List.take_add_one, h]
  simp

theorem volume_take_le (h : j ≤ k) : volume (cs.take j) ≤ volume (cs.take k) := by
  have hk := congrArg volume (List.take_append_drop j (cs.take k))
  rw [volume_append, List.take_take, Nat.min_eq_left h] at hk
  omega

theorem volume_take_add_le (h : cs[k]? = some c) : volume (cs.take k) + c.length ≤ volume cs := by
  rw [← volume_take_succ h]
  have hle : volume (cs.take (k + 1)) ≤ volume (cs.take (max (k + 1) cs.length)) := volume_take_le (Nat.le_max_left _ _)
  rwa [List.take_of_length_le (Nat.le_max_right _ _)] at hle

/-- The clauses behind one another, taken apart again. -/
theorem take_drop_flatten (h : cs[k]? = some c) : (cs.flatten.drop (volume (cs.take k))).take c.length = c := by
  induction cs generalizing k with
  | nil => simp at h
  | cons d cs ih =>
    cases k with
    | zero =>
      rw [List.getElem?_cons_zero, Option.some.injEq] at h
      subst h
      simp
    | succ k =>
      rw [List.getElem?_cons_succ] at h
      rw [List.flatten_cons, List.take_succ_cons, volume_cons, List.drop_length_add_append]
      exact ih h

end Volume

/-- Copying the literals of a live clause of another arena. -/
theorem Clause.run?_copyFrom {d : Clause} {h : Header} {cells : Array Lit} (hlive : h.live)
    (hstatus : ∃ s, h.status = .ok s) (hin : h.start.toNat + h.size.toNat ≤ cells.size) (h64 : cells.size < 2 ^ 64)
    (hroom : d.start + h.size.toNat ≤ d.cells.size) (hd : d.cells.size < 2 ^ 64) :
    (copyFrom h (some cells)).run? d =
      .ok ((), ⟨{ d.header with size := h.size, sig := h.sig, code := h.code, molten := false },
        overwrite d.cells d.start (slice cells h.start.toNat h.size.toNat)⟩) := by
  obtain ⟨s, hs⟩ := hstatus
  have hdel : h.isDeleted = .ok false := by
    have hne : s ≠ .deleted := by
      rintro rfl
      simp [Header.live, Header.status_eq_ok_iff.1 hs] at hlive
    simp [Header.isDeleted, hs, hne, pure, Except.pure]
  have hlits : (Clause.mk h cells).lits = .ok (slice cells h.start.toNat h.size.toNat) :=
    block_ok hin (Nat.lt_of_le_of_lt hin h64)
  have hlen : (slice cells h.start.toNat h.size.toNat).length = h.size.toNat := length_slice hin
  have hwrite : (writeCells d.start 0 (slice cells h.start.toNat h.size.toNat)).run? d.cells =
      .ok ((), overwrite d.cells (d.start + 0) (slice cells h.start.toNat h.size.toNat)) :=
    run?_writeCells (by omega) (by omega)
  simp [copyFrom, hdel, hlits, setLits, run?_onCells, hwrite]

/-- The header of a clause that has moved to another place: not melted, and otherwise as it was. -/
def Header.moved (h : Header) (pos : Nat) : Header := { h with start := .ofNat pos, molten := false }

theorem Header.live_moved {h : Header} (hlive : h.live) (pos : Nat) : (h.moved pos).live := by
  simpa [live, moved] using (Bool.and_eq_true_iff.1 hlive).1

/-- A live clause that stays where it is keeps its header. -/
theorem Header.moved_self {h : Header} (hlive : h.live) : h.moved h.start.toNat = h := by
  have hmolten : h.molten = false := by simpa using (Bool.and_eq_true_iff.1 hlive).2
  unfold moved
  rw [UInt64.ofNat_toNat, ← hmolten]

/-- Installing a header with a status it has already. -/
theorem Header.install_eq_moved {h : Header} {s : Status} (hs : h.status = .ok s) (pos : Nat) :
    install (.ofNat pos) h.size h.sig s = h.moved pos := by
  rw [install, moved, status_eq_ok_iff.1 hs]

namespace Arena

variable {E : Fault → Prop} {a a₀ src : Arena} {cs : List (List Lit)} {c : List Lit} {h : Header} {is js : List Nat}
  {scratch : Option (List Lit)} {i j k n pos : Nat}

/-! ## Placing clauses -/

/-- The arena with a header in a slot and literals in the cells from a position on. -/
def placed (a : Arena) (n : Nat) (h : Header) (pos : Nat) (c : List Lit) : Arena :=
  { a with headers := a.headers.setIfInBounds n h, cells := overwrite a.cells pos c }

@[simp]
theorem slots_placed (a : Arena) (n : Nat) (h : Header) (pos : Nat) (c : List Lit) :
    (a.placed n h pos c).headers.size = a.headers.size := by simp [placed]

@[simp]
theorem cells_placed (a : Arena) (n : Nat) (h : Header) (pos : Nat) (c : List Lit) :
    (a.placed n h pos c).cells.size = a.cells.size := size_overwrite _ _ _

theorem header_placed (hn : n < a.headers.size) (h : Header) (pos : Nat) (c : List Lit) :
    (a.placed n h pos c).header j = if j = n then h else a.header j := header_withHeader hn h

@[simp]
theorem len_placed (a : Arena) (n : Nat) (h : Header) (pos : Nat) (c : List Lit) :
    (a.placed n h pos c).len = a.len := by
  unfold len capacity
  rw [slots_placed]
  rfl

@[simp]
theorem numLits_placed (a : Arena) (n : Nat) (h : Header) (pos : Nat) (c : List Lit) :
    (a.placed n h pos c).numLits = a.numLits := by
  unfold numLits litCapacity
  rw [cells_placed]
  rfl

/-- The placed literals can be read. -/
theorem text_placed (hn : n < a.headers.size) (hstart : h.start.toNat = pos) (hsize : h.size.toNat = c.length)
    (hpos : pos + c.length ≤ a.cells.size) : (a.placed n h pos c).text n = c := by
  unfold text
  rw [header_placed hn, if_pos rfl, hstart, hsize]
  exact slice_overwrite hpos

/-- The literals before the placed ones stay. -/
theorem text_placed_of_le (hn : n < a.headers.size) (hj : j ≠ n)
    (hle : (a.header j).start.toNat + (a.header j).size.toNat ≤ pos) : (a.placed n h pos c).text j = a.text j := by
  unfold text
  rw [header_placed hn, if_neg hj]
  exact slice_overwrite_of_disjoint fun k _ hk => Or.inl (by omega)

/-- Placing what is there already. -/
theorem placed_self (hn : n < a.headers.size) (hh : a.header n = h) (hc : slice a.cells pos c.length = c) :
    a.placed n h pos c = a := by
  have hheaders : a.headers.setIfInBounds n h = a.headers := by
    rw [← hh]
    exact congrArg Arena.headers (withHeader_self hn)
  have hcells : overwrite a.cells pos c = a.cells := by
    rw [← hc, overwrite_slice]
  unfold placed
  rw [hheaders, hcells]

/-- The arena with clauses of another one in the slots from `n` on and the cells from `pos` on. -/
def placeAll (src : Arena) (n pos : Nat) : List Nat → Arena → Arena
  | [], a => a
  | i :: is, a =>
    placeAll src (n + 1) (pos + (src.text i).length) is (a.placed n ((src.header i).moved pos) pos (src.text i))

/-- The first slots hold the clauses of another arena in the given slots: not melted, one after another without gaps
from the first cell on, and otherwise as they were. -/
structure Stacks (src : Arena) (is : List Nat) (a : Arena) : Prop where
  slots : is.length ≤ a.headers.size
  room : volume (is.map src.text) ≤ a.cells.size
  header : ∀ k i, is[k]? = some i → a.header k = (src.header i).moved (volume ((is.map src.text).take k))
  cells : slice a.cells 0 (volume (is.map src.text)) = (is.map src.text).flatten

theorem stacks_nil (src a : Arena) : Stacks src [] a := ⟨Nat.zero_le _, Nat.zero_le _, by simp, slice_zero _ _⟩

/-- One more clause. -/
theorem Stacks.snoc (hs : Stacks src is a) (hn : is.length < a.headers.size)
    (hpos : volume (is.map src.text) + (src.text i).length ≤ a.cells.size) :
    Stacks src (is ++ [i]) (a.placed is.length ((src.header i).moved (volume (is.map src.text)))
      (volume (is.map src.text)) (src.text i)) := by
  refine ⟨?_, ?_, fun k j hk => ?_, ?_⟩
  · rw [slots_placed, List.length_append]
    exact hn
  · rw [cells_placed]
    simpa using hpos
  · rw [header_placed hn, List.map_append]
    by_cases hlt : k < is.length
    · rw [List.getElem?_append_left hlt] at hk
      rw [if_neg (Nat.ne_of_lt hlt), List.take_append_of_le_length (by rw [List.length_map]; exact Nat.le_of_lt hlt)]
      exact hs.header k j hk
    · have hlast : k = is.length := by
        have := (List.getElem?_eq_some_iff.1 hk).1
        rw [List.length_append, List.length_singleton] at this
        omega
      subst hlast
      rw [List.getElem?_concat_length, Option.some.injEq] at hk
      subst hk
      rw [if_pos rfl, List.take_left' (List.length_map _)]
  · have hfront : slice (overwrite a.cells (volume (is.map src.text)) (src.text i)) 0 (volume (is.map src.text)) =
        (is.map src.text).flatten := by
      rw [slice_overwrite_of_disjoint fun k _ hk => Or.inl (by omega), hs.cells]
    rw [List.map_append, volume_append, List.flatten_append, slice_add (by rw [cells_placed]; omega)]
    refine congr (congrArg _ hfront) ?_
    rw [Nat.zero_add]
    simpa [placed] using slice_overwrite hpos

/-- Placing clauses behind others. -/
theorem Stacks.placeAll (hs : Stacks src is a) (hslots : is.length + js.length ≤ a.headers.size)
    (hroom : volume (is.map src.text) + volume (js.map src.text) ≤ a.cells.size) :
    Stacks src (is ++ js) (placeAll src is.length (volume (is.map src.text)) js a) := by
  induction js generalizing a is with
  | nil => simpa [Arena.placeAll] using hs
  | cons j js ih =>
    rw [List.length_cons] at hslots
    rw [List.map_cons, volume_cons] at hroom
    have hnext := hs.snoc (i := j) (by omega) (by omega)
    have hall := ih hnext (by rw [slots_placed, List.length_append, List.length_singleton]; omega)
      (by rw [cells_placed]; simp; omega)
    simpa [Arena.placeAll] using hall

/-- Placing keeps the rows and the counters. -/
theorem placeAll_same (src : Arena) (n pos : Nat) (is : List Nat) (a : Arena) :
    (placeAll src n pos is a).headers.size = a.headers.size ∧ (placeAll src n pos is a).cells.size = a.cells.size ∧
      (placeAll src n pos is a).clauseCount = a.clauseCount ∧ (placeAll src n pos is a).litCount = a.litCount := by
  induction is generalizing a n pos with
  | nil => exact ⟨rfl, rfl, rfl, rfl⟩
  | cons i is ih =>
    obtain ⟨hslots, hcells, hclauses, hlits⟩ :=
      ih (n + 1) (pos + (src.text i).length) (a.placed n ((src.header i).moved pos) pos (src.text i))
    exact ⟨hslots.trans (slots_placed _ _ _ _ _), hcells.trans (cells_placed _ _ _ _ _), hclauses, hlits⟩

/-- Placing puts no slot in use and none out of it. -/
theorem len_placeAll (src : Arena) (n pos : Nat) (is : List Nat) (a : Arena) :
    (placeAll src n pos is a).len = a.len := by
  obtain ⟨hslots, _, hcount, _⟩ := placeAll_same src n pos is a
  unfold len capacity
  rw [hslots, hcount]

/-- Placing leaves the slots behind alone. -/
theorem header_placeAll_of_le (hn : n + is.length ≤ a.headers.size) (hk : n + is.length ≤ k) :
    (placeAll src n pos is a).header k = a.header k := by
  induction is generalizing a n pos with
  | nil => rfl
  | cons i is ih =>
    rw [List.length_cons] at hn hk
    rw [placeAll, ih (by rw [slots_placed]; omega) (by omega), header_placed (by omega), if_neg (by omega)]

section Text

variable (hs : Stacks src is a) (hsrc : src.Readable) (hal : ∀ i ∈ is, src.alive i) (hcells : a.cells.size < 2 ^ 64)
include hs

include hcells in
theorem Stacks.start (hk : is[k]? = some i) :
    (a.header k).start.toNat = volume ((is.map src.text).take k) := by
  have hget : (is.map src.text)[k]? = some (src.text i) := by rw [List.getElem?_map, hk, Option.map_some]
  have := volume_take_add_le hget
  have := hs.room
  rw [hs.header k i hk]
  exact Nat.mod_eq_of_lt (by omega)

include hsrc hal

theorem Stacks.size (hk : is[k]? = some i) : (a.header k).size.toNat = (src.text i).length := by
  rw [hs.header k i hk, hsrc.length_text (hal i (List.mem_of_getElem? hk))]
  rfl

include hcells in
/-- The literals are those of the clauses. -/
theorem Stacks.text (hk : is[k]? = some i) : a.text k = src.text i := by
  have hget : (is.map src.text)[k]? = some (src.text i) := by rw [List.getElem?_map, hk, Option.map_some]
  have hle := volume_take_add_le hget
  have hroom := hs.room
  rw [Arena.text, hs.start hcells hk, hs.size hsrc hal hk]
  conv_rhs => rw [← take_drop_flatten hget, ← hs.cells]
  apply List.ext_getElem?
  intro j
  rw [getElem?_slice, List.getElem?_take, List.getElem?_drop, getElem?_slice, Nat.zero_add]
  by_cases hj : j < (src.text i).length
  · rw [if_pos hj, if_pos hj, if_pos (by omega)]
  · rw [if_neg hj, if_neg hj]

end Text

/-! ## Compaction into another arena -/

/-- Copying one clause. -/
theorem run?_copy (hsrc : src.Readable) (hal : src.alive i) (hn : n < a.headers.size)
    (hpos : pos + (src.text i).length ≤ a.cells.size) (hcells : a.cells.size < 2 ^ 64) :
    ∃ a₁, (onClause n (Clause.onHeader fun h => { h with start := .ofNat pos })).run? a = .ok ((), a₁) ∧
      (onClause n (Clause.copyFrom (src.header i) (some src.cells))).run? a₁ =
        .ok ((), a.placed n ((src.header i).moved pos) pos (src.text i)) := by
  have hpos64 : (UInt64.ofNat pos).toNat = pos := Nat.mod_eq_of_lt (by omega)
  have hself : (a.withHeader n { a.header n with start := .ofNat pos }).header n =
      { a.header n with start := .ofNat pos } := by
    rw [header_withHeader hn, if_pos rfl]
  have hstart : (clauseAt (a.withHeader n { a.header n with start := .ofNat pos }) n).start = pos := by
    unfold clauseAt Clause.start
    rw [hself]
    exact hpos64
  rw [hsrc.length_text hal] at hpos
  have hroom : (clauseAt (a.withHeader n { a.header n with start := .ofNat pos }) n).start +
      (src.header i).size.toNat ≤ a.cells.size := by rwa [hstart]
  have hcopy := Clause.run?_copyFrom (d := clauseAt (a.withHeader n { a.header n with start := .ofNat pos }) n)
    (alive_iff.1 hal).2 (hsrc.status i (alive_iff.1 hal).1) (hsrc.inside i hal) hsrc.cells_lt hroom hcells
  rw [hstart] at hcopy
  refine ⟨a.withHeader n { a.header n with start := .ofNat pos }, by rw [run?_onClause hn]; rfl, ?_⟩
  rw [run?_onClause (by simpa [withHeader] using hn), hcopy]
  simp only [ok_bind, clauseAt, hself]
  simp [placed, withHeader, text, Header.moved]

/-- Copying the live ones of the given clauses places them, if there is room. -/
theorem takeLive_ends (hsrc : src.Readable) (his : ∀ i ∈ is, i < src.len) (hcells : a.cells.size < 2 ^ 64)
    (hn : n ≤ a.headers.size) (hpos : pos ≤ a.cells.size)
    (hroom : (∀ f, E f) ∨ n + (is.filter src.alive).length ≤ a.headers.size ∧
      pos + volume ((is.filter src.alive).map src.text) ≤ a.cells.size) :
    Ends E ((takeLive src n pos is).run? a) fun r =>
      r = ((n + (is.filter src.alive).length, pos + volume ((is.filter src.alive).map src.text)),
        placeAll src n pos (is.filter src.alive) a) ∧
      n + (is.filter src.alive).length ≤ a.headers.size ∧
      pos + volume ((is.filter src.alive).map src.text) ≤ a.cells.size := by
  induction is generalizing a n pos with
  | nil => exact ⟨rfl, hn, hpos⟩
  | cons i is ih =>
    have hi := his i List.mem_cons_self
    have his := fun j hj => his j (List.mem_cons_of_mem _ hj)
    unfold takeLive
    simp only [Update.run?_bind, Update.run?_lift, clause_ok hi, ok_bind, hsrc.status.isLive_clauseAt hi]
    rw [List.filter_cons] at hroom ⊢
    cases hal : src.alive i with
    | false =>
      rw [hal, if_neg Bool.false_ne_true] at hroom
      rw [if_neg Bool.false_ne_true, if_neg Bool.false_ne_true]
      exact ih his hcells hn hpos hroom
    | true =>
      have hsize : (src.clauseAt i).size = (src.text i).length := (hsrc.length_text hal).symm
      rw [hal, if_pos rfl, List.length_cons, List.map_cons, volume_cons] at hroom
      rw [if_pos rfl, if_pos rfl, List.length_cons, List.map_cons, volume_cons]
      simp only [Update.run?_bind, Update.run?_get, ok_bind, Update.run?_require]
      split
      · next hn' =>
        have hn' : n < a.headers.size := hn'
        simp only [ok_bind]
        split
        · next hpos' =>
          have hpos' : pos + (src.text i).length ≤ a.cells.size := hsize ▸ hpos'
          obtain ⟨a₁, hfirst, hcopy⟩ := run?_copy hsrc hal hn' hpos' hcells
          have hstep := @ih (a.placed n ((src.header i).moved pos) pos (src.text i)) (n + 1) (pos + (src.text i).length)
            his (by rwa [cells_placed]) (by rwa [slots_placed]) (by rwa [cells_placed]) (by
              rw [slots_placed, cells_placed]
              exact hroom.imp_right fun h => by omega)
          rw [slots_placed, cells_placed, Nat.add_assoc, Nat.add_assoc, Nat.add_comm 1] at hstep
          simp only [ok_bind, hfirst, hsize]
          refine Ends.bind (Ends.of_eq hcopy rfl) ?_
          rintro _ rfl
          exact hstep
        · next hpos' => exact hroom.resolve_right (fun h => hpos' (by rw [hsize]; show _ ≤ a.cells.size; omega)) _
      · next hn' => exact hroom.resolve_right (fun h => hn' (by show _ < a.headers.size; omega)) _

/-! ## Compaction in place -/

/-- What is read off the live clauses, in order. -/
theorem filterMap_body {β : Type} (a : Arena) (g : Nat → List Lit → β) :
    (a.crefs.filterMap fun i => (a.body i).map (g i)) = (a.crefs.filter a.alive).map fun i => g i (a.text i) := by
  rw [List.filterMap_congr (g := fun i => (Option.guard a.alive i).map fun i => g i (a.text i)), ← List.map_filterMap,
    List.filterMap_eq_filter]
  intro i _
  unfold body
  cases h : a.alive i <;> simp [Option.guard, h]

/-- The live clauses are the texts of the slots that are alive. -/
theorem bodies_eq_map (a : Arena) : a.bodies = (a.crefs.filter a.alive).map a.text := by
  simpa [bodies] using filterMap_body a fun _ c => c

/-- Whether blocks ascend can be told, and if so each lies before all that follow. -/
theorem blocksAscend_ok (ha : a.Readable) (hal : ∀ i ∈ is, a.alive i) :
    ∃ b, a.blocksAscend is = .ok b ∧ (b = true → is.Pairwise fun i j =>
      (a.header i).start.toNat + (a.header i).size.toNat ≤ (a.header j).start.toNat) := by
  induction is with
  | nil => exact ⟨true, rfl, fun _ => .nil⟩
  | cons i is ih =>
    cases is with
    | nil => exact ⟨true, rfl, fun _ => List.pairwise_singleton _ _⟩
    | cons j is =>
      have hi := hal i List.mem_cons_self
      have hj := hal j (List.mem_cons_of_mem _ List.mem_cons_self)
      obtain ⟨b, hrun, hasc⟩ := ih fun k hk => hal k (List.mem_cons_of_mem _ hk)
      have hsum : sum64 (a.clauseAt i).start (a.clauseAt i).size =
          .ok ((a.header i).start.toNat + (a.header i).size.toNat) :=
        sum64_ok (Nat.lt_of_le_of_lt (ha.inside i hi) ha.cells_lt)
      rw [blocksAscend, clause_ok (alive_iff.1 hi).1, clause_ok (alive_iff.1 hj).1, ok_bind, ok_bind, hsum, ok_bind]
      by_cases hle : (a.header i).start.toNat + (a.header i).size.toNat ≤ (a.header j).start.toNat
      · refine ⟨b, (if_pos hle).trans hrun, fun hb => List.pairwise_cons.2 ⟨fun k hk => ?_, hasc hb⟩⟩
        rcases List.mem_cons.1 hk with rfl | hk
        · exact hle
        · have := (List.pairwise_cons.1 (hasc hb)).1 k hk
          omega
      · exact ⟨false, if_neg hle, nofun⟩

/-- Moving a block that lies inside the row to cells that are not behind it. -/
theorem run?_moveBlock {start size : Nat} (hle : pos ≤ start) (hin : start + size ≤ a.cells.size)
    (h64 : a.cells.size < 2 ^ 64) : (moveBlock start size pos).run? a =
      .ok ((), { a with cells := overwrite a.cells pos (slice a.cells start size) }) := by
  have hop : (moveBlock start size pos).run? a =
      (moveCells start pos 0 size).run? a.cells >>= fun r => .ok (r.1, { a with cells := r.2 }) := by
    have h : (moveBlock start size pos).run.run a = (((moveCells start pos 0 size).run.run a.cells).1,
        { a with cells := ((moveCells start pos 0 size).run.run a.cells).2 }) := rfl
    unfold Update.run?
    rw [h]
    rcases (moveCells start pos 0 size).run.run a.cells with ⟨_ | _, _⟩ <;> rfl
  rw [hop, run?_moveCells hle (by omega) (by omega)]
  rfl

/-- What is known of the clauses of `a₀` that are still to be packed into the slots from `n` on and the cells from `pos`
on. Their headers are those of `a₀`; and so are their literals, if they are not in the scratch copy, because no cell
from `pos` on has changed and their blocks begin there or later. -/
structure Pending (a₀ a : Arena) (scratch : Option (List Lit)) (n pos : Nat) (is : List Nat) : Prop where
  slots : a.headers.size = a₀.headers.size
  cells : a.cells.size = a₀.cells.size
  header : ∀ j, n ≤ j → a.header j = a₀.header j
  alive : ∀ i ∈ is, a₀.alive i
  first : ∀ i ∈ is, n ≤ i
  sorted : is.Pairwise (· < ·)
  room : pos + volume (is.map a₀.text) ≤ a₀.cells.size
  copied : ∀ lits, scratch = some lits → lits = (is.map a₀.text).flatten
  back : scratch = none → ∀ k, pos ≤ k → a.cells[k]? = a₀.cells[k]?
  behind : scratch = none → ∀ i ∈ is, pos ≤ (a₀.header i).start.toNat
  ascend : scratch = none → is.Pairwise fun i j =>
    (a₀.header i).start.toNat + (a₀.header i).size.toNat ≤ (a₀.header j).start.toNat

section Pack

variable (h₀ : a₀.Readable) (hp : Pending a₀ a scratch n pos (i :: is))
include h₀ hp

/-- Placing the next clause leaves the others to be packed. -/
theorem Pending.placed : Pending a₀ (a.placed n ((a₀.header i).moved pos) pos (a₀.text i))
    (scratch.map (·.drop (a₀.text i).length)) (n + 1) (pos + (a₀.text i).length) is := by
  have hal := hp.alive i List.mem_cons_self
  have hlt : n < a.headers.size := by
    have := hp.first i List.mem_cons_self
    have := Nat.lt_of_lt_of_le (alive_iff.1 hal).1 a₀.len_le_slots
    have := hp.slots
    omega
  have hroom := hp.room
  rw [List.map_cons, volume_cons] at hroom
  have hnone (h : scratch.map (·.drop (a₀.text i).length) = none) : scratch = none := Option.map_eq_none_iff.1 h
  refine ⟨(slots_placed _ _ _ _ _).trans hp.slots, (cells_placed _ _ _ _ _).trans hp.cells, fun j hj => ?_,
    fun j hj => hp.alive j (List.mem_cons_of_mem _ hj), fun j hj => ?_, hp.sorted.of_cons, by omega,
    fun lits hlits => ?_, fun h k hk => ?_, fun h j hj => ?_, fun h => (hp.ascend (hnone h)).of_cons⟩
  · rw [header_placed hlt, if_neg (by omega)]
    exact hp.header j (by omega)
  · have := hp.first i List.mem_cons_self
    have := (List.pairwise_cons.1 hp.sorted).1 j hj
    omega
  · obtain ⟨lits', rfl, rfl⟩ := Option.map_eq_some_iff.1 hlits
    rw [hp.copied lits' rfl, List.map_cons, List.flatten_cons, List.drop_left]
  · exact (getElem?_overwrite_of_outside (Or.inr hk)).trans (hp.back (hnone h) k (by omega))
  · have := hp.behind (hnone h) i List.mem_cons_self
    have := (List.pairwise_cons.1 (hp.ascend (hnone h))).1 j hj
    have := h₀.length_text hal
    omega

/-- Packing places the next clause. -/
theorem run?_packFrom_cons : (packFrom scratch n pos (i :: is)).run? a =
    (packFrom (scratch.map (·.drop (a₀.text i).length)) (n + 1) (pos + (a₀.text i).length) is).run?
      (a.placed n ((a₀.header i).moved pos) pos (a₀.text i)) := by
  have hal := hp.alive i List.mem_cons_self
  have hni := hp.first i List.mem_cons_self
  have hi : i < a.headers.size := hp.slots ▸ Nat.lt_of_lt_of_le (alive_iff.1 hal).1 a₀.len_le_slots
  have hsize := h₀.length_text hal
  have hin := h₀.inside i hal
  obtain ⟨s, hs⟩ := h₀.status i (alive_iff.1 hal).1
  have hhead : (a.clauseAt i).header = a₀.header i := hp.header i hni
  have hstart : (a.clauseAt i).start = (a₀.header i).start.toNat := by rw [Clause.start, hhead]
  have hlen : (a.clauseAt i).size = (a₀.text i).length := by rw [Clause.size, hhead, hsize]
  have hroom : pos + (a₀.text i).length ≤ (a.clauseAt i).cells.size := by
    have := hp.room
    rw [List.map_cons, volume_cons, ← hp.cells] at this
    show _ ≤ a.cells.size
    omega
  have htext (h : scratch = none) : slice a.cells (a₀.header i).start.toNat (a₀.text i).length = a₀.text i := by
    rw [hsize]
    refine slice_congr fun k hk _ => hp.back h k ?_
    exact Nat.le_trans (hp.behind h i List.mem_cons_self) hk
  rw [packFrom]
  simp only [Update.run?_bind, Update.run?_get, ok_bind, Update.run?_lift, clause_eq hi, hhead, hs, hstart, hlen]
  split
  · simp only [Update.run?_bind, Update.run?_require, hlen, if_pos hroom, ok_bind, Header.install_eq_moved hs]
    cases hsc : scratch with
    | none =>
      have hmove : (moveBlock (a₀.header i).start.toNat (a₀.text i).length pos).run? a = _ :=
        run?_moveBlock (hp.behind hsc i List.mem_cons_self) (by rw [hsize, hp.cells]; exact hin)
          (hp.cells ▸ h₀.cells_lt)
      rw [htext hsc] at hmove
      rw [Update.run?_bind, hmove]
      rfl
    | some lits =>
      have htake : lits.take (a₀.text i).length = a₀.text i := by
        rw [hp.copied lits hsc, List.map_cons, List.flatten_cons, List.take_left]
      simp only [htake]
      rfl
  · next hsame =>
    simp only [not_or, Bool.not_eq_true, Option.isSome_eq_false_iff, Option.isNone_iff_eq_none, ne_eq, not_not] at hsame
    obtain ⟨hnone, rfl, rfl⟩ := hsame
    rw [placed_self hi ((hp.header _ hni).trans (Header.moved_self (alive_iff.1 hal).2).symm) (htext hnone)]

end Pack

/-- Packing the clauses places them. -/
theorem packFrom_ok (h₀ : a₀.Readable) (hp : Pending a₀ a scratch n pos is) :
    (packFrom scratch n pos is).run? a =
      .ok ((n + is.length, pos + volume (is.map a₀.text)), placeAll a₀ n pos is a) := by
  induction is generalizing a scratch n pos with
  | nil => rfl
  | cons i is ih =>
    rw [run?_packFrom_cons h₀ hp, ih (hp.placed h₀), List.length_cons, List.map_cons, volume_cons, placeAll,
      Nat.add_assoc, Nat.add_assoc, Nat.add_comm 1]

/-! ## Whole compactions -/

/-- The arena whose slots from a number on are vacant, with new counters. -/
def closed (a : Arena) (first lits : Nat) : Arena where
  headers := overwrite a.headers first (List.replicate (a.len - first) .vacant)
  cells := a.cells
  clauseCount := .ofNat first
  litCount := .ofNat lits

theorem run?_close (a : Arena) (first lits : Nat) : (close first lits).run? a = .ok ((), a.closed first lits) := rfl

theorem header_closed_of_lt (a : Arena) {first lits : Nat} (hi : first ≤ i) (hlt : i < a.len) :
    (a.closed first lits).header i = .vacant := by
  have hsize := a.len_le_slots
  unfold closed header
  rw [getElem?_overwrite, List.length_replicate, if_pos (by omega), List.getElem?_replicate, if_pos (by omega),
    Option.getD_some]

theorem header_closed_of_len_le (a : Arena) {first lits : Nat} (hfirst : first ≤ i) (hi : a.len ≤ i) :
    (a.closed first lits).header i = a.header i := by
  unfold closed header
  rw [getElem?_overwrite_of_outside (Or.inr (by rw [List.length_replicate]; omega))]

/-- The slots of the live clauses. -/
def survivors (a : Arena) : List Nat := a.crefs.filter a.alive

theorem alive_of_mem_survivors (h : i ∈ a.survivors) : a.alive i := (List.mem_filter.1 h).2

theorem pairwise_survivors (a : Arena) : a.survivors.Pairwise (· < ·) := List.pairwise_lt_range.filter _

/-- The live clauses stand in the slots of the survivors. -/
theorem exists_survivor (hk : k < a.bodies.length) :
    ∃ i, a.survivors[k]? = some i ∧ a.bodies[k]? = some (a.text i) := by
  have hk' : k < a.survivors.length := by rwa [bodies_eq_map, List.length_map] at hk
  refine ⟨a.survivors[k], List.getElem?_eq_getElem hk', ?_⟩
  rw [bodies_eq_map, List.getElem?_map]
  exact congrArg (Option.map a.text) (List.getElem?_eq_getElem hk')

theorem length_survivors (a : Arena) : a.survivors.length = a.bodies.length := by
  rw [bodies_eq_map, List.length_map]
  rfl

theorem length_bodies_le_slots (a : Arena) : a.bodies.length ≤ a.headers.size := by
  have hle := List.length_filter_le a.alive a.crefs
  rw [← length_survivors]
  exact Nat.le_trans hle (by rw [crefs, List.length_range]; exact a.len_le_slots)

theorem Listable.length_bodies_lt (ha : a.Listable) : a.bodies.length < 2 ^ 32 :=
  Nat.lt_of_le_of_lt a.length_bodies_le_slots ha.slots_lt

/-- The arena with the live clauses of another one, and vacant slots behind them. -/
def compacted (src a : Arena) : Arena :=
  (placeAll src 0 0 src.survivors a).closed src.bodies.length (volume src.bodies)

/-- Compaction into another arena with room for the live clauses; elsewhere it faults. -/
theorem compactFrom_eq (hsrc : src.Readable) (hcells : a.cells.size < 2 ^ 64)
    (hroom : (∀ f, E f) ∨ src.bodies.length ≤ a.headers.size ∧ volume src.bodies ≤ a.cells.size) :
    Ends E ((compactFrom src).run? a) fun r =>
      r = ((), compacted src a) ∧ src.bodies.length ≤ a.headers.size ∧ volume src.bodies ≤ a.cells.size := by
  have hroom : (∀ f, E f) ∨ 0 + (src.crefs.filter src.alive).length ≤ a.headers.size ∧
      0 + volume ((src.crefs.filter src.alive).map src.text) ≤ a.cells.size := by
    simpa [bodies_eq_map] using hroom
  have htake := takeLive_ends hsrc (fun i hi => List.mem_range.1 hi) hcells (Nat.zero_le _) (Nat.zero_le _) hroom
  unfold compactFrom
  rw [Update.run?_bind]
  refine htake.bind ?_
  rintro _ ⟨rfl, hslots, hroom⟩
  rw [Nat.zero_add] at hslots hroom
  simp only [Nat.zero_add, run?_close, compacted, bodies_eq_map, List.length_map]
  exact ⟨rfl, hslots, hroom⟩

/-- Compaction in place, where the live clauses have room. -/
theorem shrink_eq (ha : a.Readable) (hroom : volume a.bodies ≤ a.cells.size) :
    shrink.run? a = .ok ((), compacted a a) := by
  have hal : ∀ i ∈ a.survivors, a.alive i := fun i => alive_of_mem_survivors
  have hroom : 0 + volume (a.survivors.map a.text) ≤ a.cells.size := by
    rw [Nat.zero_add]
    exact bodies_eq_map a ▸ hroom
  have hblocks : a.survivors.mapM a.lits = .ok (a.survivors.map a.text) :=
    mapM_ok fun i hi => ha.lits_ok (hal i hi)
  have hpack (scratch : Option (List Lit)) (hp : Pending a a scratch 0 0 a.survivors) :
      ((packFrom scratch 0 0 a.survivors).run? a >>= fun r => (close r.1.1 r.1.2).run? r.2) =
        .ok ((), compacted a a) := by
    rw [packFrom_ok ha hp, ok_bind, run?_close, compacted, bodies_eq_map, Nat.zero_add, Nat.zero_add,
      List.length_map]
    rfl
  obtain ⟨b, hasc, hpair⟩ := blocksAscend_ok ha hal
  have hlive : a.live = .ok a.survivors := ha.status.live_ok
  simp only [shrink, Update.run?_bind, Update.run?_get, Update.run?_lift, ok_bind, hlive, hasc]
  cases b with
  | true =>
    simp only [if_true, Update.run?_bind, Update.run?_pure, ok_bind]
    refine hpack none ⟨rfl, rfl, fun _ _ => rfl, hal, fun _ _ => Nat.zero_le _, a.pairwise_survivors, hroom, nofun,
      fun _ _ _ => rfl, fun _ _ _ => Nat.zero_le _, fun _ => hpair rfl⟩
  | false =>
    simp only [Bool.false_eq_true, if_false, Update.run?_bind, Update.run?_lift, hblocks, ok_bind, Update.run?_pure]
    exact hpack _ ⟨rfl, rfl, fun _ _ => rfl, hal, fun _ _ => Nat.zero_le _, a.pairwise_survivors, hroom,
      fun lits hlits => (Option.some.inj hlits).symm, nofun, nofun, nofun⟩

section Compacted

variable (hsrc : src.Readable) (hslots : a.headers.size < 2 ^ 32) (hcells : a.cells.size < 2 ^ 64)
  (hn : src.bodies.length ≤ a.headers.size) (hroom : volume src.bodies ≤ a.cells.size)

theorem slots_compacted (src a : Arena) : (compacted src a).headers.size = a.headers.size :=
  (size_overwrite _ _ _).trans (placeAll_same _ _ _ _ _).1

theorem cells_compacted (src a : Arena) : (compacted src a).cells.size = a.cells.size := (placeAll_same _ _ _ _ _).2.1

include hslots hn in
theorem clauseCount_compacted : (compacted src a).clauseCount.toNat = src.bodies.length := Nat.mod_eq_of_lt (by omega)

include hcells hroom in
theorem litCount_compacted : (compacted src a).litCount.toNat = volume src.bodies := Nat.mod_eq_of_lt (by omega)

include hslots hn in
theorem len_compacted : (compacted src a).len = src.bodies.length := by
  unfold len capacity
  rw [clauseCount_compacted hslots hn, slots_compacted]
  exact Nat.min_eq_left hn

include hcells hroom in
theorem numLits_compacted : (compacted src a).numLits = volume src.bodies := by
  unfold numLits litCapacity
  rw [litCount_compacted hcells hroom, cells_compacted]
  exact Nat.min_eq_left hroom

/-- The slots behind the clauses, up to the last one that was in use, are vacant. -/
theorem header_compacted_of_le (hk : src.bodies.length ≤ k) (hlt : k < a.len) :
    (compacted src a).header k = .vacant :=
  header_closed_of_lt _ hk (by rwa [len_placeAll])

include hn in
/-- The slots behind the clauses that were not in use stay as they were. -/
theorem header_compacted_of_len_le (hk : src.bodies.length ≤ k) (hle : a.len ≤ k) :
    (compacted src a).header k = a.header k := by
  have hlen := src.length_survivors
  refine (header_closed_of_len_le _ hk (by rwa [len_placeAll])).trans (header_placeAll_of_le ?_ ?_) <;> omega

include hn hroom

/-- Compaction stacks the live clauses. -/
theorem stacks_compacted : Stacks src src.survivors (compacted src a) := by
  have hlen := src.length_survivors
  have hvol : src.survivors.map src.text = src.bodies := (bodies_eq_map src).symm
  have hall : Stacks src ([] ++ src.survivors) (placeAll src 0 0 src.survivors a) :=
    (stacks_nil src a).placeAll (by simpa [hlen] using hn) (by simpa [hvol] using hroom)
  rw [List.nil_append] at hall
  refine ⟨?_, ?_, fun k i hk => ?_, hall.cells⟩
  · rw [slots_compacted, hlen]
    exact hn
  · rw [cells_compacted, hvol]
    exact hroom
  · have hlt : k < src.bodies.length := hlen ▸ (List.getElem?_eq_some_iff.1 hk).1
    rw [← hall.header k i hk]
    exact congrArg (Option.getD · _) (getElem?_overwrite_of_outside (Or.inl hlt))

include hcells in
/-- The blocks lie one after another without gaps. -/
theorem start_compacted (hk : k < src.bodies.length) :
    ((compacted src a).header k).start.toNat = volume (src.bodies.take k) := by
  obtain ⟨i, hi, _⟩ := exists_survivor hk
  rw [(stacks_compacted hn hroom).start (by rwa [cells_compacted]) hi, bodies_eq_map]
  rfl

include hsrc in
theorem size_compacted {c : List Lit} (hk : src.bodies[k]? = some c) :
    ((compacted src a).header k).size.toNat = c.length := by
  obtain ⟨i, hi, hget⟩ := exists_survivor (List.getElem?_eq_some_iff.1 hk).1
  rw [hk, Option.some.injEq] at hget
  rw [(stacks_compacted hn hroom).size hsrc (fun i => alive_of_mem_survivors) hi, hget]

include hsrc hslots hcells

/-- What the slots hold after compaction. -/
theorem body_compacted (hk : k < src.bodies.length) : (compacted src a).body k = src.bodies[k]? := by
  have hs := stacks_compacted hn hroom
  obtain ⟨i, hi, hget⟩ := exists_survivor hk
  have hal := alive_of_mem_survivors (List.mem_of_getElem? hi)
  rw [hget, body_eq_some_iff, alive_iff, len_compacted hslots hn, hs.header k i hi,
    hs.text hsrc (fun i => alive_of_mem_survivors) (by rwa [cells_compacted]) hi]
  exact ⟨⟨hk, Header.live_moved (alive_iff.1 hal).2 _⟩, rfl⟩

theorem bodies_compacted : (compacted src a).bodies = src.bodies := by
  unfold bodies crefs
  rw [len_compacted hslots hn, List.filterMap_congr fun k hk =>
    body_compacted hsrc hslots hcells hn hroom (List.mem_range.1 hk)]
  exact filterMap_getElem?_range src.bodies

/-- All that is in use after compaction can be read. -/
theorem readable_compacted : (compacted src a).Readable := by
  have hcells' : (compacted src a).cells.size < 2 ^ 64 := by rwa [cells_compacted]
  refine ⟨hcells', fun k hk => ?_, fun k hk => ?_⟩
  · rw [len_compacted hslots hn] at hk
    obtain ⟨i, hi, _⟩ := exists_survivor hk
    rw [(stacks_compacted hn hroom).header k i hi]
    exact hsrc.status i (alive_iff.1 (alive_of_mem_survivors (List.mem_of_getElem? hi))).1
  · have hlt := (alive_iff.1 hk).1
    rw [len_compacted hslots hn] at hlt
    obtain ⟨i, _, hget⟩ := exists_survivor hlt
    have := volume_take_add_le hget
    rw [start_compacted hcells hn hroom hlt, size_compacted hsrc hn hroom hget, cells_compacted]
    omega

/-- Compaction takes the signatures along. -/
theorem signed_compacted (hsig : src.Signed) : (compacted src a).Signed := by
  intro k c hc
  have hk := lt_of_body hc
  rw [len_compacted hslots hn] at hk
  rw [body_compacted hsrc hslots hcells hn hroom hk] at hc
  obtain ⟨i, hi, hget⟩ := exists_survivor hk
  have hb : src.body i = some c := by
    rw [hget, Option.some.injEq] at hc
    exact body_eq_some_iff.2 ⟨alive_of_mem_survivors (List.mem_of_getElem? hi), hc⟩
  rw [(stacks_compacted hn hroom).header k i hi]
  exact hsig i c hb

end Compacted

/-- The arena holds exactly the given clauses, without gaps. -/
structure Compacted (a : Arena) (cs : List (List Lit)) : Prop where
  wf : a.Wf
  ordered : a.Ordered
  bodies : a.bodies = cs
  body : ∀ k < cs.length, a.body k = cs[k]?
  start : ∀ k < cs.length, (a.header k).start.toNat = volume (cs.take k)
  size : ∀ k c, cs[k]? = some c → (a.header k).size.toNat = c.length
  clauseCount : a.clauseCount.toNat = cs.length
  litCount : a.litCount.toNat = volume cs
  within : ∀ n, (∀ c ∈ cs, ∀ l ∈ c, l.var < n) → a.Within n

/-- The arena after compaction, if its clauses ascend. -/
theorem compacted_compacted (hsrc : src.Readable) (hslots : a.headers.size < 2 ^ 32) (hcells : a.cells.size < 2 ^ 64)
    (hn : src.bodies.length ≤ a.headers.size) (hroom : volume src.bodies ≤ a.cells.size)
    (hasc : ∀ c ∈ src.bodies, c.Pairwise (· < ·)) : (compacted src a).Compacted src.bodies := by
  have hread := readable_compacted hsrc hslots hcells hn hroom
  have hlen := len_compacted hslots hn
  have hbody {k : Nat} (hk : k < src.bodies.length) := body_compacted hsrc hslots hcells hn hroom hk
  have hget {k : Nat} (hk : k < src.bodies.length) : src.bodies[k]? = some src.bodies[k] := List.getElem?_eq_getElem hk
  have hstart {k : Nat} (hk : k < src.bodies.length) := start_compacted hcells hn hroom hk
  have hsize {k : Nat} (hk : k < src.bodies.length) := size_compacted hsrc hn hroom (hget hk)
  refine ⟨⟨by rwa [slots_compacted], hread.cells_lt, hread.status, fun k hk => ?_, fun k c hc => ?_⟩,
    fun i j hij hj => ?_, bodies_compacted hsrc hslots hcells hn hroom, fun k => hbody, fun k => hstart,
    fun k c => size_compacted hsrc hn hroom, clauseCount_compacted hslots hn,
    litCount_compacted hcells hroom, fun n hn k hk l hl => ?_⟩
  · rw [hlen] at hk
    rw [hstart hk, hsize hk, numLits_compacted hcells hroom]
    exact volume_take_add_le (hget hk)
  · have hk := lt_of_body hc
    rw [hlen] at hk
    rw [hbody hk] at hc
    exact hasc c (List.mem_of_getElem? hc)
  · rw [hlen] at hj
    have hi := Nat.lt_trans hij hj
    rw [hstart hi, hsize hi, hstart hj, ← volume_take_succ (hget hi)]
    exact volume_take_le hij
  · rw [hlen] at hk
    rw [text_of_body ((hbody hk).trans (hget hk))] at hl
    exact hn _ (List.getElem_mem hk) l hl

/-- Compaction of a well-formed arena into one with room for its clauses. -/
theorem compactFrom_ends (hsrc : src.Wf) (hslots : a.headers.size < 2 ^ 32) (hcells : a.cells.size < 2 ^ 64)
    (hroom : (∀ f, E f) ∨ src.bodies.length ≤ a.headers.size ∧ volume src.bodies ≤ a.cells.size) :
    Ends E ((compactFrom src).run? a) fun r =>
      r.2.Compacted src.bodies ∧ (src.Signed → r.2.Signed) ∧ r.2.headers.size = a.headers.size ∧
        r.2.cells.size = a.cells.size := by
  refine (compactFrom_eq hsrc.readable hcells hroom).imp ?_
  rintro _ ⟨rfl, hn, hroom⟩
  refine ⟨compacted_compacted hsrc.readable hslots hcells hn hroom fun c hc => ?_,
    signed_compacted hsrc.readable hslots hcells hn hroom, slots_compacted _ _, cells_compacted _ _⟩
  obtain ⟨i, hi⟩ := mem_bodies.1 hc
  exact hsrc.ascends i c hi

/-- Live clauses whose blocks share no cells have room in the row: together they have as many literals as cells. -/
theorem Readable.volume_le_of_apart (ha : a.Readable)
    (hapart : a.survivors.Pairwise fun i j => ∀ p, ¬(a.Owns i p ∧ a.Owns j p)) : volume a.bodies ≤ a.cells.size := by
  let block (i : Nat) : List Nat := .range' (a.header i).start.toNat (a.header i).size.toNat
  have hblock (i p : Nat) : p ∈ block i ↔ a.Owns i p := List.mem_range'_1
  have hnodup : (a.survivors.flatMap block).Nodup :=
    List.nodup_flatMap.2 ⟨fun i _ => List.nodup_range', hapart.imp fun {i j} h p hi hj =>
      h p ⟨(hblock i p).1 hi, (hblock j p).1 hj⟩⟩
  have hsub : a.survivors.flatMap block ⊆ List.range a.cells.size := fun p hp => by
    obtain ⟨i, hi, hp⟩ := List.mem_flatMap.1 hp
    have hin := ha.inside i (alive_of_mem_survivors hi)
    exact List.mem_range.2 (Nat.lt_of_lt_of_le ((hblock i p).1 hp).2 hin)
  have hlen : (a.survivors.flatMap block).length = volume a.bodies := by
    rw [List.length_flatMap, bodies_eq_map, volume, List.map_map]
    refine congrArg List.sum (List.map_congr_left fun i hi => ?_)
    rw [List.length_range']
    exact (ha.length_text (alive_of_mem_survivors hi)).symm
  have hle := (List.subperm_of_subset hnodup hsub).length_le
  rwa [hlen, List.length_range] at hle

/-- So have those whose blocks lie in the order of their slots. -/
theorem Readable.volume_le (ha : a.Readable) (ho : a.survivors.Pairwise fun i j =>
    (a.header i).start.toNat + (a.header i).size.toNat ≤ (a.header j).start.toNat) :
    volume a.bodies ≤ a.cells.size := by
  refine ha.volume_le_of_apart (ho.imp fun {i j} hle p hp => ?_)
  obtain ⟨⟨_, hi⟩, hj, _⟩ := hp
  omega

theorem Separated.volume_le (ha : a.Readable) (hd : a.Separated) : volume a.bodies ≤ a.cells.size :=
  ha.volume_le_of_apart (a.pairwise_survivors.imp_of_mem fun {i j} hi hj hij =>
    hd i (alive_iff.1 (alive_of_mem_survivors hi)).1 j (alive_iff.1 (alive_of_mem_survivors hj)).1 (Nat.ne_of_lt hij))

theorem Ordered.volume_le (ha : a.Wf) (ho : a.Ordered) : volume a.bodies ≤ a.cells.size :=
  ha.readable.volume_le (a.pairwise_survivors.imp_of_mem fun {i j} _ hj hij =>
    ho i j hij (alive_iff.1 (alive_of_mem_survivors hj)).1)

/-- Compaction of a well-formed arena in place. -/
theorem shrink_ok (ha : a.Wf) (ho : a.Ordered) :
    ∃ a', shrink.run? a = .ok ((), a') ∧ a'.Compacted a.bodies ∧ (a.Signed → a'.Signed) ∧
      a'.headers.size = a.headers.size ∧ a'.cells.size = a.cells.size := by
  have hroom := ho.volume_le ha
  have hn := a.length_bodies_le_slots
  refine ⟨_, shrink_eq ha.readable hroom,
    compacted_compacted ha.readable ha.slots_lt ha.cells_lt hn hroom fun c hc => ?_,
    signed_compacted ha.readable ha.slots_lt ha.cells_lt hn hroom, slots_compacted _ _, cells_compacted _ _⟩
  obtain ⟨i, hi⟩ := mem_bodies.1 hc
  exact ha.ascends i c hi

end Arena

end CnfSimp
