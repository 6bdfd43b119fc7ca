import CnfSimp.Pass.Eliminate

/-!
# Hidden tautologies

A clause may be extended by the negation of `k` whenever it contains `l` and there is a clause of just `l` and `k`: the
extension holds wherever the clause does. If the extension becomes a tautology, the other clauses imply the clause, and
it is melted.

* `absorb`: the literals that the binary clauses of one literal add.
* `isHidden`: whether the extension becomes a tautology before it exceeds its limit. The loop ends because every added
  literal is the negation of one in the arena and is added once (`absorb_measure`).
* `removeHidden`: one pass over the elected variables. Binary clauses with another elected variable are left out.
-/

namespace CnfSimp

/-- What became of an extension: a tautology, one that would exceed its limit, or a longer one. -/
inductive Extension where
  | tautology
  | full
  | grown (ext : List Lit)

/-- The other literal of a binary clause. -/
def Clause.other (c : Clause) (l : Lit) : Except Fault Lit := do
  if (← c.lit 0) = l then c.lit 1 else c.lit 0

/-- Whether a variable other than `v` is elected. -/
def WorkingSet.isForeign (w : WorkingSet) (v u : Nat) : Except Fault Bool :=
  if u = v then .ok false else w.isElected u

/-- Extends by the binary clauses among the given ones, which contain `l`. Clause `cref` itself is left out, and so are
clauses with an elected variable other than `v`. -/
def absorb (a : Arena) (w : WorkingSet) (cref v limit : Nat) (l : Lit) (ext : List Lit) :
    List Nat → Except Fault Extension
  | [] => .ok (.grown ext)
  | bref :: brefs => do
    let b ← a.clause bref
    if bref = cref ∨ b.size ≠ 2 then
      absorb a w cref v limit l ext brefs
    else
      let k ← b.other l
      if ← w.isForeign v k.var then
        absorb a w cref v limit l ext brefs
      else if !(← b.isLive) then
        absorb a w cref v limit l ext brefs
      else if ext.contains k then
        return .tautology
      else if ext.contains k.not then
        absorb a w cref v limit l ext brefs
      else if ext.length = limit then
        return .full
      else
        absorb a w cref v limit l (ext ++ [k.not]) brefs

/-- The cells of an arena whose negation is not yet in an extension. -/
def unseen (a : Arena) (ext : List Lit) : Nat :=
  a.cells.toList.countP fun k => !ext.contains k.not

/-- What a cell of a clause holds is among the cells of the row. -/
theorem mem_cells_of_cell {c : Clause} {i : Nat} {k : Lit} (h : c.cell i = .ok k) : k ∈ c.cells := by
  unfold Clause.cell at h
  cases hs : sum64 c.start i with
  | error f => simp [hs, bind, Except.bind] at h
  | ok pos =>
    simp only [hs, bind, Except.bind] at h
    split at h
    · next heq =>
      cases h
      exact Array.mem_of_getElem? heq
    · cases h

/-- A literal of a clause is among the cells of the row. -/
theorem mem_cells_of_lit {c : Clause} {i : Nat} {k : Lit} (h : c.lit i = .ok k) : k ∈ c.cells := by
  unfold Clause.lit at h
  split at h
  · exact mem_cells_of_cell h
  · cases h

/-- The other literal of a binary clause is among the cells of the row. -/
theorem mem_cells_of_other {c : Clause} {l k : Lit} (h : c.other l = .ok k) : k ∈ c.cells := by
  unfold Clause.other at h
  cases h0 : c.lit 0 with
  | error f => simp [h0, bind, Except.bind] at h
  | ok m =>
    simp only [h0, bind, Except.bind] at h
    split at h
    · exact mem_cells_of_lit h
    · exact mem_cells_of_lit (h0.trans h)

/-- A clause of an arena lies in the row of the arena. -/
theorem Arena.cells_of_clause {a : Arena} {cref : Nat} {c : Clause} (h : a.clause cref = .ok c) :
    c.cells = a.cells := by
  unfold Arena.clause at h
  split at h
  · cases h
    rfl
  · cases h

/-- Adding the negation of a cell that was not yet in the extension leaves fewer unseen cells. -/
theorem unseen_append_lt {a : Arena} {ext : List Lit} {k : Lit} (hk : k ∈ a.cells) (hn : k.not ∉ ext) :
    unseen a (ext ++ [k.not]) < unseen a ext := by
  unfold unseen
  rw [List.countP_eq_length_filter, List.countP_eq_length_filter]
  have hsub : a.cells.toList.filter (fun m => !(ext ++ [k.not]).contains m.not) =
      (a.cells.toList.filter fun m => !ext.contains m.not).filter fun m => m.not != k.not := by
    rw [List.filter_filter]
    apply List.filter_congr
    intro m _
    by_cases h : m.not = k.not <;> simp [h]
  rw [hsub]
  apply List.length_filter_lt_length_iff_exists.2
  exact ⟨k, by simp [hk, hn], by simp⟩

/-- What is added to an extension is no longer unseen. -/
theorem absorb_measure {a : Arena} {w : WorkingSet} {cref v limit : Nat} {l : Lit} {ext ext' : List Lit}
    {brefs : List Nat} (h : absorb a w cref v limit l ext brefs = .ok (.grown ext')) :
    unseen a ext' + ext'.length ≤ unseen a ext + ext.length := by
  induction brefs generalizing ext with
  | nil =>
    cases h
    exact Nat.le_refl _
  | cons bref brefs ih =>
    unfold absorb at h
    cases hb : a.clause bref with
    | error f => simp [hb, bind, Except.bind] at h
    | ok b =>
      simp only [hb, bind, Except.bind] at h
      split at h
      · exact ih h
      cases ho : b.other l with
      | error f => simp [ho] at h
      | ok k =>
        simp only [ho] at h
        cases hf : w.isForeign v k.var with
        | error f => simp [hf] at h
        | ok foreign =>
          cases hv : b.isLive with
          | error f =>
            simp only [hf, hv] at h
            split at h
            · exact ih h
            · cases h
          | ok live =>
            simp only [hf, hv] at h
            split at h
            · exact ih h
            split at h
            · exact ih h
            split at h
            · cases h
            split at h
            · exact ih h
            · next hn =>
              split at h
              · cases h
              · have hk : k ∈ a.cells := Arena.cells_of_clause hb ▸ mem_cells_of_other ho
                have hlt := unseen_append_lt hk (by simpa using hn)
                have := ih h
                simp only [List.length_append, List.length_singleton] at this
                omega

/-- Whether an extension becomes a tautology, from its literal at position `i` on. -/
def extensionHidden (a : Arena) (t : Occurrences) (w : WorkingSet) (cref v limit i : Nat) (ext : List Lit) :
    Except Fault Bool :=
  match _hl : ext[i]? with
  | none => .ok false
  | some l =>
    match t.occurs l with
    | .error f => .error f
    | .ok brefs =>
      match _hg : absorb a w cref v limit l ext brefs with
      | .error f => .error f
      | .ok .tautology => .ok true
      | .ok .full => .ok false
      | .ok (.grown ext') => extensionHidden a t w cref v limit (i + 1) ext'
termination_by unseen a ext + ext.length - i
decreasing_by
  have := absorb_measure ‹_›
  obtain ⟨hi, _⟩ := List.getElem?_eq_some_iff.1 ‹_›
  omega

/-- Whether the extension of a clause becomes a tautology. -/
def isHidden (a : Arena) (t : Occurrences) (w : WorkingSet) (cref v limit : Nat) : Except Fault Bool := do
  extensionHidden a t w cref v limit 0 (← a.lits cref)

/-- Melts those of the given clauses that are hidden tautologies and not too long, and answers how many, together with
`n` before. -/
def removeHiddenAmong (t : Occurrences) (w : WorkingSet) (v sizeLimit limit n : Nat) (a : Arena) :
    List Nat → Except Fault (Nat × Arena)
  | [] => .ok (n, a)
  | cref :: crefs => do
    let c ← a.clause cref
    if !(← c.isLive) || sizeLimit < c.size then
      removeHiddenAmong t w v sizeLimit limit n a crefs
    else if ← isHidden a t w cref v limit then
      removeHiddenAmong t w v sizeLimit limit (← sum32 n 1) (← a.melt cref) crefs
    else
      removeHiddenAmong t w v sizeLimit limit n a crefs

/-- Melts the hidden tautologies among the clauses of the elected variables, and answers how many. -/
def removeHidden (o : Options) (a : Arena) (t : Occurrences) (w : WorkingSet) : Except Fault (Nat × Arena) := do
  let sizeLimit := toWord o.hiddenSizeLimit
  let limit := toWord o.extensionLimit
  (← w.candidateVars).foldlM (fun (n, a) v => do
    let (n, a) ← removeHiddenAmong t w v sizeLimit limit n a (← t.occurs (.positive v))
    removeHiddenAmong t w v sizeLimit limit n a (← t.occurs (.negative v))) (0, a)

end CnfSimp
