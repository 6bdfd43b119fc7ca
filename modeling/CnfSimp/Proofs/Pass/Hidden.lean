import CnfSimp.Pass.Hidden
import CnfSimp.Proofs.Arena.Weight
import CnfSimp.Proofs.Pass.Eliminate

/-!
# Hidden tautologies

* `Arena.LinkAt`: a binary clause that the search may use. `Arena.Refutes`: where a clause does not hold and the other
  binary ones do, the literals of an extension are all false. Every literal that a binary clause adds is of this kind
  (`Arena.Refutes.snoc`).
* `absorb_cases`: what one binary clause does to an extension. `absorb_ends`, `extensionHidden_ends`: so a clause whose
  extension becomes a tautology follows from the other binary ones.
* `Hides`, `removeHidden_ends`: what the whole pass does. It faults only where literals have no list or no mark. Its
  counter never overflows.
-/

namespace CnfSimp

variable {E : Fault → Prop} {a a' a'' : Arena} {t : Occurrences} {w : WorkingSet} {l k : Lit} {c b ext : List Lit}
  {crefs : List Nat} {cref bref i v limit sizeLimit n m x : Nat}

/-! ## Extensions -/

/-- In a slot other than `cref` is a live clause of just `l` and `k`, and no other variable than `v` that `k` may have
is elected. -/
def Arena.LinkAt (a : Arena) (w : WorkingSet) (cref v : Nat) (l k : Lit) (i : Nat) : Prop :=
  i ≠ cref ∧ (a.body i = some [l, k] ∨ a.body i = some [k, l]) ∧ w.isForeign v k.var = .ok false

theorem Arena.LinkAt.text (h : a.LinkAt w cref v l k i) : a.text i = [l, k] ∨ a.text i = [k, l] :=
  h.2.1.imp text_of_body text_of_body

theorem Arena.LinkAt.alive (h : a.LinkAt w cref v l k i) : a.alive i := by
  rcases h.2.1 with hb | hb
  · exact (body_eq_some_iff.1 hb).1
  · exact (body_eq_some_iff.1 hb).1

theorem Arena.LinkAt.mem_text (h : a.LinkAt w cref v l k i) : l ∈ a.text i ∧ k ∈ a.text i := by
  rcases h.text with h | h <;> simp [h]

/-- The slot of a clause of `l` and `k` links `l` to no other literal. -/
theorem Arena.LinkAt.eq_of_text {m : Lit} (h : a.LinkAt w cref v l m i)
    (htext : a.text i = [l, k] ∨ a.text i = [k, l]) : m = k := by
  rcases h.text with h | h <;> rcases htext with h' | h' <;> grind

/-- Where the clause in a slot does not hold but all other binary ones do, the literals of the extension are false. -/
def Arena.Refutes (a : Arena) (cref : Nat) (ext : List Lit) : Prop :=
  ∀ val c, (∀ j d, j ≠ cref → a.body j = some d → d.length = 2 → Holds val d) → a.body cref = some c → ¬Holds val c →
    ∀ l ∈ ext, ¬l.Holds val

/-- The clause in a slot follows from the other binary ones. -/
def Arena.Implied (a : Arena) (cref : Nat) : Prop :=
  ∀ val c, (∀ j d, j ≠ cref → a.body j = some d → d.length = 2 → Holds val d) → a.body cref = some c → Holds val c

/-- The literals of a clause are false where it does not hold. -/
theorem Arena.refutes_text (a : Arena) (cref : Nat) : a.Refutes cref (a.text cref) := by
  intro val c _ hc hv l hl hvl
  rw [text_of_body hc] at hl
  exact hv ⟨l, hl, hvl⟩

section Refutes

variable (h : a.Refutes cref ext) (hl : l ∈ ext) (hlink : a.LinkAt w cref v l k bref)
include h hl hlink

/-- The other literal of a linking clause is true where the clause does not hold. -/
theorem Arena.Refutes.holds_other {val : Assignment}
    (hothers : ∀ j d, j ≠ cref → a.body j = some d → d.length = 2 → Holds val d) (hc : a.body cref = some c)
    (hv : ¬Holds val c) : k.Holds val := by
  have hfalse := h val c hothers hc hv l hl
  obtain ⟨hne, hb | hb, -⟩ := hlink
  · obtain ⟨m, hm, hvm⟩ := hothers bref _ hne hb rfl
    rcases List.mem_pair.1 hm with rfl | rfl
    · exact absurd hvm hfalse
    · exact hvm
  · obtain ⟨m, hm, hvm⟩ := hothers bref _ hne hb rfl
    rcases List.mem_pair.1 hm with rfl | rfl
    · exact hvm
    · exact absurd hvm hfalse

theorem Arena.Refutes.snoc : a.Refutes cref (ext ++ [k.not]) := by
  intro val c hothers hc hv m hm
  rcases List.mem_append.1 hm with hm | hm
  · exact h val c hothers hc hv m hm
  · rw [List.mem_singleton.1 hm, Lit.holds_not, not_not]
    exact h.holds_other hl hlink hothers hc hv

/-- If that literal is in the extension as well, the clause follows from the others. -/
theorem Arena.Refutes.implied (hk : k ∈ ext) : a.Implied cref := by
  intro val c hothers hc
  by_contra hv
  exact h val c hothers hc hv k hk (h.holds_other hl hlink hothers hc hv)

end Refutes

/-! ## Tables -/

namespace Occurrences

/-- What the lists hold can be read, and the live clauses among it have the literal. -/
structure Legible (t : Occurrences) (a : Arena) : Prop where
  wf : t.Wf
  readable : a.Readable
  lt : ∀ j, ∀ i ∈ t.listAt j, i < a.len
  inside : ∀ j, ∀ i ∈ t.listAt j, (a.header i).start.toNat + (a.header i).size.toNat ≤ a.cells.size
  mem : ∀ l, ∀ i ∈ t.listAt l.index, ∀ c, a.body i = some c → l ∈ c

theorem Sound.legible (h : t.Sound a) (ha : a.Wf) : t.Legible a where
  wf := h.wf
  readable := ha.readable
  lt := h.lt
  inside j i hi := ha.inside_cells (h.lt j i hi)
  mem := h.mem

end Occurrences

/-! ## The search -/

/-- The other literal of a binary clause whose block lies in the row of cells. -/
theorem other_ok (hin : (a.header i).start.toNat + (a.header i).size.toNat ≤ a.cells.size) (h64 : a.cells.size < 2 ^ 64)
    (hsize : (a.clauseAt i).size = 2) (l : Lit) :
    ∃ k ∈ a.text i, (a.clauseAt i).other l = .ok k ∧ (l ∈ a.text i → a.text i = [l, k] ∨ a.text i = [k, l]) := by
  have hlen : (a.text i).length = 2 := (length_slice hin).trans hsize
  obtain ⟨p, q, hpq⟩ := List.length_eq_two.1 hlen
  have h₀ : (a.clauseAt i).lit 0 = .ok p := by
    rw [Arena.lit_clauseAt hin h64 (by omega)]
    simp [hpq]
  have h₁ : (a.clauseAt i).lit 1 = .ok q := by
    rw [Arena.lit_clauseAt hin h64 (by omega)]
    simp [hpq]
  rw [hpq, Clause.other, h₀, ok_bind, h₁]
  by_cases hp : p = l
  · exact ⟨q, by simp, if_pos hp, fun _ => Or.inl (by rw [hp])⟩
  · refine ⟨p, by simp, if_neg hp, fun hl => Or.inr ?_⟩
    obtain rfl : l = q := by simpa [Ne.symm hp] using hl
    rfl

/-- Extending adds literals at the end, each of which was not there before. -/
theorem absorb_grows {ext' : List Lit} (h : absorb a w cref v limit l ext crefs = .ok (.grown ext')) :
    ext <+: ext' ∧ (ext.Nodup → ext'.Nodup) := by
  induction crefs generalizing ext with
  | nil =>
    cases h
    exact ⟨List.prefix_rfl, id⟩
  | cons bref brefs ih =>
    unfold absorb at h
    obtain ⟨b, _, h⟩ := bind_eq_ok_iff.1 h
    split at h
    · exact ih h
    obtain ⟨k, _, h⟩ := bind_eq_ok_iff.1 h
    obtain ⟨foreign, _, h⟩ := bind_eq_ok_iff.1 h
    split at h
    · exact ih h
    obtain ⟨live, _, h⟩ := bind_eq_ok_iff.1 h
    split at h
    · exact ih h
    split at h
    · cases h
    split at h
    · exact ih h
    next hnew =>
    split at h
    · cases h
    · obtain ⟨hpre, hnodup⟩ := ih h
      refine ⟨(List.prefix_append ext [k.not]).trans hpre, fun hext => hnodup ?_⟩
      rw [← List.concat_eq_append, List.nodup_concat]
      exact ⟨by simpa using hnew, hext⟩

/-- One round of the search. -/
theorem extensionHidden_eq (hget : ext[i]? = some l) :
    extensionHidden a t w cref v limit i ext = (do
      match ← absorb a w cref v limit l ext (← t.occurs l) with
      | .tautology => .ok true
      | .full => .ok false
      | .grown ext' => extensionHidden a t w cref v limit (i + 1) ext') := by
  rw [extensionHidden]
  split
  · next h => simp [h] at hget
  · next k h =>
    rw [h, Option.some.injEq] at hget
    subst hget
    cases t.occurs k with
    | error f => rfl
    | ok brefs =>
      simp only [ok_bind]
      split <;> simp_all

/-- What an extension by the binary clauses of a literal leads to. The variables of a longer one are below `n`, unless
every fault is allowed. -/
def Extension.Valid (E : Fault → Prop) (a : Arena) (cref n : Nat) : Extension → Prop
  | .tautology => a.Implied cref
  | .full => True
  | .grown ext => a.Refutes cref ext ∧ ∀ l ∈ ext, (∀ f, E f) ∨ l.var < n

theorem isForeign_ends (h : (∀ f, E f) ∨ x < w.elected.capacity) : Ends E (w.isForeign v x) fun _ => True := by
  unfold WorkingSet.isForeign
  split
  · trivial
  by_cases hx : x < w.elected.capacity
  · exact .of_eq (BitSet.contains_ok hx) trivial
  · cases w.isElected x with
    | ok foreign => trivial
    | error f => exact h.resolve_right hx f

/-- One binary clause with the other literal `k`: it is passed over if the variable of `k` is another elected one or the
clause is not live; otherwise `k` decides. -/
theorem absorb_cons (ha : a.Readable) (hi : bref < a.len) (hne : bref ≠ cref) (hsize : (a.clauseAt bref).size = 2)
    (hother : (a.clauseAt bref).other l = .ok k) (limit : Nat) :
    absorb a w cref v limit l ext (bref :: crefs) = (w.isForeign v k.var >>= fun foreign =>
      if foreign then absorb a w cref v limit l ext crefs
      else if !a.alive bref then absorb a w cref v limit l ext crefs
      else if ext.contains k then .ok .tautology
      else if ext.contains k.not then absorb a w cref v limit l ext crefs
      else if ext.length = limit then .ok .full
      else absorb a w cref v limit l (ext ++ [k.not]) crefs) := by
  rw [absorb, Arena.clause_ok hi, ok_bind, if_neg (not_or.2 ⟨hne, not_not.2 hsize⟩), hother, ok_bind]
  simp only [ha.status.isLive_clauseAt hi, ok_bind]
  rfl

/-- What a binary clause among those of `l` does to an extension is decided without the limit, unless it adds a
literal. -/
theorem absorb_cases (hs : t.Legible a) (cref v : Nat) (ext : List Lit) (crefs : List Nat)
    (hE : (∀ f, E f) ∨ t.Within a n ∧ n ≤ w.elected.capacity) (hbref : bref ∈ t.listAt l.index) :
    ((∀ limit, absorb a w cref v limit l ext (bref :: crefs) = absorb a w cref v limit l ext crefs) ∧
      ∀ k, a.LinkAt w cref v l k bref → k.not ∈ ext ∧ k ∉ ext) ∨
    (∃ k ∈ ext, a.LinkAt w cref v l k bref ∧
      ∀ limit, absorb a w cref v limit l ext (bref :: crefs) = .ok .tautology) ∨
    (∃ k, a.LinkAt w cref v l k bref ∧ (∀ m, a.LinkAt w cref v l m bref → m = k) ∧ k ∉ ext ∧ k.not ∉ ext ∧
      ∀ limit, absorb a w cref v limit l ext (bref :: crefs) =
        if ext.length = limit then .ok .full else absorb a w cref v limit l (ext ++ [k.not]) crefs) ∨
    ∃ f, E f ∧ ∀ limit, absorb a w cref v limit l ext (bref :: crefs) = .error f := by
  have hi := hs.lt _ bref hbref
  have hin := hs.inside _ bref hbref
  have hsz : (a.clauseAt bref).size = (a.text bref).length := (length_slice hin).symm
  by_cases hbin : bref = cref ∨ (a.clauseAt bref).size ≠ 2
  · left
    refine ⟨fun limit => ?_, fun k hk => absurd hbin (not_or.2 ⟨hk.1, not_not.2 ?_⟩)⟩
    · rw [absorb, Arena.clause_ok hi, ok_bind, if_pos hbin]
    · rcases hk.text with htext | htext <;> rw [hsz, htext] <;> rfl
  obtain ⟨hne, hsize⟩ := not_or.1 hbin
  have hsize := not_not.1 hsize
  obtain ⟨k, hk, hother, hpair⟩ := other_ok hin hs.readable.cells_lt hsize l
  -- A link in this slot is the one to `k`, and then the clause is live.
  have hlink {m : Lit} (hm : a.LinkAt w cref v l m bref) : m = k ∧ a.alive bref ∧ w.isForeign v k.var = .ok false := by
    have hmk : m = k := hm.eq_of_text (hpair hm.mem_text.1)
    exact ⟨hmk, hm.alive, hmk ▸ hm.2.2⟩
  simp only [absorb_cons hs.readable hi hne hsize hother]
  have hknown := isForeign_ends (v := v) (hE.imp_right fun hE => Nat.lt_of_lt_of_le (hE.1 _ bref hbref k hk) hE.2)
  cases hforeign : w.isForeign v k.var with
  | error f => exact .inr (.inr (.inr ⟨f, hknown.of_error hforeign, fun _ => rfl⟩))
  | ok foreign =>
    simp only [ok_bind]
    cases foreign with
    | true =>
      refine .inl ⟨fun _ => if_pos rfl, fun m hm => ?_⟩
      have := (hlink hm).2.2
      simp [hforeign] at this
    | false =>
      cases hal : a.alive bref with
      | false =>
        refine .inl ⟨fun _ => by simp, fun m hm => ?_⟩
        have := (hlink hm).2.1
        simp [hal] at this
      | true =>
        have hl : l ∈ a.text bref := hs.mem l bref hbref _ (Arena.body_eq_some_iff.2 ⟨hal, rfl⟩)
        have hat : a.LinkAt w cref v l k bref :=
          ⟨hne, (hpair hl).imp (fun h => Arena.body_eq_some_iff.2 ⟨hal, h⟩) fun h =>
            Arena.body_eq_some_iff.2 ⟨hal, h⟩, hforeign⟩
        by_cases hkext : k ∈ ext
        · exact .inr (.inl ⟨k, hkext, hat, fun _ => by simp [hkext]⟩)
        by_cases hnot : k.not ∈ ext
        · exact .inl ⟨fun _ => by simp [hkext, hnot], fun m hm => (hlink hm).1 ▸ ⟨hnot, hkext⟩⟩
        · exact .inr (.inr (.inl ⟨k, hat, fun m hm => (hlink hm).1, hkext, hnot, fun _ => by simp [hkext, hnot]⟩))

section Search

variable (ha : a.Wf) (hs : t.Sound a) (hE : (∀ f, E f) ∨ t.Within a n ∧ n ≤ w.elected.capacity)
include ha hs hE

/-- Extending by the binary clauses of a literal. -/
theorem absorb_ends (h : a.Refutes cref ext) (hn : ∀ l ∈ ext, (∀ f, E f) ∨ l.var < n) (hl : l ∈ ext)
    (hcrefs : ∀ i ∈ crefs, i ∈ t.listAt l.index) :
    Ends E (absorb a w cref v limit l ext crefs) (Extension.Valid E a cref n) := by
  induction crefs generalizing ext with
  | nil => exact ⟨h, hn⟩
  | cons bref brefs ih =>
    have hmem := hcrefs bref List.mem_cons_self
    have hrest := fun i hi => hcrefs i (List.mem_cons_of_mem _ hi)
    rcases absorb_cases (hs.legible ha) cref v ext brefs hE hmem with
      ⟨heq, -⟩ | ⟨k, hk, hlink, heq⟩ | ⟨k, hlink, -, -, -, heq⟩ | ⟨f, hf, heq⟩
    · rw [heq]
      exact ih h hn hl hrest
    · rw [heq]
      exact h.implied hl hlink hk
    · rw [heq]
      split
      · trivial
      refine ih (h.snoc hl hlink) (fun m hm => ?_) (List.mem_append_left _ hl) hrest
      rcases List.mem_append.1 hm with hm | hm
      · exact hn m hm
      · rw [List.mem_singleton.1 hm, Lit.var_not]
        exact hE.imp_right fun hE => hE.1 _ bref hmem k hlink.mem_text.2
    · rw [heq]
      exact hf

variable (hnum : t.numVars = n)
include hnum

/-- A clause whose extension becomes a tautology follows from the other binary ones. -/
theorem extensionHidden_ends (h : a.Refutes cref ext) (hn : ∀ l ∈ ext, (∀ f, E f) ∨ l.var < n) :
    Ends E (extensionHidden a t w cref v limit i ext) fun b => b → a.Implied cref := by
  have hoccurs {ext : List Lit} {l : Lit} {i : Nat} (hn : ∀ l ∈ ext, (∀ f, E f) ∨ l.var < n) (hget : ext[i]? = some l) :
      Ends E (t.occurs l) (· = t.listAt l.index) := by
    refine hs.wf.occurs_ends ((hn l (List.mem_of_getElem? hget)).imp_right fun hl => ?_)
    rw [hs.size, hnum]
    exact Lit.index_lt_litSlots hl
  have habsorb {ext : List Lit} {l : Lit} {i : Nat} {brefs : List Nat} (h : a.Refutes cref ext)
      (hn : ∀ l ∈ ext, (∀ f, E f) ∨ l.var < n) (hget : ext[i]? = some l) (hlist : t.occurs l = .ok brefs) :
      Ends E (absorb a w cref v limit l ext brefs) (Extension.Valid E a cref n) := by
    rw [(hoccurs hn hget).of_ok hlist]
    exact absorb_ends ha hs hE h hn (List.mem_of_getElem? hget) fun x hx => hx
  fun_induction extensionHidden a t w cref v limit i ext with
  | case1 i ext hget => exact nofun
  | case2 i ext l hget f hlist => exact (hoccurs hn hget).of_error hlist
  | case3 i ext l hget brefs hlist f hgrow => exact (habsorb h hn hget hlist).of_error hgrow
  | case4 i ext l hget brefs hlist hgrow => exact fun _ => (habsorb h hn hget hlist).of_ok hgrow
  | case5 i ext l hget brefs hlist hgrow => exact nofun
  | case6 i ext l hget brefs hlist ext' hgrow ih =>
    obtain ⟨h', hn'⟩ := (habsorb h hn hget hlist).of_ok hgrow
    exact ih h' hn'

/-- The search for a hidden tautology in a listed clause. -/
theorem isHidden_ends (hi : cref ∈ t.listAt i) :
    Ends E (isHidden a t w cref v limit) fun b => b → a.Implied cref := by
  unfold isHidden
  rw [ha.lits_ok (hs.lt _ cref hi), ok_bind]
  refine extensionHidden_ends ha hs hE hnum (a.refutes_text cref) fun l hl => ?_
  exact hE.imp_right fun hE => hE.1 i cref hi l hl

end Search

/-! ## The pass -/

/-- Clauses that followed from binary ones that are left are gone. They are counted on top of `n`. -/
structure Hides (n : Nat) (a : Arena) (n' : Nat) (a' : Arena) : Prop extends Drops a a' where
  melts : ∃ is, a.Melts is a' ∧ n' = n + is.length
  follows : ∀ v, (∀ d ∈ a'.bodies, d.length = 2 → Holds v d) → ∀ i c, a.body i = some c →
    a'.body i = some c ∨ Holds v c

namespace Hides

variable {n' n'' : Nat}

theorem refl (ha : a.Wf) (n : Nat) : Hides n a n a :=
  ⟨.refl ha, ⟨[], .nil a, rfl⟩, fun _ _ _ _ => Or.inl⟩

theorem trans (h : Hides n a n' a') (h' : Hides n' a' n'' a'') : Hides n a n'' a'' where
  toDrops := h.toDrops.trans h'.toDrops
  melts := by
    obtain ⟨is, hm, rfl⟩ := h.melts
    obtain ⟨js, hm', rfl⟩ := h'.melts
    exact ⟨is ++ js, hm.trans hm', by rw [List.length_append, Nat.add_assoc]⟩
  follows v hv i c hc := by
    -- The binary clauses that the second part melts hold as well, because they follow from those that are left.
    have hbetween : ∀ d ∈ a'.bodies, d.length = 2 → Holds v d := by
      intro d hd h2
      obtain ⟨j, hd⟩ := Arena.mem_bodies.1 hd
      exact (h'.follows v hv j d hd).elim (fun hd => hv d (Arena.mem_bodies.2 ⟨j, hd⟩) h2) id
    exact (h.follows v hbetween i c hc).elim (h'.follows v hv i c) Or.inr

/-- A clause that follows from the other binary ones. -/
theorem one (ha : a.Wf) (hal : a.alive cref) (himplied : a.Implied cref) : Hides n a (n + 1) (a.melted cref) := by
  have hi := (Arena.alive_iff.1 hal).1
  refine ⟨.melted ha hi, ⟨[cref], .one hal, rfl⟩, fun v hv i c hc => ?_⟩
  by_cases he : i = cref
  · subst he
    refine Or.inr (himplied v c (fun j d hj hd => hv d (Arena.mem_bodies.2 ⟨j, ?_⟩)) hc)
    rw [Arena.body_melted hi, if_neg hj, hd]
  · exact Or.inl (by rw [Arena.body_melted hi, if_neg he, hc])

variable (h : Hides n a n' a')
include h

theorem preserves : Preserves a a' [] where
  down v hv c hc := by
    obtain ⟨i, hc⟩ := Arena.mem_bodies.1 hc
    exact hv.holds (h.body i c hc)
  up v hv c hc := by
    obtain ⟨i, hc⟩ := Arena.mem_bodies.1 hc
    exact (h.follows v (fun d hd _ => hv d hd) i c hc).elim hv.holds id

theorem count : n' + a'.mass ≤ n + a.mass := by
  obtain ⟨is, hm, rfl⟩ := h.melts
  have := hm.mass_le
  omega

theorem count_bodies : n' + a'.bodies.length ≤ n + a.bodies.length := by
  obtain ⟨is, hm, rfl⟩ := h.melts
  have := hm.length_bodies_le
  omega

end Hides

theorem Occurrences.Within.of_trims (h : t.Within a n) (hs : t.Sound a) (ht : a.Trims a') : t.Within a' n := by
  intro j i hi l hl
  exact h j i hi l ((ht.text i (hs.lt j i hi)).subset hl)

/-- What the pass does with one clause. -/
theorem removeHiddenAmong_cons (ha : a.Labelled) (hi : cref < a.len) :
    removeHiddenAmong t w v sizeLimit limit m a (cref :: crefs) = (
      if a.alive cref ∧ (a.clauseAt cref).size ≤ sizeLimit then do
        if ← isHidden a t w cref v limit then
          removeHiddenAmong t w v sizeLimit limit (← sum32 m 1) (a.melted cref) crefs
        else
          removeHiddenAmong t w v sizeLimit limit m a crefs
      else
        removeHiddenAmong t w v sizeLimit limit m a crefs) := by
  rw [removeHiddenAmong, Arena.clause_ok hi, ok_bind, ha.isLive_clauseAt hi, ok_bind]
  by_cases hguard : a.alive cref ∧ (a.clauseAt cref).size ≤ sizeLimit
  · rw [if_pos hguard, if_neg (by simpa using hguard)]
    simp only [Arena.melt_ok hi, ok_bind]
  · rw [if_neg hguard, if_pos (by simpa [or_iff_not_imp_left] using hguard)]

/-- The hidden tautologies among some clauses. -/
theorem removeHiddenAmong_ends (ha : a.Wf) (hs : t.Sound a) (hE : (∀ f, E f) ∨ t.Within a n ∧ n ≤ w.elected.capacity)
    (hnum : t.numVars = n) (hcrefs : ∀ i ∈ crefs, i ∈ t.listAt x) (hm : m + a.bodies.length < 2 ^ 32) :
    Ends E (removeHiddenAmong t w v sizeLimit limit m a crefs) fun s => Hides m a s.1 s.2 := by
  induction crefs generalizing a m with
  | nil => exact .refl ha m
  | cons cref crefs ih =>
    have hmem := hcrefs cref List.mem_cons_self
    have hi := hs.lt _ cref hmem
    have hrest := fun i hi => hcrefs i (List.mem_cons_of_mem _ hi)
    rw [removeHiddenAmong_cons ha.status hi]
    split
    · next hguard =>
      refine (isHidden_ends ha hs hE hnum hmem).bind fun b himplied => ?_
      split
      · next hb =>
        have hstep : Hides m a (m + 1) (a.melted cref) := .one ha hguard.1 (himplied hb)
        have hcount := hstep.count_bodies
        refine (ends_sum32 (Or.inr (by omega))).bind ?_
        rintro _ rfl
        exact (ih hstep.wf (hstep.sound hs) (hE.imp_right fun hE => ⟨hE.1.of_trims hs hstep.trims, hE.2⟩) hrest
          (by omega)).imp fun s h => hstep.trans h
      · exact ih ha hs hE hrest hm
    · exact ih ha hs hE hrest hm

/-- Removing the hidden tautologies among the clauses of the elected variables. -/
theorem removeHidden_ends {o : Options} {xs : List Nat} (ha : a.Wf) (hs : t.Sound a)
    (hE : (∀ f, E f) ∨ t.Within a n ∧ n ≤ w.elected.capacity) (hnum : t.numVars = n)
    (hvars : w.candidateVars = .ok xs) (hx : ∀ x ∈ xs, x < n ∧ x < 2 ^ 31) :
    Ends E (removeHidden o a t w) fun s => Hides 0 a s.1 s.2 := by
  have hbodies := ha.listable.length_bodies_lt
  unfold removeHidden
  rw [hvars, ok_bind]
  refine ends_foldlM (fun (_ : List Nat) (s : Nat × Arena) => Hides 0 a s.1 s.2) (.refl ha 0) ?_
  intro done x rest ⟨m, a₁⟩ hxs (h : Hides 0 a m a₁)
  obtain ⟨hxn, hx2⟩ := hx x (by rw [hxs]; simp)
  have hs₁ := h.sound hs
  have hE₁ := hE.imp_right fun hE => And.imp_left (fun hw => hw.of_trims hs h.trims) hE
  have hlp := index_lt_of_var hs₁ (hnum.symm ▸ hxn) (Lit.var_positive hx2)
  have hln := index_lt_of_var hs₁ (hnum.symm ▸ hxn) (Lit.var_negative hx2)
  have hcount := h.count_bodies
  simp only [hs₁.wf.occurs_ok hlp, hs₁.wf.occurs_ok hln, ok_bind]
  refine (removeHiddenAmong_ends h.wf hs₁ hE₁ hnum (fun _ => id) (by omega)).bind ?_
  intro ⟨m', a₂⟩ (h' : Hides m a₁ m' a₂)
  have hcount' := h'.count_bodies
  have hE₂ := hE₁.imp_right fun hE => And.imp_left (fun hw => hw.of_trims hs₁ h'.trims) hE
  exact (removeHiddenAmong_ends h'.wf (h'.sound hs₁) hE₂ hnum (fun _ => id) (by omega)).imp fun s h'' =>
    (h.trans h').trans h''

end CnfSimp
