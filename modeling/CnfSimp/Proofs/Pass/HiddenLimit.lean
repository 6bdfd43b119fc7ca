import CnfSimp.Proofs.Pass.HiddenRun

/-!
# The limit of hidden tautology elimination

The search for a hidden tautology stops when it is about to add a literal to an extension that is as long as the limit.
A clause that is longer than the limit itself never has an extension of that length, and the search is unlimited.

* `Arena.Links`: the binary clauses that the search may use. `Arena.Extended`: the extensions they lead to, in any
  order. `Arena.Closes`: two literals of an extension stand in one of them, so that the clause is a hidden tautology.
* `absorb_limited`, `extensionHidden_limited`, `isHidden_limited`: the search without a limit, and what a limit changes
  about it.
* `Arena.MeltsIf`, `removeHidden_found`: the clauses that the pass melts, each with what was found at its turn.
* `hidden_limit_exact`: where a limit counts. `hidden_past_limit`: a higher limit may find less.
-/

namespace CnfSimp

variable {E : Fault → Prop} {a a' : Arena} {t t₀ : Occurrences} {w : WorkingSet} {l k : Lit}
  {ext ext' ext'' : List Lit} {crefs : List Nat} {bref cref i v limit n : Nat}

/-! ## Extensions -/

namespace Arena

section Definitions

variable (a : Arena) (w : WorkingSet) (cref v : Nat)

/-- Some slot has such a clause. -/
def Links (l k : Lit) : Prop := ∃ i, a.LinkAt w cref v l k i

/-- The clause in slot `cref`, extended by the negation of `k` wherever `l` is in the extension and linked to `k`. -/
inductive Extended : List Lit → Prop
  | text : Extended (a.text cref)
  | snoc {ext : List Lit} {l k : Lit} : Extended ext → l ∈ ext → a.Links w cref v l k → k.not ∉ ext →
      Extended (ext ++ [k.not])

/-- The extension contains two linked literals: with one more literal it would be a tautology. -/
def Closes (ext : List Lit) : Prop := ∃ l ∈ ext, ∃ k ∈ ext, a.Links w cref v l k

/-- All that the literals are linked to is in the extension, negated. -/
def Saturated (ext lits : List Lit) : Prop := ∀ l ∈ lits, ∀ k, a.Links w cref v l k → k.not ∈ ext ∧ k ∉ ext

end Definitions

/-- Extending adds literals behind those of the clause. -/
theorem Extended.text_le (h : a.Extended w cref v ext) : a.text cref <+: ext := by
  induction h with
  | text => exact List.prefix_rfl
  | snoc _ _ _ _ ih => exact ih.trans (List.prefix_append _ _)

/-- A literal of an extension is of the clause, or it is the negation of a linked one. -/
theorem Extended.mem_cases (h : a.Extended w cref v ext) (hl : l ∈ ext) :
    l ∈ a.text cref ∨ ∃ m k, a.Links w cref v m k ∧ l = k.not := by
  induction h with
  | text => exact .inl hl
  | snoc _ _ hlink _ ih =>
    rcases List.mem_append.1 hl with hl | hl
    · exact ih hl
    · exact .inr ⟨_, _, hlink, List.mem_singleton.1 hl⟩

/-- An extension to which nothing can be added contains all others, and none of them closes. -/
theorem Saturated.not_closes (h : a.Saturated w cref v ext ext) (htext : a.text cref ⊆ ext)
    (hext' : a.Extended w cref v ext') : ¬a.Closes w cref v ext' := by
  have hsub : ext' ⊆ ext := by
    induction hext' with
    | text => exact htext
    | snoc _ hl hlink _ ih =>
      refine List.append_subset.2 ⟨ih, List.cons_subset.2 ⟨?_, List.nil_subset _⟩⟩
      exact (h _ (ih hl) _ hlink).1
  rintro ⟨l, hl, k, hk, hlink⟩
  exact (h l (hsub hl) k hlink).2 (hsub hk)

end Arena

/-! ## Tables -/

namespace Occurrences

/-- A legible table that lists all live clauses for all their literals. -/
structure Searchable (t : Occurrences) (a : Arena) : Prop extends t.Legible a where
  complete : ∀ l, t.Complete a l

/-- A table that was just built. -/
theorem Exact.searchable (h : t.Exact a) (ha : a.Listable) : t.Searchable a where
  wf := h.wf
  readable := ha.toReadable
  lt := h.sound.lt
  inside j i hi := ha.inside i (h.alive j i hi)
  mem := h.sound.mem
  complete := h.complete

/-- Clauses may be melted. -/
theorem Searchable.melted (h : t.Searchable a) (hi : i < a.len) : t.Searchable (a.melted i) where
  wf := h.wf
  readable := h.readable.melted hi
  lt j k hk := by
    rw [(Arena.trims_melted hi).len]
    exact h.lt j k hk
  inside j k hk := by
    rw [Arena.melted, Arena.header_withHeader (Nat.lt_of_lt_of_le hi a.len_le_slots)]
    split
    · next he => exact he ▸ h.inside j k hk
    · exact h.inside j k hk
  mem l k hk c hc := by
    rw [Arena.body_melted hi] at hc
    split at hc
    · cases hc
    · exact h.mem l k hk c hc
  complete l k c hc hl := by
    rw [Arena.body_melted hi] at hc
    split at hc
    · cases hc
    · exact h.complete l k c hc hl

theorem Searchable.melts {is : List Nat} (h : t.Searchable a) (hm : a.Melts is a') : t.Searchable a' := by
  induction hm with
  | nil => exact h
  | cons hi _ ih => exact ih (h.melted (Arena.alive_iff.1 hi).1)

/-- A live clause is listed for its literals. -/
theorem Searchable.listed (h : t.Searchable a) (hal : a.alive i) (hl : l ∈ a.text i) : i ∈ t.listAt l.index :=
  h.complete l i _ (Arena.body_eq_some_iff.2 ⟨hal, rfl⟩) hl

/-- A clause can be listed only for literals of the variables that are left. -/
theorem Searchable.lt_of_text (h : t.Searchable a) (hw : t.Within a n) (hal : a.alive i) (hl : l ∈ a.text i) :
    l.var < n :=
  hw l.index i (h.listed hal hl) l hl

/-- And only those variables occur in the extensions of a live clause. -/
theorem Searchable.lt_of_extended (h : t.Searchable a) (hw : t.Within a n) (hal : a.alive cref)
    (hext : a.Extended w cref v ext) (hl : l ∈ ext) : l.var < n := by
  rcases hext.mem_cases hl with hl | ⟨m, k, ⟨i, hlink⟩, rfl⟩
  · exact h.lt_of_text hw hal hl
  · rw [Lit.var_not]
    exact h.lt_of_text hw hlink.alive hlink.mem_text.2

end Occurrences

/-! ## The search -/

section Limits

variable {α : Type} {m m' : Nat}

/-- A search that does not grow is never stopped. -/
theorem limited_refl (r s : α) : (if limit < m ∨ m ≤ limit then r else s) = r := if_pos (Nat.lt_or_ge _ _)

/-- A search that grows in two parts is stopped in one of them. -/
theorem limited_trans (hm : m ≤ m') (hn : m' ≤ n) (r s : α) :
    (if limit < m ∨ m' ≤ limit then if limit < m' ∨ n ≤ limit then r else s else s) =
      if limit < m ∨ n ≤ limit then r else s := by
  by_cases hin : limit < m ∨ m' ≤ limit
  · rw [if_pos hin]
    exact if_congr (by omega) rfl rfl
  · rw [if_neg hin, if_neg (by omega)]

end Limits

section Search

variable (hs : t.Searchable a)
include hs

/-- What an extension has become: it is longer, still an extension, and no literal whose negation it had was added. -/
structure Grows (a : Arena) (w : WorkingSet) (cref v : Nat) (ext ext' : List Lit) : Prop where
  le : ext <+: ext'
  extended : a.Extended w cref v ext'
  apart : ∀ k, k.not ∈ ext → k ∉ ext → k ∉ ext'

omit hs in
theorem Grows.refl (h : a.Extended w cref v ext) : Grows a w cref v ext ext := ⟨List.prefix_rfl, h, fun _ _ hk => hk⟩

omit hs in
theorem Grows.mem (h : Grows a w cref v ext ext') (hl : l ∈ ext) : l ∈ ext' := h.le.subset hl

omit hs in
/-- Growing further after a literal whose negation was not there. -/
theorem Grows.of_snoc (hk : k ∉ ext) (h : Grows a w cref v (ext ++ [k.not]) ext') : Grows a w cref v ext ext' := by
  refine ⟨(List.prefix_append ext [k.not]).trans h.le, h.extended, fun m hm hnot => ?_⟩
  refine h.apart m (List.mem_append_left _ hm) fun hmem => ?_
  rcases List.mem_append.1 hmem with hmem | hmem
  · exact hnot hmem
  · rw [List.mem_singleton.1 hmem, Lit.not_not] at hm
    exact hk hm

omit hs in
theorem Grows.saturated {lits : List Lit} (h : Grows a w cref v ext ext') (hs : a.Saturated w cref v ext lits) :
    a.Saturated w cref v ext' lits := by
  intro l hl k hlink
  obtain ⟨hnot, hk⟩ := hs l hl k hlink
  exact ⟨h.mem hnot, h.apart k hnot hk⟩

omit hs in
theorem Grows.trans (h : Grows a w cref v ext ext') (h' : Grows a w cref v ext' ext'') : Grows a w cref v ext ext'' :=
  ⟨h.le.trans h'.le, h'.extended, fun k hk hnot => h'.apart k (h.mem hk) (h.apart k hk hnot)⟩

omit hs in
/-- Where the next literal is saturated as well, one more position is done. -/
theorem Occurrences.Searchable.saturated_take (hs : t.Searchable a) (h : Grows a w cref v ext ext')
    (hget : ext[i]? = some l) (hdone : a.Saturated w cref v ext (ext.take i))
    (hat : ∀ j ∈ t.listAt l.index, ∀ k, a.LinkAt w cref v l k j → k.not ∈ ext' ∧ k ∉ ext') :
    a.Saturated w cref v ext' (ext'.take (i + 1)) := by
  have htake : ext'.take (i + 1) = ext.take i ++ [l] := by
    obtain ⟨hi, -⟩ := List.getElem?_eq_some_iff.1 hget
    obtain ⟨rest, rfl⟩ := h.le
    rw [List.take_append_of_le_length hi, List.take_add_one, hget]
    rfl
  rw [htake]
  intro m hm k hlink
  rcases List.mem_append.1 hm with hm | hm
  · exact h.saturated hdone m hm k hlink
  · obtain rfl := List.mem_singleton.1 hm
    obtain ⟨j, hj⟩ := hlink
    exact hat j (hs.listed hj.alive hj.mem_text.1) k hj

/-- What extending by the binary clauses of a literal in some slots leads to without a limit, if it leads to `ext`. -/
def Extension.Leads (a : Arena) (w : WorkingSet) (cref v : Nat) (l : Lit) (crefs : List Nat) (ext : List Lit) :
    Extension → Prop
  | .tautology => a.Closes w cref v ext
  | .full => False
  | .grown e => e = ext ∧ ∀ i ∈ crefs, ∀ k, a.LinkAt w cref v l k i → k.not ∈ ext ∧ k ∉ ext

omit hs in
theorem Extension.Leads.cons {e : Extension} (h : e.Leads a w cref v l crefs ext)
    (hbref : ∀ k, a.LinkAt w cref v l k bref → k.not ∈ ext ∧ k ∉ ext) : e.Leads a w cref v l (bref :: crefs) ext := by
  cases e with
  | tautology => exact h
  | full => exact h
  | grown e => exact ⟨h.1, List.forall_mem_cons.2 ⟨hbref, h.2⟩⟩

/-- What extending by some binary clauses of a literal leads to without a limit, and what a limit changes about it: it
has to lie between the length at the beginning and the one at the end. -/
theorem absorb_limited (hE : (∀ f, E f) ∨ t.Within a n ∧ n ≤ w.elected.capacity) (hext : a.Extended w cref v ext)
    (hl : l ∈ ext) (hcrefs : ∀ i ∈ crefs, i ∈ t.listAt l.index) :
    ∃ r ext', Grows a w cref v ext ext' ∧
      (∀ limit, absorb a w cref v limit l ext crefs =
        if limit < ext.length ∨ ext'.length ≤ limit then r else .ok .full) ∧
      Ends E r (Extension.Leads a w cref v l crefs ext') := by
  induction crefs generalizing ext with
  | nil =>
    exact ⟨.ok (.grown ext), ext, .refl hext, fun _ => (limited_refl _ _).symm, rfl, List.forall_mem_nil _⟩
  | cons bref crefs ih =>
    have hrest := fun i hi => hcrefs i (List.mem_cons_of_mem _ hi)
    rcases absorb_cases hs.toLegible cref v ext crefs hE (hcrefs bref List.mem_cons_self) with
      ⟨heq, hdone⟩ | ⟨k, hk, hat, heq⟩ | ⟨k, hat, honly, hk, hnot, heq⟩ | ⟨f, hf, heq⟩
    · obtain ⟨r, ext', hgrows, hlimit, hends⟩ := ih hext hl hrest
      refine ⟨r, ext', hgrows, fun limit => by rw [heq, hlimit], hends.imp fun e h => h.cons fun k hk => ?_⟩
      obtain ⟨hnot, hk⟩ := hdone k hk
      exact ⟨hgrows.mem hnot, hgrows.apart k hnot hk⟩
    · exact ⟨.ok .tautology, ext, .refl hext, fun limit => by rw [heq, limited_refl], l, hl, k, hk, bref, hat⟩
    · obtain ⟨r, ext', hgrows, hlimit, hends⟩ :=
        ih (hext.snoc hl ⟨bref, hat⟩ hnot) (List.mem_append_left _ hl) hrest
      have hlen : ext.length + 1 ≤ ext'.length := by
        have := hgrows.le.length_le
        rwa [List.length_append, List.length_singleton] at this
      have hmem : k.not ∈ ext ++ [k.not] := List.mem_append_right _ (List.mem_singleton_self _)
      have hknot : k ∉ ext ++ [k.not] := by
        simpa using ⟨hk, Lit.ne_not k⟩
      refine ⟨r, ext', .of_snoc hk hgrows, fun limit => ?_, hends.imp fun e h => h.cons fun m hm => ?_⟩
      · rw [heq, hlimit, List.length_append, List.length_singleton, ← limited_trans (Nat.le_succ ext.length) hlen]
        by_cases hfull : ext.length = limit
        · rw [if_pos hfull, if_neg (by omega)]
        · rw [if_neg hfull]
          exact (if_pos (by omega)).symm
      · rw [honly m hm]
        exact ⟨hgrows.mem hmem, hgrows.apart k hmem hknot⟩
    · exact ⟨.error f, ext, .refl hext, fun limit => by rw [heq, limited_refl], hf⟩

/-- The same for the whole search, from any position on behind which everything is saturated. -/
theorem extensionHidden_limited (hE : (∀ f, E f) ∨ t.Within a n ∧ n ≤ w.elected.capacity ∧ litSlots n ≤ t.size)
    (hal : a.alive cref) (hext : a.Extended w cref v ext) (hdone : a.Saturated w cref v ext (ext.take i)) :
    ∃ r ext', Grows a w cref v ext ext' ∧
      (∀ limit, extensionHidden a t w cref v limit i ext =
        if limit < ext.length ∨ ext'.length ≤ limit then r else .ok false) ∧
      Ends E r fun hit => if hit then a.Closes w cref v ext' else a.Saturated w cref v ext' ext' := by
  induction hm : unseen a ext + ext.length - i using Nat.strong_induction_on generalizing i ext with
  | _ m ih =>
  cases hget : ext[i]? with
  | none =>
    refine ⟨.ok false, ext, .refl hext, fun limit => ?_, ?_⟩
    · rw [limited_refl, extensionHidden]
      split
      · rfl
      · next h => simp [h] at hget
    · rwa [List.take_of_length_le (List.getElem?_eq_none_iff.1 hget)] at hdone
  | some l =>
    have hl := List.mem_of_getElem? hget
    obtain ⟨hi, -⟩ := List.getElem?_eq_some_iff.1 hget
    have hlist : Ends E (t.occurs l) (· = t.listAt l.index) := by
      refine hs.wf.occurs_ends (hE.imp_right fun hE => ?_)
      exact Nat.lt_of_lt_of_le (Lit.index_lt_litSlots (hs.lt_of_extended hE.1 hal hext hl)) hE.2.2
    simp only [extensionHidden_eq hget]
    cases hoccurs : t.occurs l with
    | error f =>
      exact ⟨.error f, ext, .refl hext, fun _ => (limited_refl _ _).symm, hlist.of_error hoccurs⟩
    | ok brefs =>
      obtain rfl := hlist.of_ok hoccurs
      obtain ⟨r₁, ext₁, hgrows, hlimit, hends⟩ :=
        absorb_limited hs (hE.imp_right fun hE => ⟨hE.1, hE.2.1⟩) hext hl
          fun i (hi : i ∈ t.listAt l.index) => hi
      have hlen := hgrows.le.length_le
      simp only [ok_bind, hlimit]
      cases r₁ with
      | error f =>
        refine ⟨.error f, ext₁, hgrows, fun limit => ?_, hends⟩
        split <;> rfl
      | ok r₁ =>
        cases r₁ with
        | tautology =>
          refine ⟨.ok true, ext₁, hgrows, fun limit => ?_, hends⟩
          split <;> rfl
        | full => exact hends.elim
        | grown e =>
          obtain ⟨rfl, hat⟩ := hends
          have hmeasure := absorb_measure ((hlimit e.length).trans (if_pos (Or.inr (Nat.le_refl _))))
          have hdone' := hs.saturated_take hgrows hget hdone hat
          obtain ⟨r, ext', hgrows', hlimit', hends'⟩ := ih _ (by omega) hgrows.extended hdone' rfl
          refine ⟨r, ext', hgrows.trans hgrows', fun limit => ?_, hends'⟩
          rw [← limited_trans hlen hgrows'.le.length_le, ← hlimit']
          split <;> rfl

/-- The search in a live clause. It does not depend on the limit where the clause is longer than the limit. -/
theorem isHidden_limited (hE : (∀ f, E f) ∨ t.Within a n ∧ n ≤ w.elected.capacity ∧ litSlots n ≤ t.size)
    (hal : a.alive cref) :
    ∃ r ext, a.Extended w cref v ext ∧
      (∀ limit, isHidden a t w cref v limit =
        if limit < (a.text cref).length ∨ ext.length ≤ limit then r else .ok false) ∧
      Ends E r fun hit =>
        if hit then a.Closes w cref v ext else ∀ ext', a.Extended w cref v ext' → ¬a.Closes w cref v ext' := by
  obtain ⟨r, ext, hgrows, hlimit, hends⟩ :=
    extensionHidden_limited (v := v) hs hE hal .text (i := 0) fun l hl => absurd hl List.not_mem_nil
  refine ⟨r, ext, hgrows.extended, fun limit => ?_, hends.imp ?_⟩
  · rw [isHidden, hs.readable.lits_ok hal, ok_bind, hlimit]
  · rintro (_ | _) h
    · exact fun ext' hext' => h.not_closes hgrows.le.subset hext'
    · exact h

end Search

/-! ## The pass -/

/-- Live clauses are melted, one after another, each of which satisfies a condition at its turn. -/
inductive Arena.MeltsIf (P : Arena → Nat → Prop) : Arena → List Nat → Arena → Prop
  | nil (a : Arena) : MeltsIf P a [] a
  | cons {a a' : Arena} {i : Nat} {is : List Nat} : a.alive i → P a i → MeltsIf P (a.melted i) is a' →
      MeltsIf P a (i :: is) a'

namespace Arena.MeltsIf

variable {P : Arena → Nat → Prop} {is js pre post : List Nat}

theorem trans (h : a.MeltsIf P is a') (h' : a'.MeltsIf P js a'') : a.MeltsIf P (is ++ js) a'' := by
  induction h with
  | nil => exact h'
  | cons hal hi _ ih => exact .cons hal hi (ih h')

theorem melts (h : a.MeltsIf P is a') : a.Melts is a' := by
  induction h with
  | nil => exact .nil _
  | cons hal _ _ ih => exact .cons hal ih

/-- A clause at its turn. -/
theorem at_turn (h : a.MeltsIf P is a') (his : is = pre ++ i :: post) :
    a.Melts pre (a.meltedAll pre) ∧ (a.meltedAll pre).alive i ∧ P (a.meltedAll pre) i := by
  induction h generalizing pre with
  | nil => simp at his
  | cons hal hi _ ih =>
    cases pre with
    | nil =>
      obtain ⟨rfl, -⟩ := List.cons.inj his
      exact ⟨.nil _, hal, hi⟩
    | cons j pre =>
      obtain ⟨rfl, hrest⟩ := List.cons.inj (his.trans List.cons_append)
      obtain ⟨hmelts, hturn⟩ := ih hrest
      exact ⟨.cons hal hmelts, hturn⟩

end Arena.MeltsIf

/-- What the pass finds before it melts a clause. -/
def FoundHidden (t : Occurrences) (w : WorkingSet) (xs : List Nat) (sizeLimit limit : Nat) (b : Arena) (i : Nat) :
    Prop :=
  ∃ x ∈ xs, (Lit.positive x ∈ b.text i ∨ Lit.negative x ∈ b.text i) ∧ (b.text i).length ≤ sizeLimit ∧
    isHidden b t w i x limit = .ok true

variable {xs : List Nat} {x m sizeLimit : Nat}

/-- The pass melts what it finds among the clauses of a literal. -/
theorem removeHiddenAmong_found (hs : t.Searchable a) (hx : x ∈ xs) (hl : l = .positive x ∨ l = .negative x)
    (hcrefs : ∀ i ∈ crefs, i ∈ t.listAt l.index) :
    Ends (fun _ => True) (removeHiddenAmong t w x sizeLimit limit m a crefs) fun s =>
      ∃ is, a.MeltsIf (FoundHidden t w xs sizeLimit limit) is s.2 ∧ s.1 = m + is.length := by
  induction crefs generalizing a m with
  | nil => exact ⟨[], .nil a, rfl⟩
  | cons cref crefs ih =>
    have hmem := hcrefs cref List.mem_cons_self
    have hi := hs.lt _ cref hmem
    have hrest := fun i hi => hcrefs i (List.mem_cons_of_mem _ hi)
    rw [removeHiddenAmong_cons hs.readable.status hi]
    split
    · next hguard =>
      obtain ⟨hal, hsize⟩ := hguard
      cases hrun : isHidden a t w cref x limit with
      | error f => trivial
      | ok hit =>
        rw [ok_bind]
        cases hit with
        | false => exact ih hs hrest
        | true =>
          have hmem : l ∈ a.text cref := hs.mem l cref hmem _ (Arena.body_eq_some_iff.2 ⟨hal, rfl⟩)
          have hfound : FoundHidden t w xs sizeLimit limit a cref := by
            refine ⟨x, hx, ?_, (hs.readable.length_text hal).trans_le hsize, hrun⟩
            rcases hl with rfl | rfl
            · exact .inl hmem
            · exact .inr hmem
          refine (ends_sum32 (Or.inl trivial)).bind ?_
          rintro _ rfl
          refine (ih (hs.melted hi) hrest).imp ?_
          rintro s ⟨is, hmelts, hn⟩
          refine ⟨cref :: is, .cons hal hfound hmelts, ?_⟩
          rw [hn, List.length_cons]
          omega
    · exact ih hs hrest

/-- And among all clauses of the elected variables. -/
theorem removeHidden_found {o : Options} (hs : t.Searchable a) (hvars : w.candidateVars = .ok xs) :
    Ends (fun _ => True) (removeHidden o a t w) fun s =>
      ∃ is, a.MeltsIf (FoundHidden t w xs (toWord o.hiddenSizeLimit) (toWord o.extensionLimit)) is s.2 ∧
        s.1 = is.length := by
  unfold removeHidden
  rw [hvars, ok_bind]
  refine ends_foldlM (fun (_ : List Nat) (s : Nat × Arena) => ∃ is,
    a.MeltsIf (FoundHidden t w xs (toWord o.hiddenSizeLimit) (toWord o.extensionLimit)) is s.2 ∧ s.1 = is.length)
    ⟨[], .nil a, rfl⟩ ?_
  rintro done x rest ⟨m, a₁⟩ hxs ⟨is, hmelts, hm⟩
  have hx : x ∈ xs := by simp [hxs]
  have hs₁ := hs.melts hmelts.melts
  refine (hs₁.wf.occurs_ends (Or.inl fun _ => trivial)).bind ?_
  rintro _ rfl
  refine (removeHiddenAmong_found hs₁ hx (Or.inl rfl) fun _ => id).bind ?_
  rintro ⟨m', a₂⟩ ⟨is', hmelts', hm'⟩
  have hs₂ := hs₁.melts hmelts'.melts
  refine (hs₂.wf.occurs_ends (Or.inl fun _ => trivial)).bind ?_
  rintro _ rfl
  refine (removeHiddenAmong_found hs₂ hx (Or.inr rfl) fun _ => id).imp ?_
  rintro s ⟨is'', hmelts'', hn⟩
  refine ⟨is ++ (is' ++ is''), hmelts.trans (hmelts'.trans hmelts''), ?_⟩
  simp only [List.length_append]
  omega

/-- What the limit of the search for hidden tautologies does. The table was just built, and clauses may have been melted
since. Without the limit the search comes to some extension, and answers whether that closes; if it does not, no
extension closes. The limit counts only for clauses that are not longer, and only if that extension is longer. So a
higher limit loses a hidden tautology exactly where the clause was longer than the lower limit and is not longer than
the higher one, but its extension is. Of each clause that the pass melts an extension closes at its turn, and if that is
longer than the limit, then so is the clause. -/
theorem hidden_limit_exact {o : Options} {a : Arena} {t₀ t : Occurrences} {w : WorkingSet} (ha : a.Listable)
    (hbuild : t₀.build a = .ok t) :
    (∀ is b, a.Melts is b → ∀ cref, b.alive cref → ∀ x, ∃ r ext, b.Extended w cref x ext ∧
      (∀ limit, isHidden b t w cref x limit =
        if limit < (b.text cref).length ∨ ext.length ≤ limit then r else .ok false) ∧
      (r = .ok true → b.Closes w cref x ext) ∧
      (r = .ok false → ∀ ext', b.Extended w cref x ext' → ¬b.Closes w cref x ext') ∧
      (a.Below t.numVars → t.numVars ≤ w.elected.capacity → ∃ hit, r = .ok hit) ∧
      ∀ limit limit', limit ≤ limit' → isHidden b t w cref x limit = .ok true →
        (isHidden b t w cref x limit' ≠ .ok true ↔
          limit < (b.text cref).length ∧ (b.text cref).length ≤ limit' ∧ limit' < ext.length)) ∧
    ∀ n a', removeHidden o a t w = .ok (n, a') → ∃ xs is, w.candidateVars = .ok xs ∧ a.Melts is a' ∧ n = is.length ∧
      ∀ pre i post, is = pre ++ i :: post → ∃ x ∈ xs, (Lit.positive x ∈ a.text i ∨ Lit.negative x ∈ a.text i) ∧
        (a.text i).length ≤ toWord o.hiddenSizeLimit ∧
        ∃ ext, (a.meltedAll pre).Extended w i x ext ∧ (a.meltedAll pre).Closes w i x ext ∧
          (ext.length ≤ toWord o.extensionLimit ∨ toWord o.extensionLimit < (a.text i).length) := by
  obtain ⟨hexact, -⟩ := (Occurrences.build_ends_of_listable (E := fun _ => True) ha
    (Or.inl fun _ => trivial)).of_ok hbuild
  have hs := hexact.searchable ha
  refine ⟨fun is b hmelts cref hal x => ?_, fun n a' hrun => ?_⟩
  · have hb := hs.melts hmelts
    -- Faults are excluded only where all marks are there.
    obtain ⟨r, ext, hext, hlimit, hends⟩ := isHidden_limited
      (E := fun _ => ¬(a.Below t.numVars ∧ t.numVars ≤ w.elected.capacity)) (n := t.numVars) (v := x) (w := w) hb (by
        by_cases h : a.Below t.numVars ∧ t.numVars ≤ w.elected.capacity
        · refine .inr ⟨fun j i hi l hl => ?_, h.2, Nat.le_of_eq hexact.size.symm⟩
          rw [hmelts.text] at hl
          have hbody := Arena.body_eq_some_iff.2 ⟨hexact.alive j i hi, rfl⟩
          exact h.1 _ (Arena.mem_bodies.2 ⟨i, hbody⟩) l hl
        · exact .inl fun _ => h) hal
    refine ⟨r, ext, hext, hlimit, ?_, ?_, fun hbelow hcap => ?_, fun limit limit' hle hfound => ?_⟩
    · rintro rfl
      exact hends
    · rintro rfl
      exact hends
    · cases r with
      | ok hit => exact ⟨hit, rfl⟩
      | error f => exact absurd ⟨hbelow, hcap⟩ hends
    · rw [hlimit] at hfound ⊢
      by_cases hin : limit < (b.text cref).length ∨ ext.length ≤ limit
      · rw [if_pos hin] at hfound
        subst hfound
        by_cases hin' : limit' < (b.text cref).length ∨ ext.length ≤ limit'
        · rw [if_pos hin']
          exact iff_of_false (not_not.2 rfl) (by omega)
        · rw [if_neg hin']
          exact iff_of_true (by simp) (by omega)
      · rw [if_neg hin] at hfound
        simp at hfound
  · obtain ⟨xs, hvars, -⟩ := bind_eq_ok_iff.1 hrun
    obtain ⟨is, hmelts, hn⟩ := (removeHidden_found hs hvars).of_ok hrun
    refine ⟨xs, is, hvars, hmelts.melts, hn, fun pre i post his => ?_⟩
    obtain ⟨hpre, hal, x, hx, hl, hsize, hhit⟩ := hmelts.at_turn his
    obtain ⟨r, ext, hext, hlimit, hends⟩ := isHidden_limited (E := fun _ => True) (n := 0) (v := x) (w := w)
      (hs.melts hpre) (Or.inl fun _ => trivial) hal
    rw [hlimit] at hhit
    rw [hpre.text] at hl hsize hhit
    split at hhit
    · next hin =>
      subst hhit
      exact ⟨x, hx, hl, hsize, ext, hext, hends, hin.symm⟩
    · simp at hhit

/-- With `x₀ ∨ x₄` and `¬x₄ ∨ x₂` the clause `x₀ ∨ x₂` has the extension `x₀ ∨ x₂ ∨ ¬x₄`, which closes. -/
theorem hidden_limit_exact_three_clauses : ∃ a t w s, electIn [[1, 3], [1, 5], [-5, 3]] 5 [0] = .ok (a, t, w) ∧
    removeHidden {} a t w = .ok s ∧
      (∃ r ext, a.Extended w 0 0 ext ∧
        ∀ limit, isHidden a t w 0 0 limit = if limit < 2 ∨ ext.length ≤ limit then r else .ok false) ∧
      ∃ is, a.Melts is s.2 ∧ 1 = is.length := by
  have hrun : (do
      let r ← electIn [[1, 3], [1, 5], [-5, 3]] 5 [0]
      let s ← removeHidden {} r.1 r.2.1 r.2.2
      return (r.1.alive 0, (r.1.text 0).length, s.1)) = .ok (true, 2, 1) := by decide +kernel
  simp only [bind_eq_ok_iff, pure, Except.pure, Except.ok.injEq, Prod.mk.injEq] at hrun
  obtain ⟨⟨a, t, w⟩, hset, s, hs, hal, hlen, hone⟩ := hrun
  obtain ⟨ha, _, _, hbuild, _⟩ := electIn_ok (by decide) (by decide) hset
  obtain ⟨hsearch, hpass⟩ := hidden_limit_exact ha.listable hbuild
  obtain ⟨r, ext, hext, hlimit, _⟩ := hsearch [] a (.nil a) 0 hal 0
  obtain ⟨_, is, _, hmelts, hn, _⟩ := hpass s.1 s.2 hs
  exact ⟨a, t, w, s, hset, hs, ⟨r, ext, hext, fun limit => hlen ▸ hlimit limit⟩, is, hmelts, hone ▸ hn⟩

/-- With a limit of one literal the pass melts it as well, although none of its extensions is that short. With a limit
of two the search does not find the longer extension. -/
theorem hidden_past_limit : ∃ a t w s, ({ extensionLimit := 1 } : Options).validate = .ok () ∧
    electIn [[1, 3], [1, 5], [-5, 3]] 5 [0] = .ok (a, t, w) ∧ removeHidden { extensionLimit := 1 } a t w = .ok s ∧
      a.alive 0 ∧ s.2.alive 0 = false ∧ (∀ ext, a.Extended w 0 0 ext → ¬ext.length ≤ 1) ∧
      isHidden a t w 0 0 1 = .ok true ∧ isHidden a t w 0 0 2 = .ok false := by
  have hrun : (do
      let r ← electIn [[1, 3], [1, 5], [-5, 3]] 5 [0]
      let s ← removeHidden { extensionLimit := 1 } r.1 r.2.1 r.2.2
      return (r.1.alive 0, s.2.alive 0, (r.1.text 0).length, ← isHidden r.1 r.2.1 r.2.2 0 0 1,
        ← isHidden r.1 r.2.1 r.2.2 0 0 2)) = .ok (true, false, 2, true, false) := by decide +kernel
  simp only [bind_eq_ok_iff, pure, Except.pure, Except.ok.injEq, Prod.mk.injEq] at hrun
  obtain ⟨⟨a, t, w⟩, hset, s, hs, _, hone, _, htwo, hal, hgone, hlen, rfl, rfl⟩ := hrun
  refine ⟨a, t, w, s, by decide, hset, hs, hal, hgone, fun ext hext hle => ?_, hone, htwo⟩
  have htext : (a.text 0).length = 2 := hlen
  have := hext.text_le.length_le
  omega

end CnfSimp
