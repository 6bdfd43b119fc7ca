import Mathlib
import CnfSimp.Text.Blank

/-!
# Lines and words

* `splitWhere_eq_splitOnP`: splitting is the library's, so `Text.words` are the parts between blanks that are not empty.
* `Text.trim`: a line without the blanks at its ends. Its first character is the first one of its first word
  (`Text.words_of_trim`).
* `splitOnP_concat`: how the parts of a list change with one more element at its end.
-/

namespace CnfSimp

variable {α : Type} {p : α → Bool} {x : α} {xs : List α}

theorem splitWhere_eq_splitOnP (p : α → Bool) (xs : List α) : splitWhere p xs = xs.splitOnP p := by
  induction xs with
  | nil => rfl
  | cons x xs ih =>
    obtain ⟨part, parts, hparts⟩ := List.exists_cons_of_ne_nil (List.splitOnP_ne_nil p xs)
    rw [List.splitOnP_cons_eq_if_modifyHead, ← ih]
    rw [← ih] at hparts
    show splitStep p x (splitWhere p xs) = _
    rw [hparts]
    rfl

/-- An element that does not separate goes to the last part. -/
theorem splitOnP_concat (hx : ¬p x) (xs : List α) : ∃ parts last, xs.splitOnP p = parts ++ [last] ∧
    (xs ++ [x]).splitOnP p = parts ++ [last ++ [x]] := by
  induction xs with
  | nil => exact ⟨[], [], rfl, by simp [List.splitOnP_cons_eq_if_modifyHead, hx]⟩
  | cons y xs ih =>
    obtain ⟨parts, last, h, hconcat⟩ := ih
    rw [List.cons_append, List.splitOnP_cons_eq_if_modifyHead, List.splitOnP_cons_eq_if_modifyHead, h, hconcat]
    by_cases hy : p y
    · exact ⟨[] :: parts, last, by simp [hy], by simp [hy]⟩
    · cases parts with
      | nil => exact ⟨[], y :: last, by simp [hy], by simp [hy]⟩
      | cons part parts => exact ⟨(y :: part) :: parts, last, by simp [hy], by simp [hy]⟩

/-- There is one part more than there are separators. -/
theorem length_splitOnP (p : α → Bool) (xs : List α) : (xs.splitOnP p).length = xs.countP p + 1 := by
  induction xs with
  | nil => rfl
  | cons x xs ih =>
    rw [List.splitOnP_cons_eq_if_modifyHead, List.countP_cons]
    split
    · rw [List.length_cons, ih]
    · rw [List.length_modifyHead, ih, Nat.add_zero]

/-- The parts have the elements that do not separate them. -/
theorem mem_splitOnP {y : α} : (∃ part ∈ xs.splitOnP p, y ∈ part) ↔ y ∈ xs ∧ ¬p y := by
  induction xs with
  | nil => simp
  | cons x xs ih =>
    obtain ⟨part, parts, hparts⟩ := List.exists_cons_of_ne_nil (List.splitOnP_ne_nil p xs)
    rw [List.splitOnP_cons_eq_if_modifyHead, hparts]
    rw [hparts, List.exists_mem_cons_iff] at ih
    have hne (h : p x ≠ p y) : y ≠ x := fun he => h (by rw [he])
    by_cases hx : p x
    · rw [if_pos hx, List.exists_mem_cons_iff, List.exists_mem_cons_iff, ih, List.mem_cons]
      constructor
      · rintro (h | ⟨h, hy⟩)
        · cases h
        · exact ⟨Or.inr h, hy⟩
      · rintro ⟨h, hy⟩
        exact Or.inr ⟨h.resolve_left (hne (by simp [hx, hy])), hy⟩
    · rw [if_neg hx, List.modifyHead_cons, List.exists_mem_cons_iff, List.mem_cons, List.mem_cons, or_assoc, ih]
      constructor
      · rintro (rfl | ⟨h, hy⟩)
        · exact ⟨Or.inl rfl, hx⟩
        · exact ⟨Or.inr h, hy⟩
      · rintro ⟨rfl | h, hy⟩
        · exact Or.inl rfl
        · exact Or.inr ⟨h, hy⟩

namespace Text

variable {c : Char} {cs : List Char}

/-- A line without the blanks at its ends. -/
def trim (cs : List Char) : List Char := (cs.dropWhile isBlank).rdropWhile isBlank

/-- The words of a line are the parts between its blanks that are not empty. -/
theorem words_eq (cs : List Char) : words cs = (cs.splitOnP isBlank).filter (!·.isEmpty) := by
  rw [words, splitWhere_eq_splitOnP]

theorem words_cons_of_blank (h : isBlank c) (cs : List Char) : words (c :: cs) = words cs := by
  rw [words_eq, words_eq, List.splitOnP_cons_eq_if_modifyHead, if_pos h]
  rfl

theorem words_cons_of_not_blank (h : ¬isBlank c) (cs : List Char) : ∃ w ws, words (c :: cs) = (c :: w) :: ws := by
  obtain ⟨part, parts, hparts⟩ := List.exists_cons_of_ne_nil (List.splitOnP_ne_nil isBlank cs)
  refine ⟨part, parts.filter (!·.isEmpty), ?_⟩
  rw [words_eq, List.splitOnP_cons_eq_if_modifyHead, if_neg h, hparts]
  rfl

theorem trim_cons_of_blank (h : isBlank c) (cs : List Char) : trim (c :: cs) = trim cs := by
  rw [trim, List.dropWhile_cons_of_pos h, trim]

theorem trim_cons_of_not_blank (h : ¬isBlank c) (cs : List Char) : ∃ rest, trim (c :: cs) = c :: rest := by
  rw [trim, List.dropWhile_cons_of_neg h, List.rdropWhile, List.reverse_cons, List.dropWhile_append]
  split
  · exact ⟨[], by simp [h]⟩
  · exact ⟨(cs.reverse.dropWhile isBlank).reverse, by simp⟩

/-- A line is blank exactly if it has no word; otherwise it starts, once trimmed, like its first word. -/
theorem words_of_trim (cs : List Char) : trim cs = [] ∧ words cs = [] ∨
    ∃ c rest w ws, trim cs = c :: rest ∧ words cs = (c :: w) :: ws := by
  induction cs with
  | nil => exact Or.inl ⟨rfl, rfl⟩
  | cons c cs ih =>
    by_cases h : isBlank c
    · rwa [trim_cons_of_blank h, words_cons_of_blank h]
    · obtain ⟨rest, hrest⟩ := trim_cons_of_not_blank h cs
      obtain ⟨w, ws, hws⟩ := words_cons_of_not_blank h cs
      exact Or.inr ⟨c, rest, w, ws, hrest, hws⟩

end Text

end CnfSimp
