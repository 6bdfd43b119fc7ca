import Mathlib
import CnfSimp.Text.Numeral
import CnfSimp.Proofs.Outcome

/-!
# Which texts are integers

* `Text.IsDecimal cs n`: the characters are ASCII digits, at least one, and `n` is their value in base ten; leading
  zeros are allowed. `Text.IsPlain` allows a plus sign in front.
* `Text.IsUnsigned`, `Text.IsSigned`: integers of a given width. Their readers answer exactly these
  (`Text.readUnsigned_ok_iff`, `Text.readSigned_ok_iff`).
-/

namespace CnfSimp.Text

variable {bits max n value : Nat} {beyond : NumeralError} {low : Option Nat} {cs digits : List Char} {i : Int}

/-- The value of a digit. -/
def digitValue (c : Char) : Nat := c.toNat - '0'.toNat

/-- The characters are the number in ASCII digits. -/
structure IsDecimal (cs : List Char) (n : Nat) : Prop where
  nonempty : cs ≠ []
  digits : ∀ c ∈ cs, c.isDigit
  value : n = Nat.ofDigits 10 (cs.map digitValue).reverse

/-- The characters are the number in digits, or in digits behind a plus sign. -/
def IsPlain (cs : List Char) (n : Nat) : Prop :=
  IsDecimal cs n ∨ ∃ digits, cs = '+' :: digits ∧ IsDecimal digits n

/-- The characters are an unsigned integer of the given width. -/
def IsUnsigned (bits : Nat) (cs : List Char) (n : Nat) : Prop :=
  IsPlain cs n ∧ n < 2 ^ bits

/-- The characters are a signed integer of the given width. -/
def IsSigned (bits : Nat) (cs : List Char) (i : Int) : Prop :=
  ((∃ n : Nat, IsPlain cs n ∧ i = n) ∨ ∃ digits, ∃ n : Nat, cs = '-' :: digits ∧ IsDecimal digits n ∧ i = -n) ∧
    -2 ^ (bits - 1) ≤ i ∧ i < 2 ^ (bits - 1)

theorem isDigit_iff {c : Char} : '0' ≤ c ∧ c ≤ '9' ↔ c.isDigit := by
  simp [Char.isDigit, Char.le_def]

theorem readDigits_cons (max : Nat) (beyond : NumeralError) (value : Nat) (c : Char) (cs : List Char) :
    readDigits max beyond value (c :: cs) = if c.isDigit then
      if 10 * value + digitValue c ≤ max then readDigits max beyond (10 * value + digitValue c) cs else .error beyond
    else .error .invalidDigit := by
  simp only [readDigits, isDigit_iff]
  rfl

/-- Digits are read from the left; what has been read counts ten times as much with every further one. -/
theorem readDigits_ok_iff (h : value ≤ max) : readDigits max beyond value cs = .ok n ↔
    (∀ c ∈ cs, c.isDigit) ∧ n = 10 ^ cs.length * value + Nat.ofDigits 10 (cs.map digitValue).reverse ∧ n ≤ max := by
  induction cs generalizing value with
  | nil =>
    constructor
    · rintro ⟨⟩
      exact ⟨nofun, by simp, h⟩
    · rintro ⟨_, rfl, _⟩
      simp [readDigits]
  | cons c cs ih =>
    have hvalue : 10 ^ (c :: cs).length * value + Nat.ofDigits 10 ((c :: cs).map digitValue).reverse =
        10 ^ cs.length * (10 * value + digitValue c) + Nat.ofDigits 10 (cs.map digitValue).reverse := by
      rw [List.map_cons, Nat.ofDigits_reverse_cons, List.length_map, List.length_cons]
      ring
    rw [readDigits_cons, hvalue, List.forall_mem_cons]
    by_cases hc : c.isDigit
    · rw [if_pos hc]
      by_cases hle : 10 * value + digitValue c ≤ max
      · rw [if_pos hle, ih hle, and_iff_right hc]
      · rw [if_neg hle]
        refine ⟨nofun, ?_⟩
        rintro ⟨_, rfl, hmax⟩
        have hone : 1 ≤ 10 ^ cs.length := Nat.one_le_pow _ _ (by decide)
        have hgrow := Nat.mul_le_mul_right (10 * value + digitValue c) hone
        omega
    · rw [if_neg hc]
      exact ⟨nofun, fun hd => absurd hd.1.1 hc⟩

/-- Digits alone. -/
theorem readDigits_zero_ok_iff (hne : cs ≠ []) : readDigits max beyond 0 cs = .ok n ↔ IsDecimal cs n ∧ n ≤ max := by
  rw [readDigits_ok_iff (Nat.zero_le _), Nat.mul_zero, Nat.zero_add]
  constructor
  · rintro ⟨hd, hn, hle⟩
    exact ⟨⟨hne, hd, hn⟩, hle⟩
  · rintro ⟨⟨_, hd, hn⟩, hle⟩
    exact ⟨hd, hn, hle⟩

/-- What is in digits starts with a digit. -/
theorem IsDecimal.head {c : Char} (h : IsDecimal (c :: cs) n) : c.isDigit := h.digits c List.mem_cons_self

theorem isPlain_plus : IsPlain ('+' :: digits) n ↔ IsDecimal digits n := by
  constructor
  · rintro (h | ⟨_, he, h⟩)
    · exact absurd h.head (by decide)
    · cases he
      exact h
  · exact fun h => Or.inr ⟨digits, rfl, h⟩

theorem isPlain_iff {c : Char} (hc : c ≠ '+') : IsPlain (c :: cs) n ↔ IsDecimal (c :: cs) n := by
  refine ⟨?_, Or.inl⟩
  rintro (h | ⟨_, he, _⟩)
  · exact h
  · cases he
    exact absurd rfl hc

theorem readDigits_map_ok_iff (hne : cs ≠ []) : (readDigits max beyond 0 cs).map Int.ofNat = .ok i ↔
    ∃ n : Nat, IsDecimal cs n ∧ n ≤ max ∧ i = n := by
  simp only [map_eq_ok_iff, readDigits_zero_ok_iff hne, and_assoc]
  rfl

/-- What the reader of integers answers, by sign. -/
theorem readInt_ok_iff : readInt low max cs = .ok i ↔
    (∃ n : Nat, IsPlain cs n ∧ n ≤ max ∧ i = n) ∨
      ∃ l digits, ∃ n : Nat, low = some l ∧ cs = '-' :: digits ∧ IsDecimal digits n ∧ n ≤ l ∧ i = -n := by
  unfold readInt
  split
  · refine ⟨nofun, ?_⟩
    rintro (⟨n, (h | ⟨_, ⟨⟩, _⟩), _⟩ | ⟨_, _, _, _, ⟨⟩, _⟩)
    exact absurd rfl h.nonempty
  · refine ⟨nofun, ?_⟩
    rintro (⟨n, h, _⟩ | ⟨_, _, _, _, ⟨⟩, _⟩)
    exact absurd rfl (isPlain_plus.1 h).nonempty
  · refine ⟨nofun, ?_⟩
    rintro (⟨n, h, _⟩ | ⟨_, _, _, _, ⟨⟩, h, _⟩)
    · exact absurd ((isPlain_iff (by decide)).1 h).head (by decide)
    · exact absurd rfl h.nonempty
  · next digits hne =>
    rw [readDigits_map_ok_iff hne]
    simp only [isPlain_plus]
    refine ⟨Or.inl, fun h => h.resolve_right ?_⟩
    rintro ⟨_, _, _, _, ⟨⟩, _⟩
  · next digits l hne =>
    rw [map_eq_ok_iff]
    constructor
    · rintro ⟨_, hx, rfl⟩
      obtain ⟨n, hn, hx⟩ := bind_eq_ok_iff.1 hx
      cases hx
      obtain ⟨hd, hle⟩ := (readDigits_zero_ok_iff hne).1 hn
      exact Or.inr ⟨l, digits, n, rfl, rfl, hd, hle, rfl⟩
    · rintro (⟨n, h, _⟩ | ⟨_, _, n, ⟨⟩, ⟨⟩, hd, hle, rfl⟩)
      · exact absurd ((isPlain_iff (by decide)).1 h).head (by decide)
      · exact ⟨n, bind_eq_ok_iff.2 ⟨n, (readDigits_zero_ok_iff hne).2 ⟨hd, hle⟩, rfl⟩, rfl⟩
  · next hnil _ _ hplus hminus =>
    obtain ⟨c, cs, rfl⟩ := List.exists_cons_of_ne_nil hnil
    have hc : c ≠ '+' := fun he => hplus cs (by rw [he])
    rw [readDigits_map_ok_iff hnil]
    simp only [isPlain_iff hc]
    refine ⟨Or.inl, fun h => h.resolve_right ?_⟩
    rintro ⟨l, digits, n, hl, he, _⟩
    exact hminus digits l he hl

/-- The reader of unsigned integers answers exactly these. -/
theorem readUnsigned_ok_iff : readUnsigned bits cs = .ok n ↔ IsUnsigned bits cs n := by
  have hmax : (1 <<< bits) - 1 = 2 ^ bits - 1 := by rw [Nat.one_shiftLeft]
  have hpos : 0 < 2 ^ bits := Nat.two_pow_pos bits
  unfold readUnsigned IsUnsigned
  rw [bind_eq_ok_iff, hmax]
  simp only [readInt_ok_iff]
  constructor
  · rintro ⟨_, ⟨m, hm, hle, rfl⟩ | ⟨_, _, _, ⟨⟩, _⟩, he⟩
    cases he
    exact ⟨hm, by simp; omega⟩
  · rintro ⟨hn, hlt⟩
    exact ⟨n, Or.inl ⟨n, hn, by omega, rfl⟩, rfl⟩

/-- The reader of signed integers answers exactly these. -/
theorem readSigned_ok_iff : readSigned bits cs = .ok i ↔ IsSigned bits cs i := by
  have hpos : 0 < 2 ^ (bits - 1) := Nat.two_pow_pos _
  have hcast : ((2 ^ (bits - 1) : Nat) : Int) = 2 ^ (bits - 1) := by push_cast; rfl
  unfold readSigned IsSigned
  rw [readInt_ok_iff, Nat.one_shiftLeft]
  constructor
  · rintro (⟨n, hn, hle, rfl⟩ | ⟨_, digits, n, ⟨⟩, rfl, hn, hle, rfl⟩)
    · exact ⟨Or.inl ⟨n, hn, rfl⟩, by omega, by omega⟩
    · exact ⟨Or.inr ⟨digits, n, rfl, hn, rfl⟩, by omega, by omega⟩
  · rintro ⟨⟨n, hn, rfl⟩ | ⟨digits, n, rfl, hn, rfl⟩, hlow, hhigh⟩
    · exact Or.inl ⟨n, hn, by omega, rfl⟩
    · exact Or.inr ⟨_, digits, n, rfl, rfl, hn, by omega, rfl⟩

/-- A text is at most one integer. -/
theorem IsUnsigned.unique {m : Nat} (hm : IsUnsigned bits cs m) (hn : IsUnsigned bits cs n) : m = n :=
  Except.ok.inj ((readUnsigned_ok_iff.2 hm).symm.trans (readUnsigned_ok_iff.2 hn))

end CnfSimp.Text
