import Mathlib
import CnfSimp.Arena.Blob
import CnfSimp.Proofs.Outcome

/-!
# Arenas as words, and back

* `Arena.wordPair_pairValue`, `Arena.pairValue_wordPair`: a 64-bit number and its two words.
* `Header.encode_decode_iff`: five words are those of a header if the last one has eight bits.
* `Arena.readHeaders_encode`, `Arena.readHeaders_spec`: what is read behind the counts.
* `Arena.ofBlob_eq_ok_iff`: the words that are read as an arena, and the arena.
* `Arena.clamped`: what an arena is read back as (`Arena.ofBlob_toBlob`); its counters show what they showed before.
* `blob_round_trip`: an arena is read back from its words with all that can be seen of it, and the words of an arena
  that was read are the same ones if they say nothing that the arena cannot hold.
-/

namespace CnfSimp

namespace Arena

variable {low high : UInt32} {n : Nat}

/-! ## Numbers of two words -/

theorem pairValue_lt (low high : UInt32) : pairValue low high < 2 ^ 64 := by
  have hl := low.toNat_lt
  have hh := high.toNat_lt
  unfold pairValue
  omega

/-- The words of the number of two words. -/
theorem wordPair_pairValue (low high : UInt32) : wordPair (pairValue low high) = [low, high] := by
  have hl := low.toNat_lt
  have hh := high.toNat_lt
  have hlow : UInt32.ofNat (pairValue low high) = low := by
    apply UInt32.toNat_inj.1
    simp only [UInt32.toNat_ofNat', pairValue]
    omega
  have hhigh : UInt32.ofNat (pairValue low high / 0x100000000) = high := by
    apply UInt32.toNat_inj.1
    simp only [UInt32.toNat_ofNat', pairValue]
    omega
  rw [wordPair, hlow, hhigh]

/-- The number of the words of a number. -/
theorem pairValue_wordPair (h : n < 2 ^ 64) : pairValue (.ofNat n) (.ofNat (n / 0x100000000)) = n := by
  simp only [pairValue, UInt32.toNat_ofNat']
  omega

/-- Two numbers with the same words are the same. -/
theorem wordPair_inj {m : Nat} (hm : m < 2 ^ 64) (hn : n < 2 ^ 64) : wordPair m = wordPair n ↔ m = n := by
  constructor
  · intro h
    simp only [wordPair, List.cons.injEq, and_true] at h
    rw [← pairValue_wordPair hm, ← pairValue_wordPair hn, h.1, h.2]
  · intro h
    rw [h]

end Arena

/-! ## Headers -/

namespace Header

open Arena

@[simp]
theorem length_encode (h : Header) : h.encode.length = 5 := rfl

theorem length_flatMap_encode (hs : List Header) : (hs.flatMap encode).length = 5 * hs.length := by
  simp [List.length_flatMap, Nat.mul_comm]

/-- Five words are those of the header read from them if the state has eight bits. -/
theorem encode_decode_iff {low high size sig state : UInt32} :
    (decode low high size sig state).encode = [low, high, size, sig, state] ↔ state < 256 := by
  have hstart : (UInt64.ofNat (low.toNat + 0x100000000 * high.toNat)).toNat = pairValue low high :=
    Nat.mod_eq_of_lt (pairValue_lt low high)
  have hpair := wordPair_pairValue low high
  simp only [wordPair, List.cons.injEq, and_true] at hpair
  have hstate : UInt32.ofNat (state.toNat % 128 + 128 * (decide (128 ≤ state.toNat)).toNat) = state ↔ state < 256 := by
    have hlt := state.toNat_lt
    rw [← UInt32.toNat_inj, UInt32.toNat_ofNat', UInt32.lt_iff_toNat_lt]
    by_cases h : 128 ≤ state.toNat <;> simp [h] <;> omega
  simp only [decode, encode, hstart, hpair.1, hpair.2, List.cons.injEq, true_and, and_true]
  exact hstate

end Header

namespace Arena

variable {words rest : List UInt32} {n : Nat} {a b : Arena}

/-- Headers are read back from their words. -/
theorem readHeaders_encode (hs : List Header) (rest : List UInt32) :
    readHeaders hs.length (hs.flatMap Header.encode ++ rest) = (hs, rest) := by
  induction hs with
  | nil => rfl
  | cons h hs ih =>
    obtain ⟨low, high, size, sig, state, hwords, hdecode⟩ := h.decode_encode
    simp [List.flatMap_cons, hwords, readHeaders, ih, hdecode]

/-- Where there are words enough, as many headers are read as asked for, and writing them gives the words back if their
states have eight bits. -/
theorem readHeaders_spec (h : 5 * n ≤ words.length) :
    (readHeaders n words).1.length = n ∧ (readHeaders n words).2.length + 5 * n = words.length ∧
      ((readHeaders n words).1.flatMap Header.encode ++ (readHeaders n words).2 = words ↔
        ∀ i < n, ∃ state, words[5 * i + 4]? = some state ∧ state < 256) := by
  induction n generalizing words with
  | zero => simp [readHeaders]
  | succ n ih =>
    obtain ⟨low, high, size, sig, state, rest, rfl⟩ :
        ∃ low high size sig state rest, words = low :: high :: size :: sig :: state :: rest := by
      match words, h with
      | low :: high :: size :: sig :: state :: rest, _ => exact ⟨low, high, size, sig, state, rest, rfl⟩
    simp only [List.length_cons] at h
    have hroom : 5 * n ≤ rest.length := by omega
    obtain ⟨hlength, hrest, hiff⟩ := ih hroom
    have hread : readHeaders (n + 1) (low :: high :: size :: sig :: state :: rest) =
        (Header.decode low high size sig state :: (readHeaders n rest).1, (readHeaders n rest).2) := rfl
    rw [hread]
    refine ⟨by simp [hlength], by simp only [List.length_cons]; omega, ?_⟩
    -- The first header takes up the first five words, the others the rest.
    have hsplit : (Header.decode low high size sig state :: (readHeaders n rest).1).flatMap Header.encode ++
          (readHeaders n rest).2 = low :: high :: size :: sig :: state :: rest ↔
        (Header.decode low high size sig state).encode = [low, high, size, sig, state] ∧
          (readHeaders n rest).1.flatMap Header.encode ++ (readHeaders n rest).2 = rest := by
      rw [List.flatMap_cons, List.append_assoc]
      constructor
      · intro heq
        exact List.append_inj (show _ ++ _ = [low, high, size, sig, state] ++ rest from heq) rfl
      · rintro ⟨hfirst, hothers⟩
        rw [hfirst, hothers]
        rfl
    rw [hsplit, Header.encode_decode_iff, hiff, Nat.forall_lt_succ_left]
    simp [Nat.mul_succ]

/-! ## Arenas -/

theorem length_toBlob (a : Arena) : a.toBlob.length = 6 + 5 * a.headers.size + a.cells.size := by
  simp [toBlob, wordPair]
  omega

/-- Which words are read as an arena, and as which one. -/
theorem ofBlob_eq_ok_iff : ofBlob words = .ok b ↔ ∃ cap litLow litHigh clauses countLow countHigh rest,
    words = cap :: litLow :: litHigh :: clauses :: countLow :: countHigh :: rest ∧
    rest.length = 5 * cap.toNat + pairValue litLow litHigh ∧ words.length < 2 ^ 64 ∧
    b = ⟨(readHeaders cap.toNat rest).1.toArray, ((readHeaders cap.toNat rest).2.map Lit.mk).toArray, clauses,
      .ofNat (pairValue countLow countHigh)⟩ := by
  constructor
  · intro h
    unfold ofBlob at h
    split at h
    · next cap litLow litHigh clauses countLow countHigh rest =>
      obtain ⟨size, hsum, h⟩ := bind_eq_ok_iff.1 h
      rw [sum64, ite_eq_ok_iff] at hsum
      obtain ⟨rfl, hlt⟩ := hsum
      simp only at h
      split at h
      · cases h
      · next hlength =>
        rw [not_not] at hlength
        refine ⟨cap, litLow, litHigh, clauses, countLow, countHigh, rest, rfl, by omega, ?_, (Except.ok.inj h).symm⟩
        simp only [List.length_cons]
        omega
    · cases h
  · rintro ⟨cap, litLow, litHigh, clauses, countLow, countHigh, rest, rfl, hlength, hlt, rfl⟩
    simp only [List.length_cons] at hlt
    have hsum : sum64 (6 + 5 * cap.toNat) (pairValue litLow litHigh) = .ok (rest.length + 6) := by
      rw [sum64_ok (by omega), hlength]
      exact congrArg Except.ok (by omega)
    simp only [ofBlob, hsum, ok_bind]
    rw [if_neg (not_not_intro rfl)]
    rfl

/-- The words of an arena tell its rows and its counts. -/
theorem toBlob_mk (hs : List Header) (lits : List UInt32) (clauses : UInt32) (count : UInt64) :
    toBlob ⟨hs.toArray, (lits.map Lit.mk).toArray, clauses, count⟩ =
      .ofNat hs.length :: wordPair lits.length ++ .ofNat (min clauses.toNat hs.length) ::
        wordPair (min count.toNat lits.length) ++ (hs.flatMap Header.encode ++ lits) := by
  simp [toBlob, capacity, litCapacity, len, numLits, Function.comp_def]

/-- The words of an arena that was read are the words it was read from, if these say nothing that it cannot hold. -/
theorem toBlob_eq_iff {cap litLow litHigh clauses countLow countHigh : UInt32}
    (hread : ofBlob (cap :: litLow :: litHigh :: clauses :: countLow :: countHigh :: rest) = .ok b) :
    b.toBlob = cap :: litLow :: litHigh :: clauses :: countLow :: countHigh :: rest ↔
      clauses ≤ cap ∧ pairValue countLow countHigh ≤ pairValue litLow litHigh ∧
        ∀ i < cap.toNat, ∃ state, rest[5 * i + 4]? = some state ∧ state < 256 := by
  obtain ⟨_, _, _, _, _, _, _, heq, hlength, -, rfl⟩ := ofBlob_eq_ok_iff.1 hread
  simp only [List.cons.injEq] at heq
  obtain ⟨rfl, rfl, rfl, rfl, rfl, rfl, rfl⟩ := heq
  have hroom : 5 * cap.toNat ≤ rest.length := by omega
  obtain ⟨hheaders, hlits, hstates⟩ := readHeaders_spec hroom
  have hcells : (readHeaders cap.toNat rest).2.length = pairValue litLow litHigh := by omega
  have hcount : (UInt64.ofNat (pairValue countLow countHigh)).toNat = pairValue countLow countHigh :=
    Nat.mod_eq_of_lt (pairValue_lt _ _)
  have hclauses : UInt32.ofNat (min clauses.toNat cap.toNat) = clauses ↔ clauses ≤ cap := by
    have hlt := clauses.toNat_lt
    rw [← UInt32.toNat_inj, UInt32.toNat_ofNat', UInt32.le_iff_toNat_le]
    omega
  have hpair : wordPair (min (pairValue countLow countHigh) (pairValue litLow litHigh)) = [countLow, countHigh] ↔
      pairValue countLow countHigh ≤ pairValue litLow litHigh := by
    have hlt := pairValue_lt countLow countHigh
    rw [← wordPair_pairValue countLow countHigh, wordPair_inj (by omega) hlt]
    exact min_eq_left_iff
  rw [toBlob_mk, hheaders, hcells, hcount, wordPair_pairValue, UInt32.ofNat_toNat, ← hclauses, ← hpair, ← hstates]
  simp [wordPair, and_assoc]

/-! ## Counters beyond the rows -/

/-- The arena with its counters brought down to its rows, which is as far as they can be seen. -/
def clamped (a : Arena) : Arena := { a with clauseCount := .ofNat a.len, litCount := .ofNat a.numLits }

theorem len_clamped (h : a.capacity < 2 ^ 32) : a.clamped.len = a.len := by
  have hlen : (UInt32.ofNat a.len).toNat = a.len := Nat.mod_eq_of_lt (Nat.lt_of_le_of_lt (Nat.min_le_right _ _) h)
  show min (UInt32.ofNat a.len).toNat a.capacity = a.len
  rw [hlen]
  exact Nat.min_eq_left (Nat.min_le_right _ _)

theorem numLits_clamped (h : a.litCapacity < 2 ^ 64) : a.clamped.numLits = a.numLits := by
  have hlits : (UInt64.ofNat a.numLits).toNat = a.numLits :=
    Nat.mod_eq_of_lt (Nat.lt_of_le_of_lt (Nat.min_le_right _ _) h)
  show min (UInt64.ofNat a.numLits).toNat a.litCapacity = a.numLits
  rw [hlits]
  exact Nat.min_eq_left (Nat.min_le_right _ _)

theorem litCapacity_lt (h : a.toBlob.length < 2 ^ 64) : a.litCapacity < 2 ^ 64 := by
  rw [length_toBlob] at h
  show a.cells.size < _
  omega

theorem toBlob_clamped (hcap : a.capacity < 2 ^ 32) (hlength : a.toBlob.length < 2 ^ 64) :
    a.clamped.toBlob = a.toBlob := by
  unfold toBlob
  rw [len_clamped hcap, numLits_clamped (litCapacity_lt hlength)]
  rfl

/-- Reading the words of an arena brings the counters down to the rows, and changes nothing else. -/
theorem ofBlob_toBlob (hcap : a.capacity < 2 ^ 32) (hlength : a.toBlob.length < 2 ^ 64) :
    ofBlob a.toBlob = .ok a.clamped := by
  have hslots : (UInt32.ofNat a.capacity).toNat = a.headers.toList.length := by
    rw [Array.length_toList]
    exact Nat.mod_eq_of_lt hcap
  have hcells := litCapacity_lt hlength
  have hcount : a.numLits < 2 ^ 64 := Nat.lt_of_le_of_lt (Nat.min_le_right _ _) hcells
  have hread := readHeaders_encode a.headers.toList (a.cells.toList.map Lit.code)
  rw [← hslots] at hread
  refine ofBlob_eq_ok_iff.2 ⟨_, _, _, _, _, _, a.headers.toList.flatMap Header.encode ++ a.cells.toList.map Lit.code,
    rfl, ?_, hlength, ?_⟩
  · rw [pairValue_wordPair hcells, hslots, List.length_append, Header.length_flatMap_encode, List.length_map]
    rfl
  · rw [pairValue_wordPair hcount, hread]
    simp [clamped, Function.comp_def]

end Arena

open Arena in
/-- An arena whose words can be counted is read back from them with the same rows, the same numbers of clauses and
literals, and the same words. Words that are read as an arena are the words of that arena if and only if the number of
clauses is at most that of slots, the number of literals at most that of cells, and every header state has eight
bits. -/
theorem blob_round_trip :
    (∀ a : Arena, a.capacity < 2 ^ 32 → a.toBlob.length < 2 ^ 64 → ∃ b, ofBlob a.toBlob = .ok b ∧
      b.capacity = a.capacity ∧ b.litCapacity = a.litCapacity ∧ b.len = a.len ∧ b.numLits = a.numLits ∧
      b.headers = a.headers ∧ b.cells = a.cells ∧ b.toBlob = a.toBlob) ∧
    ∀ words b, ofBlob words = .ok b → ∃ cap litLow litHigh clauses countLow countHigh rest,
      words = cap :: litLow :: litHigh :: clauses :: countLow :: countHigh :: rest ∧
      (b.toBlob = words ↔ clauses ≤ cap ∧ pairValue countLow countHigh ≤ pairValue litLow litHigh ∧
        ∀ i < cap.toNat, ∃ state, rest[5 * i + 4]? = some state ∧ state < 256) := by
  constructor
  · intro a hcap hlength
    exact ⟨a.clamped, ofBlob_toBlob hcap hlength, rfl, rfl, len_clamped hcap, numLits_clamped (litCapacity_lt hlength),
      rfl, rfl, toBlob_clamped hcap hlength⟩
  · intro words b hread
    obtain ⟨cap, litLow, litHigh, clauses, countLow, countHigh, rest, rfl, -⟩ := ofBlob_eq_ok_iff.1 hread
    exact ⟨cap, litLow, litHigh, clauses, countLow, countHigh, rest, rfl, toBlob_eq_iff hread⟩

/-- An arena with a melted clause, an unused slot and counters beyond its rows; and words with a state of nine bits. -/
theorem blob_round_trip_one_clause :
    let a : Arena := ⟨#[⟨0, 2, 5, 1, true⟩, .vacant], #[⟨0⟩, ⟨2⟩, ⟨7⟩], 7, 9⟩
    let words : List UInt32 := [1, 0, 0, 1, 0, 0, 0, 0, 0, 0, 256]
    (∃ b, Arena.ofBlob a.toBlob = .ok b ∧ b.len = 2 ∧ b.numLits = 3 ∧ b.headers = a.headers ∧ b.cells = a.cells ∧
      b.toBlob = a.toBlob) ∧
    ∃ b, Arena.ofBlob words = .ok b ∧ b.toBlob ≠ words := by
  intro a words
  obtain ⟨b, hread, _, _, hlen, hlits, hheaders, hcells, hwords⟩ := blob_round_trip.1 a (by decide) (by decide)
  refine ⟨⟨b, hread, hlen, hlits, hheaders, hcells, hwords⟩, _, rfl, ?_⟩
  obtain ⟨cap, _, _, _, _, _, rest, heq, hiff⟩ := blob_round_trip.2 words _ rfl
  simp only [words, List.cons.injEq] at heq
  obtain ⟨rfl, _, _, _, _, _, rfl⟩ := heq
  rw [Ne, hiff]
  simp

end CnfSimp
