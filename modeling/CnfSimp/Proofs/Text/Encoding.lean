import CnfSimp.Proofs.Text.Words

/-!
# Texts as bytes

The bytes of a text are those of its characters, and the byte of a line feed stands for a line feed only. So a text may
be split into lines before or after it is encoded.

* `toList_toUTF8`: the bytes of a text.
* `splitOn_toUTF8`: the rows of its bytes are the encoded lines, and each is read back as its line.
-/

namespace CnfSimp

variable {α β : Type} {p : α → Bool} {q : β → Bool} {f : α → List β}

/-- Elements that do not separate go to the first part. -/
theorem splitOnP_append_of_forall {ys : List β} (hys : ∀ y ∈ ys, ¬q y) (zs : List β) :
    (ys ++ zs).splitOnP q = (zs.splitOnP q).modifyHead (ys ++ ·) := by
  obtain ⟨part, parts, hparts⟩ := List.exists_cons_of_ne_nil (List.splitOnP_ne_nil q zs)
  induction ys with
  | nil => simp [hparts]
  | cons y ys ih =>
    rw [List.cons_append, List.splitOnP_cons_eq_if_modifyHead, if_neg (hys y List.mem_cons_self),
      ih fun z hz => hys z (List.mem_cons_of_mem _ hz), hparts]
    rfl

/-- Splitting may come first, where separators stand for separators, and nothing else does. -/
theorem splitOnP_flatMap (hsep : ∀ x, p x → ∃ y, f x = [y] ∧ q y) (hother : ∀ x, ¬p x → ∀ y ∈ f x, ¬q y)
    (xs : List α) : (xs.flatMap f).splitOnP q = (xs.splitOnP p).map fun part => part.flatMap f := by
  induction xs with
  | nil => rfl
  | cons x xs ih =>
    obtain ⟨part, parts, hparts⟩ := List.exists_cons_of_ne_nil (List.splitOnP_ne_nil p xs)
    rw [List.flatMap_cons, List.splitOnP_cons_eq_if_modifyHead]
    by_cases hx : p x
    · obtain ⟨y, hy, hq⟩ := hsep x hx
      rw [hy, List.singleton_append, List.splitOnP_cons_eq_if_modifyHead, if_pos hq, if_pos hx, ih]
      rfl
    · rw [splitOnP_append_of_forall (hother x hx), if_neg hx, ih, hparts]
      rfl

/-- The bytes of a row, from a position on. -/
theorem toList_loop (bytes : ByteArray) (i : Nat) (done : List UInt8) :
    ByteArray.toList.loop bytes i done = done.reverse ++ bytes.data.toList.drop i := by
  fun_induction ByteArray.toList.loop bytes i done with
  | case1 i done hlt ih =>
    have hi : i < bytes.data.toList.length := hlt
    have hget : bytes.get! i = bytes.data.toList[i] := getElem!_pos bytes.data i hlt
    rw [ih, List.drop_eq_getElem_cons hi, List.reverse_cons, List.append_assoc, hget]
    rfl
  | case2 i done hge =>
    rw [List.drop_eq_nil_of_le (Nat.not_lt.1 hge), List.append_nil]

/-- The bytes of a text are those of its characters. -/
theorem toList_toUTF8 (text : String) : text.toUTF8.toList = text.toList.flatMap String.utf8EncodeChar := by
  show ByteArray.toList.loop _ 0 [] = _
  rw [toList_loop, String.toUTF8, ← String.utf8Encode_toList, List.utf8Encode, List.toList_data_toByteArray]
  rfl

/-- Only a line feed has its byte: all bytes of longer characters are 128 at least. -/
theorem eq_of_mem_utf8EncodeChar {c : Char} (h : 10 ∈ String.utf8EncodeChar c) : c = '\n' := by
  have hhigh {k : Nat} (hlow : 128 ≤ k) (hlt : k < 256) : (10 : UInt8) ≠ .ofNat k := fun he => by
    have hk : k % 256 = 10 := (congrArg UInt8.toNat he).symm
    omega
  unfold String.utf8EncodeChar at h
  dsimp only at h
  split_ifs at h with hone htwo hthree
  · have hbyte : c.val.toNat % 256 = 10 := (congrArg UInt8.toNat (List.mem_singleton.1 h)).symm
    have hval : c.val.toNat = 10 := by omega
    exact Char.ext (UInt32.toNat_inj.1 hval)
  all_goals simp only [List.mem_cons, List.not_mem_nil, or_false] at h
  · rcases h with h | h
    all_goals exact absurd h (hhigh (by omega) (by omega))
  · rcases h with h | h | h
    all_goals exact absurd h (hhigh (by omega) (by omega))
  · rcases h with h | h | h | h
    all_goals exact absurd h (hhigh (by omega) (by omega))

/-- Encoded characters are read back. -/
theorem fromUTF8?_utf8Encode (cs : List Char) :
    (String.fromUTF8? ⟨(cs.flatMap String.utf8EncodeChar).toArray⟩).map String.toList = some cs := by
  have hbytes : (⟨(cs.flatMap String.utf8EncodeChar).toArray⟩ : ByteArray) = cs.utf8Encode :=
    ByteArray.ext (List.data_toByteArray (l := cs.flatMap String.utf8EncodeChar)).symm
  rw [hbytes, String.fromUTF8?, dif_pos (.intro cs rfl), Option.map_some]
  exact congrArg some String.toList_ofList

/-- The rows of the bytes of a text are its lines. -/
theorem splitOn_toUTF8 (text : String) :
    (text.toUTF8.toList.splitOn 10).map (fun row => (String.fromUTF8? ⟨row.toArray⟩).map String.toList) =
      (text.toList.splitOn '\n').map some := by
  rw [toList_toUTF8, List.splitOn_eq_splitOnP, List.splitOn_eq_splitOnP,
    splitOnP_flatMap (p := (· == '\n')) (fun c hc => ?_) fun c hc b hb hb' => hc ?_, List.map_map]
  · exact List.map_congr_left fun line _ => fromUTF8?_utf8Encode line
  · rw [eq_of_beq hc]
    exact ⟨10, by decide, by decide⟩
  · rw [eq_of_beq hb'] at hb
    rw [eq_of_mem_utf8EncodeChar hb]
    rfl

end CnfSimp
