import CnfSimp.Dimacs.Reader
import CnfSimp.Proofs.Text.Numeral
import CnfSimp.Proofs.Text.Words

/-!
# The DIMACS grammar

A line is of the kind that its first character, blanks apart, says. The grammar is stated line by line, each with the
lines before it, and the clauses from the literals of all lines together.

* `Dimacs.InOrder before line`: the line may follow the lines before it. `Dimacs.Grammatical`: all lines may.
* `Dimacs.Tokens`, `Dimacs.clausesOf`: the literals and zeros of all lines, and the clauses that they make.
* `Dimacs.readLine_step`: what one line does to what has been read (`Dimacs.Reads`).
* `ofText_grammar`: a text is read exactly if its lines are grammatical, and otherwise the first line that is not in
  order is reported.
-/

namespace CnfSimp.Dimacs

open Text Problem

/-! ## Lines -/

/-- What a line is for. -/
inductive LineKind where
  | silent
  | header
  | literals
  deriving DecidableEq

/-- The kind of a line, by its first character that is no blank. -/
def lineKind (line : List Char) : LineKind :=
  match trim line with
  | [] | 'c' :: _ | '%' :: _ => .silent
  | 'p' :: _ => .header
  | _ => .literals

/-- The word is a nonzero literal or a zero: a 32-bit integer other than the least one. -/
def IsLiteral (word : List Char) (i : Int) : Prop := IsSigned 32 word i ∧ i ≠ -2 ^ 31

/-- A header of `vars` variables and `count` clauses. Its first word may be any that starts with `p`, and more words may
follow. -/
def Announces (line : List Char) (vars count : Nat) : Prop :=
  ∃ first varsWord countWord more, words line = first :: ['c', 'n', 'f'] :: varsWord :: countWord :: more ∧
    IsUnsigned 32 varsWord vars ∧ IsUnsigned 64 countWord count

/-- The line may follow the lines before it. -/
structure InOrder (before : List (List Char)) (line : List Char) : Prop where
  header : lineKind line = .header → ∃ vars count, Announces line vars count
  opened : lineKind line = .literals → ∃ h ∈ before, lineKind h = .header
  literals : lineKind line = .literals → ∀ word ∈ words line, ∃ i, IsLiteral word i

theorem InOrder.of_silent {before : List (List Char)} {line : List Char} (h : lineKind line = .silent) :
    InOrder before line := by
  constructor <;> simp [h]

theorem InOrder.of_header {before : List (List Char)} {line : List Char} {vars count : Nat}
    (h : lineKind line = .header) (ha : Announces line vars count) : InOrder before line where
  header _ := ⟨vars, count, ha⟩
  opened := by simp [h]
  literals := by simp [h]

/-- Line number `k`, counted from zero, may not follow the lines before it. -/
def Violates (lines : List (List Char)) (k : Nat) : Prop := ∃ line, lines[k]? = some line ∧ ¬InOrder (lines.take k) line

/-- Every line may follow the lines before it. -/
def Grammatical (lines : List (List Char)) : Prop := ∀ k, ¬Violates lines k

/-- The words of all lines of literals. Where one line ends and the next begins is lost. -/
def literalWords (lines : List (List Char)) : List (List Char) :=
  (lines.filter (lineKind · = .literals)).flatMap words

/-- The integers in the lines of literals, in order. -/
def Tokens (lines : List (List Char)) (tokens : List Int) : Prop := List.Forall₂ IsLiteral (literalWords lines) tokens

/-- The parts of a list of integers between its zeros; the last one counts only if it is not empty. -/
def clausesOf (tokens : List Int) : List (List Int) :=
  let parts := tokens.splitOn 0
  if parts.getLast? = some [] then parts.dropLast else parts

/-- Room for the clauses that a header announces, on top of those ended before it, 24 bytes for each. -/
def HasRoom (tokens : List Int) (count : Nat) : Prop := 24 * (tokens.count 0 + count) < 2 ^ 63

instance {tokens : List Int} {count : Nat} : Decidable (HasRoom tokens count) := inferInstanceAs (Decidable (_ < _))

/-- Every header announces few enough clauses. -/
def Reservable (lines : List (List Char)) : Prop :=
  ∀ k line vars count tokens, lines[k]? = some line → lineKind line = .header → Announces line vars count →
    Tokens (lines.take k) tokens → HasRoom tokens count

variable {line : List Char} {word : List Char} {lines before after : List (List Char)} {earlier later tokens : List Int}
  {r r' : Reading} {vars count : Nat} {i : Int}

theorem literalWords_append (before after : List (List Char)) :
    literalWords (before ++ after) = literalWords before ++ literalWords after := by
  simp [literalWords]

theorem literalWords_singleton (line : List Char) :
    literalWords [line] = if lineKind line = .literals then words line else [] := by
  by_cases h : lineKind line = .literals <;> simp [literalWords, h]

theorem Tokens.append (h : Tokens before earlier) (h' : Tokens after later) :
    Tokens (before ++ after) (earlier ++ later) := by
  unfold Tokens
  rw [literalWords_append]
  exact List.rel_append h h'

/-! ## What the reader sees of a line -/

/-- A line is read according to its kind. -/
theorem readLine_eq (r : Reading) (line : List Char) : readLine r (words line) = match lineKind line with
    | .silent => .ok (.ok r)
    | .header => r.readHeader (words line)
    | .literals =>
      if r.header then do return .ok (← (words line).foldlM Reading.readLit r) else .error .clauseBeforeHeader := by
  unfold lineKind
  rcases words_of_trim line with ⟨ht, hw⟩ | ⟨c, rest, w, ws, ht, hw⟩
  · rw [ht, hw]
    rfl
  · rw [ht, hw]
    by_cases hc : c = 'c'
    · subst hc
      rfl
    by_cases hpercent : c = '%'
    · subst hpercent
      rfl
    by_cases hp : c = 'p'
    · subst hp
      rfl
    simp [readLine, hc, hpercent, hp]

/-- What reading an integer adds: the end of a clause, or a literal of the open one. -/
def add (r : Reading) (i : Int) : Reading :=
  if i = 0 then { r with clauses := r.clauses.push r.pending.reverse, pending := [] }
  else { r with numVars := max r.numVars i.natAbs, pending := i :: r.pending }

theorem readLit_ok_iff : r.readLit word = .ok r' ↔ ∃ i, IsLiteral word i ∧ r' = add r i := by
  unfold Reading.readLit
  rw [bind_eq_ok_iff]
  refine exists_congr fun i => ?_
  rw [mapError_eq_ok_iff, readSigned_ok_iff, IsLiteral, and_assoc]
  refine and_congr_right fun hi => ?_
  have hmin : (-0x80000000 : Int) = -2 ^ 31 := rfl
  rw [hmin]
  by_cases hlow : i = -2 ^ 31
  · rw [if_pos hlow]
    exact ⟨nofun, fun h => absurd hlow h.1⟩
  · rw [if_neg hlow]
    show (if i = 0 then _ else _) = _ ↔ _
    rw [and_iff_right hlow, add]
    split <;> exact ⟨fun h => (Except.ok.inj h).symm, fun h => congrArg _ h.symm⟩

/-- Words are read one by one, all of them or none. -/
theorem foldlM_readLit_ok_iff {ws : List (List Char)} : ws.foldlM Reading.readLit r = .ok r' ↔
    ∃ tokens, List.Forall₂ IsLiteral ws tokens ∧ r' = tokens.foldl add r := by
  induction ws generalizing r with
  | nil =>
    constructor
    · rintro ⟨⟩
      exact ⟨[], .nil, rfl⟩
    · rintro ⟨_, ⟨⟩, rfl⟩
      rfl
  | cons word ws ih =>
    rw [List.foldlM_cons, bind_eq_ok_iff]
    constructor
    · rintro ⟨_, hword, hws⟩
      obtain ⟨i, hi, rfl⟩ := readLit_ok_iff.1 hword
      obtain ⟨tokens, htokens, rfl⟩ := ih.1 hws
      exact ⟨i :: tokens, .cons hi htokens, rfl⟩
    · rintro ⟨_, ⟨⟩, rfl⟩
      next i tokens hi htokens => exact ⟨_, readLit_ok_iff.2 ⟨i, hi, rfl⟩, ih.2 ⟨tokens, htokens, rfl⟩⟩

/-- A header is read if it announces something; room is asked for then. -/
theorem readHeader_of_announces (h : Announces line vars count) (hsize : r.clauses.size = tokens.count 0) :
    r.readHeader (words line) = .ok (if HasRoom tokens count then .ok { r with numVars := vars, header := true }
      else .error .capacityOverflow) := by
  obtain ⟨first, varsWord, countWord, more, hw, hvars, hcount⟩ := h
  rw [hw, Reading.readHeader, readUnsigned_ok_iff.2 hvars, readUnsigned_ok_iff.2 hcount]
  show (if 24 * (r.clauses.size + count) < 2 ^ 63 then _ else _) = _
  rw [hsize]
  show (if HasRoom tokens count then _ else _) = _
  split <;> rfl

theorem readHeader_error (h : ¬∃ vars count, Announces line vars count) (r : Reading) :
    ∃ flaw, r.readHeader (words line) = .error flaw := by
  cases hread : r.readHeader (words line) with
  | error flaw => exact ⟨flaw, rfl⟩
  | ok x =>
    refine absurd ?_ h
    unfold Reading.readHeader at hread
    split at hread
    · next first kind varsWord countWord more hw =>
      by_cases hkind : kind = ['c', 'n', 'f']
      · subst hkind
        obtain ⟨vars, hvars, hread⟩ := bind_eq_ok_iff.1 hread
        obtain ⟨count, hcount, _⟩ := bind_eq_ok_iff.1 hread
        rw [mapError_eq_ok_iff, readUnsigned_ok_iff] at hvars hcount
        exact ⟨vars, count, first, varsWord, countWord, more, hw, hvars, hcount⟩
      · rw [if_pos hkind] at hread
        cases hread
    · cases hread

/-! ## What has been read -/

/-- The lines behind the first list start with the last header, which announces so many variables; or there is no
header yet, and then nothing but silent lines. -/
def LastHeader (before after : List (List Char)) (vars : Nat) : Prop :=
  (∃ h rest count, after = h :: rest ∧ lineKind h = .header ∧ Announces h vars count ∧
    ∀ line ∈ rest, lineKind line ≠ .header) ∨
  (before = [] ∧ (∀ line ∈ after, lineKind line = .silent) ∧ vars = 0)

/-- One more line behind the last header; before the first one there are only silent lines. -/
theorem LastHeader.append (h : LastHeader before after vars) (hline : lineKind line ≠ .header)
    (hkind : lineKind line = .silent ∨ ∃ h ∈ before ++ after, lineKind h = .header) :
    LastHeader before (after ++ [line]) vars := by
  rcases h with ⟨hd, rest, count, rfl, hhd, ha, hrest⟩ | ⟨rfl, hsilent, rfl⟩
  · refine Or.inl ⟨hd, rest ++ [line], count, rfl, hhd, ha, fun l hl => ?_⟩
    rcases List.mem_append.1 hl with hl | hl
    · exact hrest l hl
    · rwa [List.mem_singleton.1 hl]
  · rcases hkind with hkind | ⟨hd, hmem, hhd⟩
    · refine Or.inr ⟨rfl, fun l hl => ?_, rfl⟩
      rcases List.mem_append.1 hl with hl | hl
      · exact hsilent l hl
      · rwa [List.mem_singleton.1 hl]
    · rw [hsilent hd hmem] at hhd
      cases hhd

/-- What has been read from the lines up to the last header, and from those behind. -/
structure Reads (before after : List (List Char)) (earlier later : List Int) (vars : Nat) (r : Reading) : Prop where
  early : Tokens before earlier
  late : Tokens after later
  last : LastHeader before after vars
  /-- Before the first header there is nothing to read. -/
  quiet : (∀ line ∈ before, lineKind line ≠ .header) → earlier = []
  header : r.header ↔ ∃ h ∈ before ++ after, lineKind h = .header
  numVars : r.numVars = later.foldl (fun n i => max n i.natAbs) vars
  parts : (earlier ++ later).splitOn 0 = r.clauses.toList ++ [r.pending.reverse]

/-- What has been read from some lines. -/
def ReadsTo (done : List (List Char)) (r : Reading) : Prop :=
  ∃ before after earlier later vars, done = before ++ after ∧ Reads before after earlier later vars r

theorem readsTo_start : ReadsTo [] .start :=
  ⟨[], [], [], [], 0, rfl, .nil, .nil, Or.inr ⟨rfl, nofun, rfl⟩, fun _ => rfl, ⟨nofun, nofun⟩, rfl, rfl⟩

/-- Reading an integer keeps to the split at the zeros. -/
theorem splitOn_add (h : tokens.splitOn 0 = r.clauses.toList ++ [r.pending.reverse]) (i : Int) :
    (tokens ++ [i]).splitOn 0 = (add r i).clauses.toList ++ [(add r i).pending.reverse] := by
  unfold add
  by_cases hi : i = 0
  · subst hi
    rw [List.splitOn_eq_splitOnP, List.splitOnP_append_cons _ _ rfl, ← List.splitOn_eq_splitOnP, h]
    simp
  · obtain ⟨parts, last, hparts, hconcat⟩ := splitOnP_concat (p := (· == 0)) (x := i) (by simpa using hi) tokens
    rw [List.splitOn_eq_splitOnP] at h ⊢
    rw [hconcat]
    rw [h] at hparts
    obtain ⟨hclauses, hpending⟩ := List.append_inj' hparts rfl
    rw [if_neg hi, hclauses, ← List.cons.inj hpending |>.1]
    simp

/-- Reading integers one after the other. -/
theorem splitOn_foldl_add (h : earlier.splitOn 0 = r.clauses.toList ++ [r.pending.reverse]) (tokens : List Int) :
    (earlier ++ tokens).splitOn 0 = (tokens.foldl add r).clauses.toList ++ [(tokens.foldl add r).pending.reverse] := by
  induction tokens generalizing earlier r with
  | nil => simpa using h
  | cons i tokens ih => simpa using ih (splitOn_add h i)

theorem numVars_foldl_add (tokens : List Int) (r : Reading) :
    (tokens.foldl add r).numVars = tokens.foldl (fun n i => max n i.natAbs) r.numVars := by
  induction tokens generalizing r with
  | nil => rfl
  | cons i tokens ih =>
    have hadd : (add r i).numVars = max r.numVars i.natAbs := by
      unfold add
      split
      · next hi => simp [hi]
      · rfl
    rw [List.foldl_cons, ih, hadd, List.foldl_cons]

theorem header_foldl_add (tokens : List Int) (r : Reading) : (tokens.foldl add r).header = r.header := by
  induction tokens generalizing r with
  | nil => rfl
  | cons i tokens ih =>
    rw [List.foldl_cons, ih]
    unfold add
    split <;> rfl

namespace Reads

variable (h : Reads before after earlier later vars r)
include h

theorem whole : Tokens (before ++ after) (earlier ++ later) := h.early.append h.late

/-- As many clauses have ended as there are zeros. -/
theorem size : r.clauses.size = (earlier ++ later).count 0 := by
  have hlength := length_splitOnP (· == 0) (earlier ++ later)
  rw [← List.splitOn_eq_splitOnP, h.parts, List.length_append, List.length_singleton, Array.length_toList] at hlength
  exact Nat.add_right_cancel hlength

theorem append_silent (hline : lineKind line = .silent) : Reads before (after ++ [line]) earlier later vars r := by
  have hnone : Tokens [line] [] := by
    rw [Tokens, literalWords_singleton, hline]
    exact .nil
  have hlast := h.last.append (by simp [hline]) (Or.inl hline)
  refine ⟨h.early, by simpa using h.late.append hnone, hlast, h.quiet, ?_, h.numVars, h.parts⟩
  rw [h.header]
  simp [← List.append_assoc, hline, or_and_right, exists_or]

/-- Without a header there is nothing to read. -/
theorem eq_nil_of_no_header (hno : ∀ line ∈ before ++ after, lineKind line ≠ .header) : earlier ++ later = [] := by
  have hearlier := h.quiet fun line hl => hno line (List.mem_append_left _ hl)
  rcases h.last with ⟨hd, rest, count, rfl, hhd, _⟩ | ⟨_, hsilent, _⟩
  · exact absurd hhd (hno hd (by simp))
  · have hwords : literalWords after = [] := by
      simp +contextual [literalWords, hsilent]
    have hlate := h.late
    rw [Tokens, hwords, List.forall₂_nil_left_iff] at hlate
    rw [hearlier, hlate, List.append_nil]

theorem append_header (hline : lineKind line = .header) {vars' count : Nat} (ha : Announces line vars' count) :
    Reads (before ++ after) [line] (earlier ++ later) [] vars' { r with numVars := vars', header := true } := by
  have hnone : Tokens [line] [] := by
    rw [Tokens, literalWords_singleton, hline]
    exact .nil
  refine ⟨h.whole, hnone, Or.inl ⟨line, [], count, rfl, hline, ha, nofun⟩, h.eq_nil_of_no_header, ?_, rfl, ?_⟩
  · exact ⟨fun _ => ⟨line, by simp, hline⟩, fun _ => rfl⟩
  · rw [List.append_nil]
    exact h.parts

theorem append_literals (hline : lineKind line = .literals) (hr : r.header)
    (ht : List.Forall₂ IsLiteral (words line) tokens) :
    Reads before (after ++ [line]) earlier (later ++ tokens) vars (tokens.foldl add r) := by
  have hone : Tokens [line] tokens := by
    rw [Tokens, literalWords_singleton, if_pos hline]
    exact ht
  obtain ⟨hd, hmem, hhd⟩ := h.header.1 hr
  have hlast : LastHeader before (after ++ [line]) vars := h.last.append (by simp [hline]) (Or.inr ⟨hd, hmem, hhd⟩)
  refine ⟨h.early, h.late.append hone, hlast, h.quiet, ?_, ?_, ?_⟩
  · rw [header_foldl_add]
    exact ⟨fun _ => ⟨hd, by simpa [← List.append_assoc] using Or.inl hmem, hhd⟩, fun _ => hr⟩
  · rw [numVars_foldl_add, h.numVars, List.foldl_append]
  · rw [← List.append_assoc]
    exact splitOn_foldl_add h.parts tokens

end Reads

/-! ## One line -/

variable {done : List (List Char)}

/-- Every element of a list has a partner in a related one. -/
theorem exists_of_forall₂ {α β : Type} {R : α → β → Prop} {xs : List α} {ys : List β} (h : List.Forall₂ R xs ys) :
    ∀ x ∈ xs, ∃ y, R x y := by
  induction h with
  | nil => nofun
  | cons hi _ ih => exact List.forall_mem_cons.2 ⟨⟨_, hi⟩, ih⟩

theorem exists_tokens {ws : List (List Char)} (h : ∀ word ∈ ws, ∃ i, IsLiteral word i) :
    ∃ tokens, List.Forall₂ IsLiteral ws tokens := by
  induction ws with
  | nil => exact ⟨[], .nil⟩
  | cons word ws ih =>
    obtain ⟨i, hi⟩ := h word List.mem_cons_self
    obtain ⟨tokens, ht⟩ := ih fun w hw => h w (List.mem_cons_of_mem _ hw)
    exact ⟨i :: tokens, .cons hi ht⟩

/-- A line that is not in order is an error, and one that is gets read, unless it announces too many clauses. -/
theorem readLine_step (h : ReadsTo done r) (line : List Char) :
    (¬InOrder done line ∧ ∃ flaw, readLine r (words line) = .error flaw) ∨
    (InOrder done line ∧ ∃ r', readLine r (words line) = .ok (.ok r') ∧ ReadsTo (done ++ [line]) r') ∨
    (lineKind line = .header ∧ (∃ vars count tokens, Announces line vars count ∧ Tokens done tokens ∧
      ¬HasRoom tokens count) ∧ readLine r (words line) = .ok (.error .capacityOverflow)) := by
  obtain ⟨before, after, earlier, later, vars, rfl, hr⟩ := h
  rw [readLine_eq]
  cases hline : lineKind line with
  | silent =>
    refine Or.inr (Or.inl ⟨.of_silent hline, r, rfl, ?_⟩)
    exact ⟨before, after ++ [line], earlier, later, vars, List.append_assoc .., hr.append_silent hline⟩
  | header =>
    by_cases ha : ∃ vars count, Announces line vars count
    · obtain ⟨vars', count, ha⟩ := ha
      simp only [readHeader_of_announces ha hr.size]
      by_cases hroom : HasRoom (earlier ++ later) count
      · rw [if_pos hroom]
        refine Or.inr (Or.inl ⟨.of_header hline ha, _, rfl, ?_⟩)
        exact ⟨before ++ after, [line], earlier ++ later, [], vars', rfl, hr.append_header hline ha⟩
      · rw [if_neg hroom]
        exact Or.inr (Or.inr ⟨trivial, ⟨vars', count, _, ha, hr.whole, hroom⟩, rfl⟩)
    · exact Or.inl ⟨fun hin => ha (hin.header hline), readHeader_error ha r⟩
  | literals =>
    by_cases hopen : r.header
    · simp only [hopen, if_true]
      cases hread : (words line).foldlM Reading.readLit r with
      | ok r' =>
        obtain ⟨tokens, ht, rfl⟩ := foldlM_readLit_ok_iff.1 hread
        refine Or.inr (Or.inl ⟨⟨by simp [hline], fun _ => hr.header.1 hopen, fun _ => ?_⟩, _, rfl, ?_⟩)
        · exact exists_of_forall₂ ht
        · exact ⟨before, after ++ [line], earlier, later ++ tokens, vars, List.append_assoc ..,
            hr.append_literals hline hopen ht⟩
      | error flaw =>
        refine Or.inl ⟨fun hin => ?_, flaw, rfl⟩
        obtain ⟨tokens, ht⟩ := exists_tokens (hin.literals hline)
        rw [foldlM_readLit_ok_iff.2 ⟨tokens, ht, rfl⟩] at hread
        cases hread
    · simp only [hopen]
      exact Or.inl ⟨fun hin => hopen (hr.header.2 (hin.opened hline)), _, rfl⟩

/-! ## All lines -/

/-- Where lines are read to their end, they are text, and all of them have been read. -/
theorem readLines_ok {rows : List (Option (List Char))} {k : Nat} (h : ReadsTo done r)
    (hread : readLines k r rows = .ok r') : ∃ rest, rows = rest.map some ∧ ReadsTo (done ++ rest) r' := by
  induction rows generalizing k done r with
  | nil =>
    cases hread
    exact ⟨[], rfl, by simpa using h⟩
  | cons row rows ih =>
    cases row with
    | none => cases hread
    | some line =>
      rw [readLines] at hread
      rcases readLine_step h line with ⟨_, flaw, hline⟩ | ⟨_, r₁, hline, hr₁⟩ | ⟨_, _, hline⟩
      · rw [hline] at hread
        cases hread
      · rw [hline] at hread
        obtain ⟨rest, rfl, hrest⟩ := ih hr₁ hread
        exact ⟨line :: rest, rfl, by simpa using hrest⟩
      · rw [hline] at hread
        cases hread

theorem violates_length {rest : List (List Char)} :
    Violates (done ++ line :: rest) done.length ↔ ¬InOrder done line := by
  simp [Violates]

/-- Where every header announces few enough clauses, lines of text are read to their end if they are in order; otherwise
the first one that is not is reported. -/
theorem readLines_outcome {rest : List (List Char)} (hroom : Reservable (done ++ rest)) (h : ReadsTo done r) :
    (∃ r', readLines (done.length + 1) r (rest.map some) = .ok r' ∧ ReadsTo (done ++ rest) r' ∧
      ∀ k, done.length ≤ k → ¬Violates (done ++ rest) k) ∨
    (∃ k flaw, readLines (done.length + 1) r (rest.map some) = .error (.malformed (k + 1) flaw) ∧
      Violates (done ++ rest) k ∧ ∀ j, done.length ≤ j → j < k → ¬Violates (done ++ rest) j) := by
  induction rest generalizing done r with
  | nil =>
    rw [List.append_nil]
    refine Or.inl ⟨r, rfl, h, fun k hk => ?_⟩
    rintro ⟨line, hline, _⟩
    rw [List.getElem?_eq_none hk] at hline
    cases hline
  | cons line rest ih =>
    have hlines : done ++ line :: rest = (done ++ [line]) ++ rest := by simp
    have hlength : (done ++ [line]).length = done.length + 1 := by simp
    rw [List.map_cons, readLines]
    rcases readLine_step h line with ⟨hout, flaw, hline⟩ | ⟨hin, r₁, hline, hr₁⟩ |
      ⟨hkind, ⟨v, m, tokens, ha, ht, hn⟩, _⟩
    · rw [hline]
      refine Or.inr ⟨done.length, flaw, rfl, violates_length.2 hout, fun j hj hlt => ?_⟩
      omega
    · rw [hline]
      have hfirst : ¬Violates (done ++ line :: rest) done.length := fun hv => violates_length.1 hv hin
      -- A line from here on is this one or one of the rest.
      have hfrom {P : Nat → Prop} (hP : ∀ j, (done ++ [line]).length ≤ j → P j → ¬Violates (done ++ line :: rest) j)
          (j : Nat) (hj : done.length ≤ j) (hPj : P j) : ¬Violates (done ++ line :: rest) j := by
        rcases Nat.eq_or_lt_of_le hj with rfl | hlt
        · exact hfirst
        · exact hP j (by omega) hPj
      have hnext := ih (hlines ▸ hroom) hr₁
      rw [← hlines, hlength] at hnext
      rcases hnext with ⟨r', hread, hr', hall⟩ | ⟨k, flaw, hread, hv, hall⟩
      · refine Or.inl ⟨r', hread, hr', fun j hj => ?_⟩
        exact hfrom (P := fun _ => True) (fun j hj _ => hall j (by omega)) j hj trivial
      · exact Or.inr ⟨k, flaw, hread, hv, hfrom fun j hj hlt => hall j (by omega) hlt⟩
    · refine absurd (hroom done.length line v m tokens ?_ hkind ha ?_) hn
      · simp
      · simpa using ht

/-- Headers announce few enough clauses if even one clause for every word would leave room for them. -/
theorem reservable_of_le {lines : List (List Char)} {bound : Nat} (hbound : HasRoom [] bound)
    (h : ∀ line ∈ lines, lineKind line = .header → ∀ vars count, Announces line vars count →
      (literalWords lines).length + count ≤ bound) : Reservable lines := by
  intro k line vars count tokens hline hkind ha ht
  have hle := h line (List.mem_of_getElem? hline) hkind vars count ha
  have hzeros : tokens.count 0 ≤ (literalWords (lines.take k)).length := by
    rw [List.Forall₂.length_eq ht]
    exact List.count_le_length
  have hwords : (literalWords (lines.take k)).length ≤ (literalWords lines).length := by
    conv_rhs => rw [← List.take_append_drop k lines, literalWords_append, List.length_append]
    exact Nat.le_add_right _ _
  have hroom : 24 * (0 + bound) < 2 ^ 63 := hbound
  show 24 * (tokens.count 0 + count) < 2 ^ 63
  omega

/-- What is made of what has been read: the open clause counts if it is not empty. -/
theorem clauses_finish (h : tokens.splitOn 0 = r.clauses.toList ++ [r.pending.reverse]) :
    r.finish.clauses = clausesOf tokens := by
  unfold clausesOf Reading.finish
  simp only [h, List.getLast?_append]
  cases hp : r.pending with
  | nil => simp
  | cons i pending => simp

/-- The lines of a text. -/
def linesOf (text : String) : List (List Char) := text.toList.splitOn '\n'

theorem ofText_eq (text : String) : ofText text = ofLines ((linesOf text).map some) := by
  rw [ofText, splitWhere_eq_splitOnP, linesOf, List.splitOn_eq_splitOnP]

end CnfSimp.Dimacs

namespace CnfSimp

open Dimacs Problem Text

/-- A text in which no header announces more clauses than there can be room for is read exactly if its lines are
grammatical. The clauses are then the parts of all its integers between the zeros, wherever its lines end. Otherwise
the number of the first line that is not in order is reported. -/
theorem ofText_grammar {text : String} (hroom : Reservable (linesOf text)) :
    (Grammatical (linesOf text) ↔ ∃ p, ofText text = .ok p) ∧
    (∀ p, ofText text = .ok p → ∃ tokens, Tokens (linesOf text) tokens ∧ p.clauses = clausesOf tokens) ∧
    (¬Grammatical (linesOf text) → ∃ k flaw, ofText text = .error (.malformed (k + 1) flaw) ∧
      Violates (linesOf text) k ∧ ∀ j < k, ¬Violates (linesOf text) j) := by
  have hout := readLines_outcome (show Reservable ([] ++ linesOf text) from hroom) readsTo_start
  rw [List.nil_append, List.length_nil, Nat.zero_add] at hout
  rw [ofText_eq, ofLines]
  rcases hout with ⟨r, hread, hr, hall⟩ | ⟨k, flaw, hread, hv, hall⟩
  · obtain ⟨before, after, earlier, later, vars, hlines, hr⟩ := hr
    rw [hread]
    refine ⟨⟨fun _ => ⟨r.finish, rfl⟩, fun _ k => hall k (Nat.zero_le k)⟩, fun p hp => ?_, fun hn => ?_⟩
    · cases hp
      exact ⟨earlier ++ later, hlines ▸ hr.whole, clauses_finish hr.parts⟩
    · exact absurd (fun k => hall k (Nat.zero_le k)) hn
  · rw [hread]
    refine ⟨⟨fun hg => absurd hv (hg k), ?_⟩, ?_, fun _ => ⟨k, flaw, rfl, hv, fun j => hall j (Nat.zero_le j)⟩⟩
    · rintro ⟨_, ⟨⟩⟩
    · rintro _ ⟨⟩

/-- A clause that goes on behind a line, a clause that ends inside one, and a last one without a zero. -/
theorem ofText_grammar_three_clauses : Reservable (linesOf "c text\n\np cnf 3 2\n1 -2\n 3 0 -1 0\n%\n+02") ∧
    Grammatical (linesOf "c text\n\np cnf 3 2\n1 -2\n 3 0 -1 0\n%\n+02") ∧
    ofText "c text\n\np cnf 3 2\n1 -2\n 3 0 -1 0\n%\n+02" = .ok ⟨3, [[1, -2, 3], [-1], [2]]⟩ := by
  have hread : ofText "c text\n\np cnf 3 2\n1 -2\n 3 0 -1 0\n%\n+02" = .ok ⟨3, [[1, -2, 3], [-1], [2]]⟩ := by
    decide +kernel
  have hroom : Reservable (linesOf "c text\n\np cnf 3 2\n1 -2\n 3 0 -1 0\n%\n+02") := by
    refine reservable_of_le (show HasRoom [] 9 by decide) fun line hline hkind vars count ha => ?_
    have hheader : ∀ line ∈ linesOf "c text\n\np cnf 3 2\n1 -2\n 3 0 -1 0\n%\n+02", lineKind line = .header →
        words line = [['p'], ['c', 'n', 'f'], ['3'], ['2']] := by
      decide +kernel
    obtain ⟨_, _, countWord, _, hw, _, hcount⟩ := ha
    rw [hheader line hline hkind] at hw
    cases hw
    have htwo : count = 2 := hcount.unique (readUnsigned_ok_iff.1 (by decide +kernel))
    rw [htwo]
    decide +kernel
  exact ⟨hroom, (ofText_grammar hroom).1.2 ⟨_, hread⟩, hread⟩

end CnfSimp
