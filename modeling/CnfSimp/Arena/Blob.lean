import CnfSimp.Arena.Basic

/-!
# Arenas as words

An arena as one list of 32-bit words: six words of capacities and counts, five for every header, one for every literal
cell. Numbers of 64 bits take two words, the lower half first.

* `Arena.toBlob`, `Arena.ofBlob`: writing and reading; reading checks the number of words, and nothing else.
-/

namespace CnfSimp.Arena

/-- The two words of a number, the lower half first. -/
def wordPair (n : Nat) : List UInt32 := [.ofNat n, .ofNat (n / 0x100000000)]

/-- The number of two words. -/
def pairValue (low high : UInt32) : Nat := low.toNat + 0x100000000 * high.toNat

/-- The capacities and counts, the headers and the cells as words. -/
def toBlob (a : Arena) : List UInt32 :=
  .ofNat a.capacity :: wordPair a.litCapacity ++ .ofNat a.len :: wordPair a.numLits
    ++ a.headers.toList.flatMap Header.encode ++ a.cells.toList.map Lit.code

/-- The headers that the words hold, five words each, and the words behind the first `n` headers. -/
def readHeaders : Nat → List UInt32 → List Header × List UInt32
  | n + 1, low :: high :: size :: sig :: state :: rest =>
    let (headers, rest) := readHeaders n rest
    (Header.decode low high size sig state :: headers, rest)
  | _, rest => ([], rest)

/-- The arena of a list of words, which must have the length that its capacities ask for. -/
def ofBlob : List UInt32 → Except Fault Arena
  | cap :: litLow :: litHigh :: clauses :: countLow :: countHigh :: rest => do
    let headerStop := 6 + 5 * cap.toNat
    let size ← sum64 headerStop (pairValue litLow litHigh)
    if rest.length + 6 ≠ size then throw .blobSizeMismatch
    let (headers, lits) := readHeaders cap.toNat rest
    return ⟨headers.toArray, (lits.map Lit.mk).toArray, clauses, .ofNat (pairValue countLow countHigh)⟩
  | _ => .error .truncatedBlob

end CnfSimp.Arena
