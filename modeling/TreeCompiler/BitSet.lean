import TreeCompiler.Wire

namespace TreeCompiler

/-- A growable set of natural numbers, kept as one bit each in 64-bit words. -/
structure BitSet where
  words : Option (List UInt64)
  deriving DecidableEq, Repr

namespace BitSet

/-- A key below zero cannot be a member of any set. -/
structure NegativeKey where
  key : Int
  deriving DecidableEq, Repr

/-- The message of a key below zero is the key itself. -/
def NegativeKey.message (e : NegativeKey) : String :=
  toString e.key

/-- Accepts the keys that a set can hold. -/
def key (k : Int) : Except NegativeKey Nat :=
  if k < 0 then .error ⟨k⟩ else .ok k.toNat

/-- The set that was never written to. -/
def untouched : BitSet := ⟨none⟩

/-- The empty set, ready to be written to. -/
def empty : BitSet := ⟨some []⟩

/-- The words of a set; one that was never written to has none. -/
def wordList (s : BitSet) : List UInt64 :=
  s.words.getD []

/-- The word in which only bit `j` is set. -/
def bit (j : Nat) : UInt64 :=
  1 <<< UInt64.ofNat j

/-- Whether bit `j` of a word is set. -/
def testBit (w : UInt64) (j : Nat) : Bool :=
  w &&& bit j ≠ 0

/-- Changes the word at an index, first growing the list with zero words if it is
    too short. -/
def updateWord (f : UInt64 → UInt64) : Nat → List UInt64 → List UInt64
  | 0, [] => [f 0]
  | 0, w :: ws => f w :: ws
  | i + 1, [] => 0 :: updateWord f i []
  | i + 1, w :: ws => w :: updateWord f i ws

/-- Adds a key. -/
def insert (s : BitSet) (k : Nat) : BitSet :=
  ⟨some (updateWord (· ||| bit (k % 64)) (k / 64) s.wordList)⟩

/-- Whether a key is a member. -/
def contains (s : BitSet) (k : Nat) : Bool :=
  testBit (s.wordList.getD (k / 64) 0) (k % 64)

/-- Removes a key. -/
def erase (s : BitSet) (k : Nat) : BitSet :=
  ⟨s.words.map fun ws =>
    if k / 64 < ws.length then updateWord (· &&& ~~~bit (k % 64)) (k / 64) ws else ws⟩

/-- The position of the lowest bit that is set in a word; 64 for the zero word. -/
def lowest (w : UInt64) : Nat :=
  w.toBitVec.ctz.toNat

/-- The number of bits that are set in a word. -/
def count (w : UInt64) : Nat :=
  w.toBitVec.cpop.toNat

/-- The number of members. -/
def size (s : BitSet) : Nat :=
  s.wordList.foldl (fun n w => n + count w) 0

theorem toBitVec_bit {j : Nat} (hj : j < 64) : (bit j).toBitVec = BitVec.twoPow 64 j := by
  have hmod : j % 18446744073709551616 = j := Nat.mod_eq_of_lt (by omega)
  apply BitVec.eq_of_toNat_eq
  simp [bit, BitVec.toNat_shiftLeft, Nat.mod_eq_of_lt hj, hmod, BitVec.toNat_twoPow, Nat.shiftLeft_eq]

theorem lowest_lt {w : UInt64} (hw : w ≠ 0) : lowest w < 64 := by
  have hbits : w.toBitVec ≠ 0#64 := fun h => hw (UInt64.toBitVec_inj.mp h)
  exact BitVec.lt_def.mp (BitVec.ctz_lt_iff_ne_zero.mpr hbits)

/-- Clearing the lowest bit makes a word smaller, so a walk over its bits comes to an end. -/
theorem clear_lowest_lt {w : UInt64} (hw : w ≠ 0) : (w &&& ~~~bit (lowest w)).toNat < w.toNat := by
  have hbits : w.toBitVec ≠ 0#64 := fun h => hw (UInt64.toBitVec_inj.mp h)
  have hle : w &&& ~~~bit (lowest w) ≤ w := UInt64.and_le_left
  have hne : w &&& ~~~bit (lowest w) ≠ w := by
    intro heq
    have hcleared : (w &&& ~~~bit (lowest w)).toBitVec.getLsbD (lowest w) = false := by
      simp [toBitVec_bit (lowest_lt hw)]
    rw [heq] at hcleared
    exact Bool.noConfusion ((BitVec.getLsbD_true_ctz_of_ne_zero hbits).symm.trans hcleared)
  exact UInt64.lt_iff_toNat_lt.mp (UInt64.lt_of_le_of_ne hle hne)

section Walk

variable {σ : Type} (visit : σ → Nat → σ × Bool)

/-- Visits the keys of the word at index `i` from the lowest on, until a visit asks for no more. -/
def walkWord (i : Nat) (st : σ) (w : UInt64) : σ × Bool :=
  if w = 0 then (st, true)
  else
    match visit st (i * 64 + lowest w) with
    | (st, true) => walkWord i st (w &&& ~~~bit (lowest w))
    | (st, false) => (st, false)
termination_by w.toNat
decreasing_by exact clear_lowest_lt ‹_›

/-- Visits the keys of the words from index `i` on, until a visit asks for no more. -/
def walkWords : Nat → σ → List UInt64 → σ
  | _, st, [] => st
  | i, st, w :: ws =>
    match walkWord visit i st w with
    | (st, true) => walkWords (i + 1) st ws
    | (st, false) => st

/-- Walks over the members. -/
def walk (s : BitSet) (st : σ) : σ :=
  walkWords visit 0 st s.wordList

end Walk

/-- The members in ascending order. -/
def toList (s : BitSet) : List Nat :=
  s.walk (fun ks k => (ks ++ [k], true)) []

/-- The first members of a set. -/
def first (s : BitSet) (limit : Int) : List Nat :=
  s.walk (fun ks k => (ks ++ [k], ks.length + 1 < limit)) []

/-- The wire form: an open array of the members in ascending order, or null for a
    set that was never written to. -/
def wire (s : BitSet) : Bytes :=
  match s.words with
  | none => Wire.null
  | some _ => Wire.openArray (s.toList.map fun (k : Nat) => Wire.int k)

end BitSet

end TreeCompiler
