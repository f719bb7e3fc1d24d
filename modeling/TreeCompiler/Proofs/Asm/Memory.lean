import TreeCompiler.Proofs.Code.Meaning

namespace TreeCompiler.Asm

/-- Memory by bytes. -/
abbrev Memory := Nat → BitVec 8

namespace Memory

/-- The word at an address, its lowest byte first. -/
def read (m : Memory) (a : Nat) : Word :=
  m (a + 7) ++ m (a + 6) ++ m (a + 5) ++ m (a + 4) ++ m (a + 3) ++ m (a + 2) ++ m (a + 1) ++ m a

/-- Replaces the word at an address. -/
def write (m : Memory) (a : Nat) (v : Word) : Memory :=
  fun b => if a ≤ b ∧ b < a + 8 then v.extractLsb' (8 * (b - a)) 8 else m b

theorem write_of_lt (m : Memory) {a b : Nat} (v : Word) (hlt : b < a) : m.write a v b = m b := by
  simp only [write]
  rw [if_neg (by omega)]

theorem write_of_le (m : Memory) {a b : Nat} (v : Word) (hle : a + 8 ≤ b) : m.write a v b = m b := by
  simp only [write]
  rw [if_neg (by omega)]

/-- Words are read from the bytes at their addresses and nowhere else. -/
theorem read_congr {m m' : Memory} {a : Nat} (heq : ∀ b, a ≤ b → b < a + 8 → m b = m' b) :
    m.read a = m'.read a := by
  simp only [read]
  rw [heq a (by omega) (by omega), heq (a + 1) (by omega) (by omega), heq (a + 2) (by omega) (by omega),
    heq (a + 3) (by omega) (by omega), heq (a + 4) (by omega) (by omega),
    heq (a + 5) (by omega) (by omega), heq (a + 6) (by omega) (by omega),
    heq (a + 7) (by omega) (by omega)]

@[simp] theorem read_write_same (m : Memory) (a : Nat) (v : Word) : (m.write a v).read a = v := by
  have hbyte : ∀ i, i < 8 → m.write a v (a + i) = v.extractLsb' (8 * i) 8 := by
    intro i hi
    simp only [write]
    rw [if_pos (by omega), Nat.add_sub_cancel_left]
  have hfirst : m.write a v a = v.extractLsb' 0 8 := hbyte 0 (by omega)
  simp only [read]
  rw [hbyte 7 (by omega), hbyte 6 (by omega), hbyte 5 (by omega), hbyte 4 (by omega),
    hbyte 3 (by omega), hbyte 2 (by omega), hbyte 1 (by omega), hfirst]
  have hjoin : ∀ i n, v.extractLsb' (8 * i + 8) n ++ v.extractLsb' (8 * i) 8 = v.extractLsb' (8 * i) (n + 8) :=
    fun i n => BitVec.extractLsb'_append_extractLsb'_eq_extractLsb' rfl
  calc
    _ = v.extractLsb' 48 16 ++ v.extractLsb' 40 8 ++ v.extractLsb' 32 8 ++ v.extractLsb' 24 8 ++
        v.extractLsb' 16 8 ++ v.extractLsb' 8 8 ++ v.extractLsb' 0 8 := by rw [← hjoin 6 8]
    _ = v.extractLsb' 32 32 ++ v.extractLsb' 24 8 ++ v.extractLsb' 16 8 ++ v.extractLsb' 8 8 ++
        v.extractLsb' 0 8 := by rw [← hjoin 4 24, ← hjoin 5 16]
    _ = v.extractLsb' 16 48 ++ v.extractLsb' 8 8 ++ v.extractLsb' 0 8 := by
      rw [← hjoin 2 40, ← hjoin 3 32]
    _ = v.extractLsb' 0 64 := by rw [← hjoin 0 56, ← hjoin 1 48]
    _ = v := BitVec.extractLsb'_eq_self

/-- Writing a word does not change the words that do not overlap it. -/
theorem read_write_of_disjoint (m : Memory) {a b : Nat} (v : Word) (hne : a + 8 ≤ b ∨ b + 8 ≤ a) :
    (m.write a v).read b = m.read b := by
  apply read_congr
  intro c hlo hhi
  rcases hne with hne | hne
  · exact write_of_le m v (by omega)
  · exact write_of_lt m v (by omega)

end Memory

end TreeCompiler.Asm
