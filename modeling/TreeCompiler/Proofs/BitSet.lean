import TreeCompiler.BitSet

namespace TreeCompiler.BitSet

variable {w : UInt64} {j k : Nat}

theorem testBit_eq_getLsbD (hj : j < 64) : testBit w j = w.toBitVec.getLsbD j := by
  have hpow : BitVec.twoPow 64 j ≠ 0#64 := by
    intro hzero
    have hbit := BitVec.getLsbD_twoPow (w := 64) (i := j) (j := j)
    simp [hzero, hj] at hbit
  have hclear : w &&& bit j = 0 ↔ w.toBitVec.getLsbD j = false := by
    rw [← UInt64.toBitVec_inj, UInt64.toBitVec_and, toBitVec_bit hj, BitVec.and_twoPow]
    cases w.toBitVec.getLsbD j with
    | false => simp
    | true => simpa using hpow
  cases hbit : w.toBitVec.getLsbD j <;> simp [testBit, hclear, hbit]

theorem testBit_bit (hj : j < 64) (hk : k < 64) : testBit (bit k) j = decide (j = k) := by
  rw [testBit_eq_getLsbD hj, toBitVec_bit hk, BitVec.getLsbD_twoPow]
  simp [hk, eq_comm]

theorem testBit_or (hj : j < 64) (w' : UInt64) : testBit (w ||| w') j = (testBit w j || testBit w' j) := by
  simp only [testBit_eq_getLsbD hj, UInt64.toBitVec_or, BitVec.getLsbD_or]

/-- Clearing a bit leaves the others as they are. -/
theorem testBit_clear (hj : j < 64) (hk : k < 64) : testBit (w &&& ~~~bit k) j = (decide (j ≠ k) && testBit w j) := by
  simp only [testBit_eq_getLsbD hj, UInt64.toBitVec_and, UInt64.toBitVec_not, toBitVec_bit hk, BitVec.getLsbD_and,
    BitVec.getLsbD_not, BitVec.getLsbD_twoPow]
  by_cases hjk : j = k
  · simp [hjk, hk]
  · simp [hjk, hj, Ne.symm hjk]

theorem testBit_zero (j : Nat) : testBit 0 j = false := by
  simp [testBit]

/-- Changing a word leaves the others as they are, those that were not there included. -/
theorem getD_updateWord (f : UInt64 → UInt64) (i j : Nat) (ws : List UInt64) :
    (updateWord f i ws).getD j 0 = if j = i then f (ws.getD i 0) else ws.getD j 0 := by
  fun_induction updateWord f i ws generalizing j with
  | case1 => cases j <;> simp
  | case2 w ws => cases j <;> simp
  | case3 i ih =>
    cases j with
    | zero => simp
    | succ j => simpa using ih j
  | case4 i w ws ih =>
    cases j with
    | zero => simp
    | succ j => simpa using ih j

@[simp] theorem contains_untouched (k : Nat) : untouched.contains k = false :=
  testBit_zero _

@[simp] theorem contains_empty (k : Nat) : empty.contains k = false :=
  testBit_zero _

/-- Adding a key adds that key and no other. -/
theorem contains_insert (s : BitSet) (k j : Nat) : (s.insert k).contains j = (decide (j = k) || s.contains j) := by
  have hj : j % 64 < 64 := Nat.mod_lt _ (by decide)
  have hk : k % 64 < 64 := Nat.mod_lt _ (by decide)
  simp only [contains, insert, wordList, Option.getD_some, getD_updateWord]
  split
  · next hword =>
    rw [testBit_or hj, testBit_bit hj hk, hword, Bool.or_comm]
    congr 2
    exact propext (by omega)
  · next hword =>
    have hne : j ≠ k := fun heq => hword (by rw [heq])
    rw [decide_eq_false hne, Bool.false_or]

/-- Removing a key removes that key and no other. -/
theorem contains_erase (s : BitSet) (k j : Nat) : (s.erase k).contains j = (decide (j ≠ k) && s.contains j) := by
  have hj : j % 64 < 64 := Nat.mod_lt _ (by decide)
  have hk : k % 64 < 64 := Nat.mod_lt _ (by decide)
  have hwords : (s.erase k).wordList = if k / 64 < s.wordList.length then
      updateWord (· &&& ~~~bit (k % 64)) (k / 64) s.wordList else s.wordList := by
    obtain ⟨_ | ws⟩ := s
    · simp [erase, wordList]
    · rfl
  rw [contains, contains, hwords]
  by_cases hjk : j = k
  · subst hjk
    split
    · rw [getD_updateWord, if_pos rfl, testBit_clear hj hj]
      simp
    · next hlength =>
      rw [List.getD_eq_getElem?_getD, List.getElem?_eq_none (Nat.le_of_not_lt hlength), Option.getD_none, testBit_zero,
        Bool.and_false]
  · rw [decide_eq_true hjk, Bool.true_and]
    split
    · rw [getD_updateWord]
      split
      · next hword =>
        have hbit : j % 64 ≠ k % 64 := by omega
        rw [testBit_clear hj hk, decide_eq_true hbit, Bool.true_and, hword]
      · rfl
    · rfl

end TreeCompiler.BitSet
