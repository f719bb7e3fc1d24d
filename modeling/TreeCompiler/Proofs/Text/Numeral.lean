import Mathlib.Algebra.Group.Int.Defs
import Mathlib.Algebra.Group.Nat.Defs
import TreeCompiler.Text.Numeral

/-!
Reading a number undoes writing it: the decimal numeral of a signed word is read as that word, up to
both ends of the range.
-/

namespace TreeCompiler.Text.Numeral

/-- A decimal digit counts for its distance from zero. -/
theorem digit?_of_isDigit {c : Char} (hc : c.isDigit = true) : digit? c = some (c.toNat - '0'.toNat) :=
  if_pos hc

theorem toNat_sub_lt_ten {c : Char} (hc : c.isDigit = true) : c.toNat - '0'.toNat < 10 := by
  have hbound : c.toNat ≤ '9'.toNat := by
    simp only [Char.isDigit, Bool.and_eq_true, decide_eq_true_eq] at hc
    exact hc.2
  have hnine : '9'.toNat = '0'.toNat + 9 := by decide
  omega

theorem ne_of_isDigit {c c' : Char} (hc : c.isDigit = true) (hc' : c'.isDigit = false) : c ≠ c' := by
  rintro rfl
  rw [hc] at hc'
  cases hc'

/-- Reading on never makes a number smaller. -/
theorem le_ofDigitChars (cs : List Char) (n : Nat) : n ≤ Nat.ofDigitChars 10 cs n := by
  rw [Nat.ofDigitChars_eq_ofDigitChars_zero]
  have hpow : 0 < 10 ^ cs.length := Nat.pow_pos (by decide)
  have hle : 1 * n ≤ 10 ^ cs.length * n := Nat.mul_le_mul_right n hpow
  omega

theorem accumulate_digits {cs : List Char} (hcs : ∀ c ∈ cs, c.isDigit = true) {n : Nat}
    (hrange : Nat.ofDigitChars 10 cs n ≤ maxUnsigned) : accumulate 10 n cs = .ok (Nat.ofDigitChars 10 cs n) := by
  induction cs generalizing n with
  | nil => rw [accumulate, Nat.ofDigitChars_nil]
  | cons c cs ih =>
    have hc := hcs c List.mem_cons_self
    have hplain : c ≠ '_' := ne_of_isDigit hc (by decide)
    rw [Nat.ofDigitChars_cons, Nat.mul_comm 10 n] at hrange ⊢
    have hfits := Nat.le_trans (le_ofDigitChars cs _) hrange
    rw [accumulate, if_neg hplain, digit?_of_isDigit hc]
    dsimp only
    rw [if_pos (toNat_sub_lt_ten hc), if_pos hfits]
    exact ih (fun c hc => hcs c (List.mem_cons_of_mem _ hc)) hrange

/-- The decimal numeral of a positive number does not start with a zero. -/
theorem toDigits_head_ne {n : Nat} (hn : 0 < n) : ∃ c cs, Nat.toDigits 10 n = c :: cs ∧ c ≠ '0' := by
  induction n using Nat.strongRecOn with
  | _ n ih =>
    by_cases hsmall : n < 10
    · refine ⟨n.digitChar, [], Nat.toDigits_of_lt_base hsmall, ?_⟩
      rw [ne_eq, Nat.digitChar_eq_zero]
      omega
    · obtain ⟨c, cs, hcs, hc⟩ := ih (n / 10) (by omega) (by omega)
      refine ⟨c, cs ++ [(n % 10).digitChar], ?_, hc⟩
      rw [Nat.toDigits_of_base_le (by decide) (by omega), hcs]
      rfl

/-- The decimal numeral of a word is read as the word. -/
theorem unsigned_toDigits {n : Nat} (hn : n ≤ maxUnsigned) : unsigned (Nat.toDigits 10 n) = .ok n := by
  rcases Nat.eq_zero_or_pos n with rfl | hpos
  · rfl
  · obtain ⟨c, cs, hcs, hc⟩ := toDigits_head_ne hpos
    have hdigits : ∀ d ∈ c :: cs, d.isDigit = true := by
      intro d hd
      exact Nat.isDigit_of_mem_toDigits (by decide) (by decide) (hcs ▸ hd)
    have hvalue : Nat.ofDigitChars 10 (c :: cs) 0 = n := by
      rw [← hcs]
      exact Nat.ofDigitChars_ten_toDigits
    have hbase : splitBase (c :: cs) = (10, c :: cs) := by
      unfold splitBase
      split
      · next heq => exact absurd (List.cons.inj heq).1 hc
      · next heq => exact absurd (List.cons.inj heq).1 hc
      · rfl
    have hplain : '_' ∉ c :: cs := fun hmem => by
      have := hdigits '_' hmem
      exact absurd this (by decide)
    rw [hcs, unsigned, hbase, accumulate_digits hdigits (by rw [hvalue]; exact hn), hvalue]
    simp [hplain]

/-- The decimal numeral of a signed word is read as the word. -/
theorem signed_toString {v : Int} (hlow : -2 ^ 63 ≤ v) (hhigh : v < 2 ^ 63) :
    signed (toString v).toList = .ok v := by
  rw [Int.toString_eq_repr, Int.repr_eq_if]
  split
  · next hnonneg =>
    have hread : unsigned (Nat.toDigits 10 v.toNat) = .ok v.toNat :=
      unsigned_toDigits (by unfold maxUnsigned; omega)
    obtain ⟨c, cs, hcs⟩ := List.exists_cons_of_ne_nil (Nat.toDigits_ne_nil (n := v.toNat) (b := 10))
    have hc : c.isDigit = true :=
      Nat.isDigit_of_mem_toDigits (by decide) (by decide) (hcs ▸ List.mem_cons_self)
    rw [Nat.toList_repr]
    rw [hcs] at hread ⊢
    unfold signed signedBy
    split
    · next heq => exact absurd (List.cons.inj heq).1 (ne_of_isDigit hc (by decide))
    · next heq => exact absurd (List.cons.inj heq).1 (ne_of_isDigit hc (by decide))
    · dsimp only
      rw [hread]
      dsimp only
      rw [if_pos (by omega), Int.toNat_of_nonneg hnonneg]
  · next hneg =>
    have hread : unsigned (Nat.toDigits 10 (-v).toNat) = .ok (-v).toNat :=
      unsigned_toDigits (by unfold maxUnsigned; omega)
    rw [String.toList_append, Nat.toList_repr]
    show signedBy unsigned ('-' :: Nat.toDigits 10 (-v).toNat) = .ok v
    rw [signedBy]
    simp only [hread]
    rw [if_pos (by omega), Int.toNat_of_nonneg (by omega), Int.neg_neg]

end TreeCompiler.Text.Numeral
