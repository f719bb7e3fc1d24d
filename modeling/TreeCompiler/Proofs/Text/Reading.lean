import Mathlib.Algebra.Group.Nat.Defs
import Mathlib.Data.List.Basic
import TreeCompiler.Text.Numeral

/-!
Readers for pieces of texts. Each takes what it understands from the front of a text and gives what
is left, so that readers can be told apart from what follows.
-/

namespace TreeCompiler.Text

/-- Takes a text from the front of another one. -/
def skip? (s : String) (cs : List Char) : Option (List Char) :=
  s.toList.isPrefixOf? cs

/-- Reads a decimal number. -/
def readNumber? (cs : List Char) : Option (Nat × List Char) :=
  if cs.takeWhile Char.isDigit = [] then none
  else some (Nat.ofDigitChars 10 (cs.takeWhile Char.isDigit) 0, cs.dropWhile Char.isDigit)

/-- The value of a hexadecimal digit. -/
def hexValue? (c : Char) : Option Nat :=
  (Numeral.digit? c).filter (· < 16)

/-- Extends a number by hexadecimal digits, of which there are at most `most`. -/
def extendHex : Nat → Nat → List Char → Nat × List Char
  | most + 1, n, c :: rest =>
    match hexValue? c with
    | some d => extendHex most (16 * n + d) rest
    | none => (n, c :: rest)
  | _, n, rest => (n, rest)

/-- Reads a hexadecimal number of at least one digit and at most `most` of them. -/
def readHex? (most : Nat) (cs : List Char) : Option (Nat × List Char) :=
  if (cs.head?.bind hexValue?).isSome then some (extendHex most 0 cs) else none

/-- Reads what stands for some bytes between quotes: an escape behind a backslash, or a character
    that stands for itself. -/
def readPiece? (close : Char) (escape? : List Char → Option (Bytes × List Char)) :
    List Char → Option (Bytes × List Char)
  | [] => none
  | c :: rest =>
    if c = close then none
    else if c = '\\' then escape? rest
    else some (String.utf8EncodeChar c, rest)

/-- Reads a quoted text behind its opening quote, up to the first closing quote that is not
    escaped. -/
def readQuoted? (close : Char) (escape? : List Char → Option (Bytes × List Char)) :
    Nat → List Char → Option (Bytes × List Char)
  | 0, _ => none
  | fuel + 1, cs =>
    if cs.head? = some close then some ([], cs.tail)
    else do
      let (bytes, rest) ← readPiece? close escape? cs
      let (more, rest) ← readQuoted? close escape? fuel rest
      return (bytes ++ more, rest)

theorem skip?_append (s : String) (rest : List Char) : skip? s (s.toList ++ rest) = some rest :=
  List.isPrefixOf?_eq_some_iff_append_eq.mpr rfl

section Runs

variable {p : Char → Bool} {run rest : List Char}

/-- A run of characters ends where something else follows. -/
theorem takeWhile_run (hrun : ∀ c ∈ run, p c = true) (hstop : ∀ c ∈ rest.head?, p c = false) :
    (run ++ rest).takeWhile p = run := by
  rw [List.takeWhile_append_of_pos hrun]
  cases rest with
  | nil => simp
  | cons c rest => simp [hstop c rfl]

theorem dropWhile_run (hrun : ∀ c ∈ run, p c = true) (hstop : ∀ c ∈ rest.head?, p c = false) :
    (run ++ rest).dropWhile p = rest := by
  rw [List.dropWhile_append_of_pos hrun]
  cases rest with
  | nil => rfl
  | cons c rest => simp [hstop c rfl]

end Runs

theorem isDigit_of_mem_toDigits {n : Nat} {c : Char} (hc : c ∈ Nat.toDigits 10 n) : c.isDigit = true :=
  Nat.isDigit_of_mem_toDigits (by decide) (by decide) hc

theorem readNumber?_toDigits (n : Nat) {rest : List Char} (hstop : ∀ c ∈ rest.head?, c.isDigit = false) :
    readNumber? (Nat.toDigits 10 n ++ rest) = some (n, rest) := by
  have hdigits : ∀ c ∈ Nat.toDigits 10 n, c.isDigit = true := fun c hc => isDigit_of_mem_toDigits hc
  rw [readNumber?, takeWhile_run hdigits hstop, dropWhile_run hdigits hstop, if_neg Nat.toDigits_ne_nil,
    Nat.ofDigitChars_ten_toDigits]

theorem hexValue?_hexDigit {n : Nat} (hn : n < 16) : hexValue? (Bytes.hexDigit n) = some n := by
  have hall : ∀ m : Fin 16, hexValue? (Bytes.hexDigit m) = some m.val := by decide
  exact hall ⟨n, hn⟩

/-- Digits are read one after another, high digit first. -/
theorem extendHex_hexDigits (digits most n m : Nat) (rest : List Char) :
    extendHex (most + digits) m (hexDigits digits n ++ rest) =
      extendHex most (16 ^ digits * m + n % 16 ^ digits) rest := by
  induction digits generalizing n most rest with
  | zero => simp [hexDigits, Nat.mod_one]
  | succ digits ih =>
    have hvalue : 16 * (16 ^ digits * m + n / 16 % 16 ^ digits) + n % 16 =
        16 ^ (digits + 1) * m + n % 16 ^ (digits + 1) := by
      rw [Nat.pow_succ', Nat.mod_mul]
      grind
    rw [hexDigits, List.append_assoc, List.singleton_append, Nat.add_comm digits 1, ← Nat.add_assoc, ih, extendHex,
      hexValue?_hexDigit (Nat.mod_lt n (by decide)), Nat.add_comm 1 digits]
    dsimp only
    rw [hvalue]

theorem isSome_hexValue?_head (digits n : Nat) (rest : List Char) :
    ((hexDigits (digits + 1) n ++ rest).head?.bind hexValue?).isSome = true := by
  induction digits generalizing n rest with
  | zero => simp [hexDigits, hexValue?_hexDigit (Nat.mod_lt n (by decide))]
  | succ digits ih =>
    rw [hexDigits, List.append_assoc]
    exact ih (n / 16) _

/-- As many digits as are asked for are read, whatever follows. -/
theorem readHex?_hexDigits (digits : Nat) {n : Nat} (hn : n < 16 ^ (digits + 1)) (rest : List Char) :
    readHex? (digits + 1) (hexDigits (digits + 1) n ++ rest) = some (n, rest) := by
  have hread := extendHex_hexDigits (digits + 1) 0 n 0 rest
  rw [Nat.zero_add] at hread
  rw [readHex?, if_pos (isSome_hexValue?_head digits n rest), hread, Nat.mod_eq_of_lt hn]
  simp [extendHex]

theorem hexPair_eq_hexDigits (b : UInt8) : Bytes.hexPair b = hexDigits 2 b.toNat := by
  have hb : b.toNat / 16 < 16 := by
    have := b.toNat_lt
    omega
  simp [Bytes.hexPair, hexDigits, Nat.mod_eq_of_lt hb]

theorem readHex?_hexPair (b : UInt8) (rest : List Char) :
    readHex? 2 (Bytes.hexPair b ++ rest) = some (b.toNat, rest) := by
  rw [hexPair_eq_hexDigits]
  exact readHex?_hexDigits 1 (by simpa using b.toNat_lt) rest

theorem toNat_ofNat {n : Nat} (hn : n.isValidChar) : (Char.ofNat n).toNat = n := by
  rw [Char.ofNat, dif_pos hn]
  rfl

/-- A character of one byte is encoded as that byte. -/
theorem utf8EncodeChar_ofNat {b : UInt8} (hb : b.toNat < 0x80) : String.utf8EncodeChar (Char.ofNat b.toNat) = [b] := by
  have hval : (Char.ofNat b.toNat).val.toNat = b.toNat := toNat_ofNat (.inl (by omega))
  simp [String.utf8EncodeChar, hval, show b.toNat ≤ 127 by omega]

section Quoted

variable {close : Char} {escape? : List Char → Option (Bytes × List Char)} {α : Type} {bytes : α → Bytes}
  {spell : α → List Char}

/-- A quoted text is read up to its closing quote if each of its pieces is read, whatever follows. -/
theorem readQuoted?_flatMap
    (hpiece : ∀ a rest, readPiece? close escape? (spell a ++ rest) = some (bytes a, rest)) (as : List α)
    (rest : List Char) {fuel : Nat} (hfuel : (as.flatMap spell).length < fuel) :
    readQuoted? close escape? fuel (as.flatMap spell ++ close :: rest) = some (as.flatMap bytes, rest) := by
  induction as generalizing fuel with
  | nil =>
    cases fuel with
    | zero => cases hfuel
    | succ fuel => simp [readQuoted?]
  | cons a as ih =>
    cases fuel with
    | zero => cases hfuel
    | succ fuel =>
      have hread := hpiece a (as.flatMap spell ++ close :: rest)
      obtain ⟨c, cs, hspell⟩ : ∃ c cs, spell a = c :: cs := by
        cases hspell : spell a with
        | nil =>
          have hclose := hpiece a [close]
          simp [hspell, readPiece?] at hclose
        | cons c cs => exact ⟨c, cs, rfl⟩
      have hopen : c ≠ close := by
        rintro rfl
        simp [hspell, readPiece?] at hread
      have hlength : (as.flatMap spell).length < fuel := by
        rw [List.flatMap_cons, List.length_append, hspell, List.length_cons] at hfuel
        omega
      rw [List.flatMap_cons, List.append_assoc, readQuoted?, hread, if_neg (by simp [hspell, hopen])]
      simp [ih hlength]

end Quoted

end TreeCompiler.Text
