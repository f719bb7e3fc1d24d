import TreeCompiler.Proofs.Text.Reading

/-!
Quoted byte strings are read back. A byte string is made of the bytes of its pieces, and every piece
is read from its spelling.
-/

namespace TreeCompiler

namespace Bytes

/-- The bytes of a piece. -/
def Piece.bytes : Piece → Bytes
  | .char c => String.utf8EncodeChar c
  | .raw b => [b]

theorem continuation?_eq_some_iff {b : UInt8} {n : Nat} :
    continuation? b = some n ↔ n < 64 ∧ b.toNat = n + 128 := by
  simp only [continuation?, UInt8.le_iff_toNat_le, UInt8.lt_iff_toNat_lt, Option.ite_none_right_eq_some,
    Option.some.injEq]
  change (128 ≤ b.toNat ∧ b.toNat < 192) ∧ b.toNat - 128 = n ↔ _
  omega

theorem toNat_of_scalar? {least code : Nat} {c : Char} (h : scalar? least code = some c) :
    least ≤ code ∧ c.val.toNat = code := by
  rw [scalar?, Option.ite_none_right_eq_some] at h
  obtain ⟨⟨hleast, hvalid⟩, hc⟩ := h
  cases hc
  exact ⟨hleast, Text.toNat_ofNat hvalid⟩

theorem ofNat_eq_of_toNat {b : UInt8} {n : Nat} (h : n = b.toNat) : UInt8.ofNat n = b := by
  rw [h, UInt8.ofNat_toNat]

/-- What is decoded stands in front as it is encoded. -/
theorem eq_of_decodeFront? {b rest : Bytes} {c : Char} (h : decodeFront? b = some (c, rest)) :
    b = String.utf8EncodeChar c ++ rest := by
  cases b with
  | nil => cases h
  | cons lead tail =>
    simp only [decodeFront?, UInt8.le_iff_toNat_le, UInt8.lt_iff_toNat_lt] at h
    split at h
    · next hlead =>
      cases h
      rw [Text.utf8EncodeChar_ofNat hlead, List.singleton_append]
    split at h
    · next hlead =>
      change 192 ≤ lead.toNat ∧ lead.toNat < 224 at hlead
      split at h
      · next x tail =>
        simp only [Option.bind_eq_bind, Option.bind_eq_some_iff, Option.map_eq_some_iff] at h
        obtain ⟨n, hx, _, hscalar, hrest⟩ := h
        cases hrest
        obtain ⟨hn, hx⟩ := continuation?_eq_some_iff.mp hx
        obtain ⟨hleast, hcode⟩ := toNat_of_scalar? hscalar
        simp only [String.utf8EncodeChar, hcode]
        rw [if_neg (by omega), if_pos (by omega), ofNat_eq_of_toNat (b := lead) (by omega),
          ofNat_eq_of_toNat (b := x) (by omega)]
        rfl
      · cases h
    split at h
    · next hlead =>
      change 224 ≤ lead.toNat ∧ lead.toNat < 240 at hlead
      split at h
      · next x y tail =>
        simp only [Option.bind_eq_bind, Option.bind_eq_some_iff, Option.map_eq_some_iff] at h
        obtain ⟨n, hx, m, hy, _, hscalar, hrest⟩ := h
        cases hrest
        obtain ⟨hn, hx⟩ := continuation?_eq_some_iff.mp hx
        obtain ⟨hm, hy⟩ := continuation?_eq_some_iff.mp hy
        obtain ⟨hleast, hcode⟩ := toNat_of_scalar? hscalar
        simp only [String.utf8EncodeChar, hcode]
        rw [if_neg (by omega), if_neg (by omega), if_pos (by omega), ofNat_eq_of_toNat (b := lead) (by omega),
          ofNat_eq_of_toNat (b := x) (by omega), ofNat_eq_of_toNat (b := y) (by omega)]
        rfl
      · cases h
    split at h
    · next hlead =>
      change 240 ≤ lead.toNat ∧ lead.toNat < 248 at hlead
      split at h
      · next x y z tail =>
        simp only [Option.bind_eq_bind, Option.bind_eq_some_iff, Option.map_eq_some_iff] at h
        obtain ⟨n, hx, m, hy, k, hz, _, hscalar, hrest⟩ := h
        cases hrest
        obtain ⟨hn, hx⟩ := continuation?_eq_some_iff.mp hx
        obtain ⟨hm, hy⟩ := continuation?_eq_some_iff.mp hy
        obtain ⟨hk, hz⟩ := continuation?_eq_some_iff.mp hz
        obtain ⟨hleast, hcode⟩ := toNat_of_scalar? hscalar
        simp only [String.utf8EncodeChar, hcode]
        rw [if_neg (by omega), if_neg (by omega), if_neg (by omega), ofNat_eq_of_toNat (b := lead) (by omega),
          ofNat_eq_of_toNat (b := x) (by omega), ofNat_eq_of_toNat (b := y) (by omega),
          ofNat_eq_of_toNat (b := z) (by omega)]
        rfl
      · cases h
    cases h

theorem flatMap_bytes_pieces (b : Bytes) : b.pieces.flatMap Piece.bytes = b := by
  fun_induction pieces b with
  | case1 => rfl
  | case2 x xs c rest h ih =>
    rw [List.flatMap_cons, ih, Piece.bytes, ← eq_of_decodeFront? h]
  | case3 x xs h ih =>
    rw [List.flatMap_cons, ih]
    rfl

end Bytes

namespace Text

/-- Control characters that have an escape of their own. -/
def namedControls : List (Char × UInt8) :=
  [('a', 7), ('b', 8), ('f', 12), ('n', 10), ('r', 13), ('t', 9), ('v', 11)]

/-- Reads a character that is written as a hexadecimal number of some digits. -/
def readCode? (digits : Nat) (cs : List Char) : Option (Bytes × List Char) :=
  (readHex? digits cs).map fun (n, rest) => (String.utf8EncodeChar (Char.ofNat n), rest)

/-- Reads an escape behind its backslash. -/
def readEscape? : List Char → Option (Bytes × List Char)
  | [] => none
  | c :: rest =>
    if c = '"' ∨ c = '\\' then some (String.utf8EncodeChar c, rest)
    else if c = 'x' then (readHex? 2 rest).map fun (n, rest) => ([UInt8.ofNat n], rest)
    else if c = 'u' then readCode? 4 rest
    else if c = 'U' then readCode? 8 rest
    else (namedControls.lookup c).map fun b => ([b], rest)

/-- Reads a byte string in double quotes. -/
def readBytes? (cs : List Char) : Option (Bytes × List Char) := do
  let rest ← skip? "\"" cs
  readQuoted? '"' readEscape? (rest.length + 1) rest

theorem utf8EncodeChar_of_lt {c : Char} (hc : c.toNat < 0x80) : String.utf8EncodeChar c = [UInt8.ofNat c.toNat] := by
  unfold String.utf8EncodeChar
  exact if_pos (Nat.le_of_lt_succ hc)

theorem readCode?_hexDigits (digits : Nat) {c : Char} (hc : c.toNat < 16 ^ (digits + 1)) (rest : List Char) :
    readCode? (digits + 1) (hexDigits (digits + 1) c.toNat ++ rest) = some (String.utf8EncodeChar c, rest) := by
  simp [readCode?, readHex?_hexDigits digits hc]

theorem readPiece?_escape (c : Char) (rest : List Char) :
    readPiece? '"' readEscape? (escape c ++ rest) = some (String.utf8EncodeChar c, rest) := by
  unfold escape
  split
  · next hquote => simp [readPiece?, readEscape?, hquote]
  · next hquote =>
    rw [not_or] at hquote
    split
    · simp [readPiece?, hquote]
    iterate 7
      split
      · next hc =>
        simp [readPiece?, readEscape?, namedControls, List.lookup_cons, utf8EncodeChar_of_lt (c := c) (by omega), hc]
    split
    · have hread := readHex?_hexDigits 1 (n := c.toNat) (by omega) rest
      simp [readPiece?, readEscape?, hread, utf8EncodeChar_of_lt (c := c) (by omega)]
    split
    · next hc => simp [readPiece?, readEscape?, readCode?_hexDigits 3 hc]
    · have hc : c.toNat < 16 ^ 8 := c.val.toNat_lt
      simp [readPiece?, readEscape?, readCode?_hexDigits 7 hc]

theorem readPiece?_escapePiece (p : Bytes.Piece) (rest : List Char) :
    readPiece? '"' readEscape? (escapePiece p ++ rest) = some (p.bytes, rest) := by
  cases p with
  | char c => exact readPiece?_escape c rest
  | raw b => simp [escapePiece, readPiece?, readEscape?, readHex?_hexPair, Bytes.Piece.bytes]

/-- Reading undoes quoting, whatever follows. -/
theorem readBytes?_quoteBytes (b : Bytes) (rest : List Char) :
    readBytes? ((quoteBytes b).toList ++ rest) = some (b, rest) := by
  have htext : (quoteBytes b).toList = "\"".toList ++ (b.pieces.flatMap escapePiece ++ ['"']) := by
    simp [quoteBytes]
  have hread : readQuoted? '"' readEscape? ((b.pieces.flatMap escapePiece ++ '"' :: rest).length + 1)
      (b.pieces.flatMap escapePiece ++ '"' :: rest) = some (b.pieces.flatMap Bytes.Piece.bytes, rest) :=
    readQuoted?_flatMap readPiece?_escapePiece b.pieces rest (by rw [List.length_append]; omega)
  rw [htext, List.append_assoc, readBytes?, skip?_append, List.append_assoc, List.singleton_append]
  rwa [Bytes.flatMap_bytes_pieces] at hread

end Text

end TreeCompiler
