namespace TreeCompiler

/-- A string of bytes. -/
abbrev Bytes := List UInt8

namespace Bytes

/-- The UTF-8 encoding of a text. -/
def ofString (s : String) : Bytes :=
  s.toUTF8.data.toList

/-- The text a byte string encodes, if it is valid UTF-8. -/
def toString? (b : Bytes) : Option String :=
  String.fromUTF8? ⟨b.toArray⟩

/-- The payload of a continuation byte. -/
def continuation? (b : UInt8) : Option Nat :=
  if 0x80 ≤ b ∧ b < 0xC0 then some (b.toNat - 0x80) else none

/-- A code point of at least `least` that is a Unicode scalar value. -/
def scalar? (least code : Nat) : Option Char :=
  if least ≤ code ∧ code.isValidChar then some (Char.ofNat code) else none

/-- The character encoded at the front of a byte string and the bytes after it,
    or nothing when the front is no complete and shortest UTF-8 sequence. -/
def decodeFront? : Bytes → Option (Char × Bytes)
  | [] => none
  | b :: rest =>
    if b < 0x80 then some (Char.ofNat b.toNat, rest)
    else if 0xC0 ≤ b ∧ b < 0xE0 then
      match rest with
      | c :: rest => do
        let x ← continuation? c
        (scalar? 0x80 ((b.toNat - 0xC0) * 64 + x)).map (·, rest)
      | _ => none
    else if 0xE0 ≤ b ∧ b < 0xF0 then
      match rest with
      | c :: d :: rest => do
        let x ← continuation? c
        let y ← continuation? d
        (scalar? 0x800 ((b.toNat - 0xE0) * 4096 + x * 64 + y)).map (·, rest)
      | _ => none
    else if 0xF0 ≤ b ∧ b < 0xF8 then
      match rest with
      | c :: d :: e :: rest => do
        let x ← continuation? c
        let y ← continuation? d
        let z ← continuation? e
        (scalar? 0x10000 ((b.toNat - 0xF0) * 262144 + x * 4096 + y * 64 + z)).map (·, rest)
      | _ => none
    else none

/-- A piece of a byte string: a character, or a byte that belongs to none. -/
inductive Piece where
  | char (c : Char)
  | raw (b : UInt8)
  deriving DecidableEq, Repr

/-- Decoding a character consumes at least one byte. -/
theorem decodeFront?_length_lt {b : Bytes} {c : Char} {rest : Bytes}
    (h : decodeFront? b = some (c, rest)) : rest.length < b.length := by
  cases b with
  | nil => simp [decodeFront?] at h
  | cons x xs =>
    simp only [decodeFront?] at h
    repeat' split at h
    all_goals simp [Option.bind_eq_some_iff] at h
    all_goals grind

/-- The characters of a byte string in order. -/
def pieces (b : Bytes) : List Piece :=
  match b with
  | [] => []
  | x :: xs =>
    match _h : decodeFront? (x :: xs) with
    | some (c, rest) => .char c :: pieces rest
    | none => .raw x :: pieces xs
termination_by b.length
decreasing_by
  · exact decodeFront?_length_lt ‹_›
  · simp

/-- The lower-case hexadecimal digit of a number below sixteen. -/
def hexDigit (n : Nat) : Char :=
  if n < 10 then Char.ofNat (48 + n) else Char.ofNat (87 + n)

/-- The two hexadecimal digits of a byte. -/
def hexPair (b : UInt8) : List Char :=
  [hexDigit (b.toNat / 16), hexDigit (b.toNat % 16)]

/-- A byte string as hexadecimal digits. -/
def toHex (b : Bytes) : String :=
  String.ofList (b.flatMap hexPair)

end Bytes

end TreeCompiler
