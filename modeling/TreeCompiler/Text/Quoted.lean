import TreeCompiler.Text.Bytes
import TreeCompiler.Text.Printable

namespace TreeCompiler.Text

/-- The lowest `digits` hexadecimal digits of a number, high digit first. -/
def hexDigits : Nat → Nat → List Char
  | 0, _ => []
  | digits + 1, n => hexDigits digits (n / 16) ++ [Bytes.hexDigit (n % 16)]

/-- The spelling of a character between double quotes. -/
def escape (c : Char) : List Char :=
  if c = '"' ∨ c = '\\' then ['\\', c]
  else if isPrintable c then [c]
  else if c.toNat = 7 then ['\\', 'a']
  else if c.toNat = 8 then ['\\', 'b']
  else if c.toNat = 12 then ['\\', 'f']
  else if c.toNat = 10 then ['\\', 'n']
  else if c.toNat = 13 then ['\\', 'r']
  else if c.toNat = 9 then ['\\', 't']
  else if c.toNat = 11 then ['\\', 'v']
  else if c.toNat < 0x20 ∨ c.toNat = 0x7f then ['\\', 'x'] ++ hexDigits 2 c.toNat
  else if c.toNat < 0x10000 then ['\\', 'u'] ++ hexDigits 4 c.toNat
  else ['\\', 'U'] ++ hexDigits 8 c.toNat

/-- The spelling of a piece of a byte string between double quotes. -/
def escapePiece : Bytes.Piece → List Char
  | .char c => escape c
  | .raw b => ['\\', 'x'] ++ Bytes.hexPair b

/-- A byte string in double quotes. -/
def quoteBytes (b : Bytes) : String :=
  String.ofList (['"'] ++ b.pieces.flatMap escapePiece ++ ['"'])

/-- A text in double quotes. -/
def quote (s : String) : String :=
  String.ofList (['"'] ++ s.toList.flatMap escape ++ ['"'])

end TreeCompiler.Text
