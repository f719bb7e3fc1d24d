import TreeCompiler.Text.Bytes

namespace TreeCompiler.Asm

/-- The spelling of a byte in a backquoted string of the assembler. -/
def escapeByte (b : UInt8) : List Char :=
  if b = 0x60 ∨ b = 0x5c then ['\\', Char.ofNat b.toNat]
  else if b = 0x0a then ['\\', 'n']
  else if b = 0x09 then ['\\', 't']
  else if 0x20 ≤ b ∧ b < 0x7f then [Char.ofNat b.toNat]
  else ['\\', 'x'] ++ Bytes.hexPair b

/-- A byte string as a backquoted string of the assembler. -/
def quoteBytes (s : Bytes) : String :=
  String.ofList (['\x60'] ++ s.flatMap escapeByte ++ ['\x60'])

end TreeCompiler.Asm
