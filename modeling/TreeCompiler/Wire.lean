import TreeCompiler.Text.Bytes

namespace TreeCompiler.Wire

/-- The classes of encoded values, each with the number that marks it. -/
inductive Major where
  | int
  | negative
  | text
  | array
  | map
  deriving DecidableEq, Repr

/-- The three bits that mark a class. -/
def Major.code : Major → Nat
  | .int => 0
  | .negative => 1
  | .text => 3
  | .array => 4
  | .map => 5

/-- The lowest `width` bytes of a number, high byte first. -/
def bigEndian : Nat → Nat → Bytes
  | 0, _ => []
  | width + 1, n => bigEndian width (n / 256) ++ [UInt8.ofNat n]

/-- The first byte of a value: its class and either a small number or the code
    of how many bytes hold the number. -/
def lead (major : Major) (low : Nat) : UInt8 :=
  UInt8.ofNat (major.code * 32 + low)

/-- The head of a value: its class and a number below 2⁶⁴ in the fewest bytes. -/
def tag (major : Major) (n : Nat) : Bytes :=
  if n < 24 then [lead major n]
  else if n < 0x100 then lead major 24 :: bigEndian 1 n
  else if n < 0x10000 then lead major 25 :: bigEndian 2 n
  else if n < 0x100000000 then lead major 26 :: bigEndian 4 n
  else lead major 27 :: bigEndian 8 n

/-- An integer of the signed machine word. -/
def int (v : Int) : Bytes :=
  if 0 ≤ v then tag .int v.toNat else tag .negative ((1 - v).toNat % 0x10000000000000000)

/-- A text, headed by its length in bytes. -/
def text (s : String) : Bytes :=
  let b := Bytes.ofString s
  tag .text b.length ++ b

/-- The value that stands for nothing. -/
def null : Bytes := [0xf6]

/-- An array whose length is not written: its items stand between two marks. -/
def openArray (items : List Bytes) : Bytes :=
  [0x9f] ++ items.flatten ++ [0xff]

/-- A map, headed by its number of entries. -/
def map (entries : List (String × Bytes)) : Bytes :=
  tag .map entries.length ++ entries.flatMap fun (k, v) => text k ++ v

end TreeCompiler.Wire
