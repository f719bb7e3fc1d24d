namespace TreeCompiler.Yaml

/-- The mark that may open a document to tell its byte order. -/
def byteOrderMark : Char := Char.ofNat 0xFEFF

/-- The characters a document may hold. -/
def isAllowed (c : Char) : Bool :=
  let n := c.toNat
  n = 0x09 || n = 0x0A || n = 0x0D || (0x20 ≤ n && n ≤ 0x7E) || n = 0x85 ||
    (0xA0 ≤ n && n ≤ 0xFFFD) || 0x10000 ≤ n

/-- How many bytes of a text are taken in at once. -/
def blockSize : Nat := 512

/-- The part of a text that lies open to the reader. -/
structure Window where
  /-- The text that is not taken in. -/
  beyond : List Char
  /-- How many characters are taken in and not read, with the ends of the text that were
      asked for. -/
  unread : Nat := 0
  /-- How many bytes the next block may hold. -/
  room : Nat := blockSize
  /-- Whether the end of the text has been met. -/
  hasEnded : Bool := false
  /-- Whether the next character was a byte order mark when the window was last moved. -/
  startsWithMark : Bool := false
  deriving DecidableEq, Repr

namespace Window

/-- Splits off the characters that fit into a number of bytes and counts them. -/
def takeBlock (room count : Nat) : List Char → Option (Nat × List Char)
  | [] => some (count, [])
  | c :: rest =>
    if room < c.utf8Size then some (count, c :: rest)
    else if isAllowed c then takeBlock (room - c.utf8Size) (count + 1) rest
    else none

/-- Takes in a block. -/
def grow (w : Window) : Option Window := do
  let (count, beyond) ← takeBlock w.room 0 w.beyond
  let hasEnded := w.hasEnded || w.beyond.isEmpty
  let ends := if hasEnded then 1 else 0
  return { w with beyond, unread := w.unread + count + ends, room := blockSize, hasEnded }

/-- Takes in blocks until some characters are there or the text ends. -/
def fill (n : Nat) : Nat → Window → Option Window
  | 0, w => some w
  | rounds + 1, w => do
    let w ← w.grow
    if w.hasEnded || n ≤ w.unread then return w else fill n rounds w

/-- The window when some characters are needed. -/
def reach (n : Nat) (next : Option Char) (w : Window) : Option Window :=
  if n ≤ w.unread then some w
  else fill n n { w with startsWithMark := next = some byteOrderMark }

/-- The window before a text is read. -/
def ofText (text : List Char) : Window :=
  match text with
  | c :: rest =>
    if c = byteOrderMark then { beyond := rest, room := blockSize - c.utf8Size }
    else { beyond := text, hasEnded := (String.ofList (text.take 3)).utf8ByteSize < 3 }
  | [] => { beyond := [], hasEnded := true }

end Window

end TreeCompiler.Yaml
