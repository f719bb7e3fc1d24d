import TreeCompiler.Yaml.Window

namespace TreeCompiler.Yaml

/-- Line breaks. -/
def isBreak (c : Char) : Bool :=
  c = '\n' || c = '\r' || c.toNat = 0x85 || c.toNat = 0x2028 || c.toNat = 0x2029

/-- What a line break stands for in a scalar. -/
def breakText (c : Char) : Char :=
  if c.toNat = 0x2028 || c.toNat = 0x2029 then c else '\n'

/-- Blanks are spaces and tabs. -/
def isBlank (c : Char) : Bool :=
  c = ' ' || c = '\t'

/-- White space is blanks and line breaks. -/
def isWhite (c : Char) : Bool :=
  isBlank c || isBreak c

/-- Whether a document ends here or goes on with white space. -/
def atGap : List Char → Bool
  | [] => true
  | c :: _ => isWhite c

/-- Whether a line ends here. -/
def atLineEnd : List Char → Bool
  | [] => true
  | c :: _ => isBreak c

/-- The characters of anchors, tag handles and directive names. -/
def isWord (c : Char) : Bool :=
  c.isAlphanum || c = '_' || c = '-'

/-- The value of a hexadecimal digit. -/
def hexValue? (c : Char) : Option Nat :=
  if c.isDigit then some (c.toNat - '0'.toNat)
  else if 'a' ≤ c ∧ c ≤ 'f' then some (c.toNat - 'a'.toNat + 10)
  else if 'A' ≤ c ∧ c ≤ 'F' then some (c.toNat - 'A'.toNat + 10)
  else none

/-- The value of a hexadecimal numeral. -/
def hexNumber? (digits : List Char) : Option Nat := do
  let values ← digits.mapM hexValue?
  return values.foldl (fun n d => n * 16 + d) 0

/-- Whether three dashes stand here on their own. -/
def atDocumentStart : List Char → Bool
  | '-' :: '-' :: '-' :: rest => atGap rest
  | _ => false

/-- Whether three dots stand here on their own. -/
def atDocumentEnd : List Char → Bool
  | '.' :: '.' :: '.' :: rest => atGap rest
  | _ => false

/-- A position in a document, counted from zero. -/
structure Mark where
  index : Nat := 0
  line : Nat := 0
  column : Nat := 0
  deriving DecidableEq, Repr

namespace Mark

/-- The position behind a character of the same line. -/
def next (m : Mark) : Mark :=
  { m with index := m.index + 1, column := m.column + 1 }

/-- The position behind a line break of some characters. -/
def nextLine (m : Mark) (width : Nat) : Mark :=
  { index := m.index + width, line := m.line + 1, column := 0 }

end Mark

/-- A place in a text that is being read. -/
structure Cursor where
  rest : List Char
  window : Window
  mark : Mark := {}
  /-- How many line breaks have been passed over since the last visible character. -/
  breaks : Nat := 0
  /-- More than the length of the text, which bounds the rounds of every loop that reads
      a character in each. -/
  limit : Nat
  deriving DecidableEq, Repr

namespace Cursor

/-- The start of a text. -/
def ofString (s : String) : Cursor :=
  let text := s.toList
  { rest := if text.head? = some byteOrderMark then text.drop 1 else text
    window := .ofText text
    limit := text.length + 8 }

/-- Whether one of the marks that part documents stands at the start of a line here. -/
def atDocumentMark (c : Cursor) : Bool :=
  c.mark.column = 0 && (atDocumentStart c.rest || atDocumentEnd c.rest)

end Cursor

/-- Reading characters moves the cursor, or fails. -/
abbrev InputM := StateT Cursor Option

namespace Input

/-- Makes sure that some characters are taken in. -/
def need (n : Nat) : InputM Unit := fun c =>
  (c.window.reach n c.rest.head?).map fun window => ((), { c with window })

/-- The next character, unless the text ends. -/
def current : InputM (Option Char) := do
  return (← get).rest.head?

/-- The position of the next character. -/
def position : InputM Mark := do
  return (← get).mark

/-- Passes over a character of the same line. -/
def skip : InputM Unit :=
  modify fun c =>
    { c with
      rest := c.rest.drop 1
      window := { c.window with unread := c.window.unread - 1 }
      mark := c.mark.next
      breaks := if c.rest.head?.any isBlank then c.breaks else 0 }

/-- Passes over some characters of the same line. -/
def skipMany : Nat → InputM Unit
  | 0 => pure ()
  | n + 1 => do
    skip
    skipMany n

/-- How many characters the line break that stands here takes. -/
def breakWidth : List Char → Nat
  | '\r' :: '\n' :: _ => 2
  | c :: _ => if isBreak c then 1 else 0
  | [] => 0

/-- Passes over a line break, if one stands here, and gives what it stands for. -/
def skipBreak : InputM (Option Char) := do
  need 2
  let c ← get
  match c.rest with
  | [] => return none
  | first :: _ =>
    if isBreak first then
      let width := breakWidth c.rest
      set { c with
            rest := c.rest.drop width
            window := { c.window with unread := c.window.unread - width }
            mark := c.mark.nextLine width
            breaks := c.breaks + 1 }
      return some (breakText first)
    else return none

/-- Like `skipBreak`, but nothing behind a character that is no line break is asked
    for. -/
def breakHere : InputM (Option Char) := do
  if (← current).any isBreak then skipBreak else return none

/-- Reads characters of a class, at most as many as given, in front of those read before. -/
def takeWhile (p : Char → Bool) : Nat → List Char → InputM (List Char)
  | 0, _ => failure
  | n + 1, text => do
    need 1
    match ← current with
    | some c =>
      if p c then
        skip
        takeWhile p n (c :: text)
      else return text
    | none => return text

/-- Reads the characters of a class that stand here, back to front. -/
def readWhile (p : Char → Bool) : InputM (List Char) := do
  takeWhile p (← get).limit []

/-- Passes over the characters of a class that stand here. -/
def skipWhile (p : Char → Bool) : InputM Unit := do
  let _ ← readWhile p

/-- Passes over the rest of a line, which may hold blanks and a comment only, and over
    the line break behind it. -/
def skipLine : InputM Unit := do
  skipWhile isBlank
  if (← current) = some '#' then skipWhile (!isBreak ·)
  if atLineEnd (← get).rest then
    let _ ← breakHere
  else failure

end Input

end TreeCompiler.Yaml
