import TreeCompiler.Text.Quoted

namespace TreeCompiler.Text

/-- Why a text is not read as a number or truth value. -/
inductive NumeralError where
  | malformed
  | outOfRange
  deriving DecidableEq, Repr

namespace Numeral

/-- The value of a digit in any base up to thirty-six. -/
def digit? (c : Char) : Option Nat :=
  if c.isDigit then some (c.toNat - '0'.toNat)
  else if c.isLower then some (c.toNat - 'a'.toNat + 10)
  else if c.isUpper then some (c.toNat - 'A'.toNat + 10)
  else none

/-- The largest value an unsigned machine word holds. -/
def maxUnsigned : Nat := 0xffffffffffffffff

/-- Extends the number read so far by the digits of a text. -/
def accumulate (base : Nat) : Nat → List Char → Except NumeralError Nat
  | n, [] => .ok n
  | n, c :: rest =>
    if c = '_' then accumulate base n rest
    else
      match digit? c with
      | none => .error .malformed
      | some d =>
        if d < base then
          if n * base + d ≤ maxUnsigned then accumulate base (n * base + d) rest
          else .error .outOfRange
        else .error .malformed

/-- Splits off the mark of the base: `0b`, `0o` and `0x` need a digit behind
    them, any other leading zero marks octal, and all else is decimal. -/
def splitBase : List Char → Nat × List Char
  | '0' :: x :: y :: rest =>
    if x = 'b' ∨ x = 'B' then (2, y :: rest)
    else if x = 'o' ∨ x = 'O' then (8, y :: rest)
    else if x = 'x' ∨ x = 'X' then (16, y :: rest)
    else (8, x :: y :: rest)
  | '0' :: rest => (8, rest)
  | cs => (10, cs)

/-- What stands before a position in a numeral. -/
inductive Before where
  | nothing
  | digit
  | separator
  | other
  deriving DecidableEq, Repr

/-- Whether every underscore of the rest of a numeral stands between digits. -/
def separatorsOkAfter (hex : Bool) : Before → List Char → Bool
  | before, [] => before ≠ .separator
  | before, c :: rest =>
    if c.isDigit ∨ (hex ∧ (c.toLower ∈ ['a', 'b', 'c', 'd', 'e', 'f'])) then
      separatorsOkAfter hex .digit rest
    else if c = '_' then
      if before = .digit then separatorsOkAfter hex .separator rest else false
    else if before = .separator then false
    else separatorsOkAfter hex .other rest

/-- Whether every underscore of a numeral without sign stands between digits,
    where the mark of the base counts as a digit. -/
def separatorsOk : List Char → Bool
  | '0' :: x :: rest =>
    if x.toLower ∈ ['b', 'o', 'x'] then separatorsOkAfter (x.toLower = 'x') .digit rest
    else separatorsOkAfter false .nothing ('0' :: x :: rest)
  | cs => separatorsOkAfter false .nothing cs

/-- Reads an unsigned word whose base is given by its mark. -/
def unsigned (cs : List Char) : Except NumeralError Nat :=
  if cs.isEmpty then .error .malformed
  else
    match accumulate (splitBase cs).1 0 (splitBase cs).2 with
    | .error e => .error e
    | .ok n => if '_' ∈ cs ∧ !separatorsOk cs then .error .malformed else .ok n

/-- Reads an unsigned word in a given base. -/
def unsignedIn (base : Nat) (cs : List Char) : Except NumeralError Nat :=
  if cs.isEmpty ∨ '_' ∈ cs then .error .malformed else accumulate base 0 cs

/-- Reads an optional sign and then a magnitude. -/
def signedBy (magnitude : List Char → Except NumeralError Nat) (cs : List Char) :
    Except NumeralError Int :=
  let positive := fun rest =>
    match magnitude rest with
    | .error e => .error e
    | .ok n => if n < 0x8000000000000000 then .ok (n : Int) else .error .outOfRange
  match cs with
  | '+' :: rest => positive rest
  | '-' :: rest =>
    match magnitude rest with
    | .error e => .error e
    | .ok n => if n ≤ 0x8000000000000000 then .ok (-(n : Int)) else .error .outOfRange
  | cs => positive cs

/-- Reads a signed word whose base is given by its mark. -/
def signed (cs : List Char) : Except NumeralError Int :=
  signedBy unsigned cs

/-- Reads a signed word in a given base. -/
def signedIn (base : Nat) (cs : List Char) : Except NumeralError Int :=
  signedBy (unsignedIn base) cs

/-- Reads a truth value. -/
def truth? (s : String) : Option Bool :=
  if s ∈ ["1", "t", "T", "TRUE", "true", "True"] then some true
  else if s ∈ ["0", "f", "F", "FALSE", "false", "False"] then some false
  else none

end Numeral

/-- The message for a text that the named reader refused. -/
def NumeralError.message (reader text : String) : NumeralError → String
  | .malformed => reader ++ ": parsing " ++ quote text ++ ": invalid syntax"
  | .outOfRange => reader ++ ": parsing " ++ quote text ++ ": value out of range"

end TreeCompiler.Text
