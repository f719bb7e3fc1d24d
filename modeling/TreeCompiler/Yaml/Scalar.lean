import TreeCompiler.Yaml.Cursor

namespace TreeCompiler.Yaml

/-- The white space met since the last visible character. -/
inductive White where
  | none
  | blanks (text : List Char)
  | lines (first : Option Char) (more : List Char)
  deriving DecidableEq, Repr

namespace White

/-- The white space with one more blank. -/
def addBlank (c : Char) : White → White
  | .none => .blanks [c]
  | .blanks text => .blanks (c :: text)
  | .lines first more => .lines first more

/-- The white space with one more line break. -/
def addBreak (c : Char) : White → White
  | .lines first more => .lines first (c :: more)
  | _ => .lines (some c) []

/-- What the white space between two visible characters stands for. -/
def folded : White → List Char
  | .none => []
  | .blanks text => text
  | .lines (some '\n') [] => [' ']
  | .lines (some '\n') more => more
  | .lines (some c) more => more ++ [c]
  | .lines Option.none more => more

/-- Whether the white space goes over the end of a line. -/
def isBroken : White → Bool
  | .lines .. => true
  | _ => false

end White

/-- Whether a plain scalar ends before this character. -/
def endsPlain (inFlow : Bool) (c : Char) (rest : List Char) : Bool :=
  (c = ':' && atGap rest) || (inFlow && c ∈ [',', '?', '[', ']', '\x7b', '\x7d'])

namespace Input

/-- Reads white space inside a scalar. -/
def whiteSpace (indent : Nat) : Nat → White → InputM White
  | 0, _ => failure
  | n + 1, white => do
    need 1
    match ← current with
    | none => return white
    | some c =>
      if isBlank c then
        if c = '\t' && white.isBroken && (← position).column < indent then failure
        skip
        whiteSpace indent n (white.addBlank c)
      else
        match ← breakHere with
        | some b => whiteSpace indent n (white.addBreak b)
        | none => return white

/-- Reads visible characters of a plain scalar. -/
def plainWord (inFlow : Bool) : Nat → List Char → White → InputM (List Char × White)
  | 0, _, _ => failure
  | n + 1, text, white => do
    match (← get).rest with
    | [] => return (text, white)
    | c :: rest =>
      if isWhite c || endsPlain inFlow c rest then return (text, white)
      else
        skip
        need 2
        plainWord inFlow n (c :: (white.folded ++ text)) .none

/-- Reads on in a plain scalar and tells which white space it was left by. -/
def plainLines (inFlow : Bool) (indent : Nat) : Nat → List Char → White →
    InputM (List Char × White)
  | 0, _, _ => failure
  | n + 1, text, white => do
    need 4
    if (← get).atDocumentMark || (← current) = some '#' then return (text, white)
    let (text, white) ← plainWord inFlow (← get).limit text white
    if !(← current).any isWhite then return (text, white)
    let white ← whiteSpace indent (← get).limit white
    if !inFlow && (← position).column < indent then return (text, white)
    plainLines inFlow indent n text white

/-- Reads a plain scalar and tells whether it was left by a line break. -/
def plainScalar (inFlow : Bool) (indent : Nat) : InputM (String × Bool) := do
  let (text, white) ← plainLines inFlow indent (← get).limit [] .none
  return (String.ofList text.reverse, white.isBroken)

end Input

/-- The character that a letter stands for behind a backslash. -/
def escaped? (c : Char) : Option Char :=
  [('0', Char.ofNat 0), ('a', Char.ofNat 7), ('b', Char.ofNat 8), ('t', '\t'), ('\t', '\t'),
    ('n', '\n'), ('v', Char.ofNat 11), ('f', Char.ofNat 12), ('r', '\r'), ('e', Char.ofNat 27),
    (' ', ' '), ('"', '"'), ('\'', '\''), ('\\', '\\'), ('N', Char.ofNat 0x85),
    ('_', Char.ofNat 0xA0), ('L', Char.ofNat 0x2028), ('P', Char.ofNat 0x2029)].lookup c

/-- How many hexadecimal digits follow a letter behind a backslash. -/
def escapeWidth? (c : Char) : Option Nat :=
  [('x', 2), ('u', 4), ('U', 8)].lookup c

namespace Input

/-- Reads a backslash and what it escapes. -/
def escape : InputM Char := do
  let letter ← (← get).rest[1]?
  skipMany 2
  match escaped? letter with
  | some c => return c
  | none =>
    let width ← escapeWidth? letter
    need width
    let digits := (← get).rest.take width
    if digits.length < width then failure
    let value ← hexNumber? digits
    if !value.isValidChar then failure
    skipMany width
    return Char.ofNat value

/-- Reads visible characters of a quoted scalar and tells what white space starts behind them. -/
def quotedWord (quote : Char) : Nat → List Char → InputM (List Char × White)
  | 0, _ => failure
  | n + 1, text => do
    match (← get).rest with
    | [] => return (text, .none)
    | c :: rest =>
      if isWhite c then return (text, .none)
      else if c = quote then
        if c = '\'' && rest.head? = some '\'' then
          skipMany 2
          need 2
          quotedWord quote n (c :: text)
        else return (text, .none)
      else if c = '\\' && quote = '"' then
        if rest.head?.any isBreak then
          need 3
          skip
          let _ ← skipBreak
          return (text, .lines none [])
        else
          let e ← escape
          need 2
          quotedWord quote n (e :: text)
      else
        skip
        need 2
        quotedWord quote n (c :: text)

/-- Reads on in a quoted scalar up to its closing quote. -/
def quotedLines (quote : Char) : Nat → List Char → InputM (List Char)
  | 0, _ => failure
  | n + 1, text => do
    need 4
    if (← get).atDocumentMark || (← current).isNone then failure
    let (text, white) ← quotedWord quote (← get).limit text
    need 1
    if (← current) = some quote then
      skip
      return text
    let white ← whiteSpace 0 (← get).limit white
    quotedLines quote n (white.folded ++ text)

/-- Reads a quoted scalar. -/
def quotedScalar (quote : Char) : InputM String := do
  skip
  return String.ofList (← quotedLines quote (← get).limit []).reverse

end Input

/-- What happens to the line breaks at the end of a block scalar. -/
inductive Chomp where
  | strip
  | clip
  | keep
  deriving DecidableEq, Repr

/-- The indicators of a block scalar: how it ends and how far it is indented. -/
structure BlockHeader where
  chomp : Chomp := .clip
  indent : Nat := 0
  deriving DecidableEq, Repr

/-- How an indicator asks for the line breaks at the end. -/
def chomp? (c : Char) : Option Chomp :=
  if c = '+' then some .keep else if c = '-' then some .strip else none

/-- What has been read of a block scalar. -/
structure BlockText where
  text : List Char := []
  /-- The line break behind the last line. -/
  leading : Option Char := none
  /-- The line breaks of the empty lines after it. -/
  trailing : List Char := []
  /-- Whether the last line starts with a blank. -/
  blankStart : Bool := false
  deriving DecidableEq, Repr

namespace BlockText

/-- The text up to the start of a line. -/
def startLine (b : BlockText) (literal : Bool) (first : Char) : BlockText :=
  let joined :=
    if !literal && !b.blankStart && !isBlank first && b.leading = some '\n' then
      if b.trailing.isEmpty then ' ' :: b.text else b.text
    else b.leading.toList ++ b.text
  { text := b.trailing ++ joined, blankStart := isBlank first }

/-- The text of a block scalar that ends here. -/
def close (b : BlockText) (chomp : Chomp) : String :=
  let text := match chomp with
    | .strip => b.text
    | .clip => b.leading.toList ++ b.text
    | .keep => b.trailing ++ b.leading.toList ++ b.text
  String.ofList text.reverse

end BlockText

namespace Input

/-- Reads the indicator that says how a block scalar ends. -/
def chompIndicator : InputM (Option Chomp) := do
  need 1
  match (← current).bind chomp? with
  | some chomp => skip; return some chomp
  | none => return none

/-- Reads the indicator that says how far a block scalar is indented, which may not be zero. -/
def indentIndicator : InputM Nat := do
  need 1
  match ← current with
  | some c =>
    if c = '0' then failure
    else if c.isDigit then
      skip
      return c.toNat - '0'.toNat
    else return 0
  | none => return 0

/-- Reads the indicators of a block scalar, which come in either order. -/
def blockHeader : InputM BlockHeader := do
  match ← chompIndicator with
  | some chomp => return { chomp, indent := ← indentIndicator }
  | none =>
    let indent ← indentIndicator
    if indent = 0 then return {}
    return { chomp := (← chompIndicator).getD .clip, indent }

/-- Passes over the spaces that indent a line of a block scalar. -/
def blockMargin (indent : Nat) : Nat → InputM Unit
  | 0 => failure
  | n + 1 => do
    need 1
    if indent = 0 || (← position).column < indent then
      match ← current with
      | some ' ' =>
        skip
        blockMargin indent n
      | some '\t' => failure
      | _ => pure ()

/-- Reads the empty lines before a line of a block scalar, and the widest indentation
    of them and of the line. -/
def emptyLines (indent : Nat) : Nat → Nat → List Char → InputM (Nat × List Char)
  | 0, _, _ => failure
  | n + 1, widest, breaks => do
    blockMargin indent (← get).limit
    let widest := max widest (← position).column
    match ← breakHere with
    | some b => emptyLines indent n widest (b :: breaks)
    | none => return (widest, breaks)

/-- Reads the lines of a block scalar. -/
def blockLines (literal : Bool) (indent : Nat) : Nat → BlockText → InputM BlockText
  | 0, _ => failure
  | n + 1, b => do
    match ← current with
    | none => return b
    | some c =>
      if (← position).column ≠ indent then return b
      let b := b.startLine literal c
      let text ← takeWhile (!isBreak ·) (← get).limit b.text
      let leading ← skipBreak
      let (_, trailing) ← emptyLines indent (← get).limit 0 []
      blockLines literal indent n { b with text, leading, trailing }

/-- Reads a block scalar, whose text is indented by `least` at least. -/
def blockScalar (literal : Bool) (least : Nat) : InputM String := do
  skip
  let header ← blockHeader
  skipLine
  let asked := if header.indent = 0 then 0 else header.indent + (least - 1)
  let (widest, trailing) ← emptyLines asked (← get).limit 0 []
  let indent := if asked = 0 then max widest (max least 1) else asked
  let b ← blockLines literal indent (← get).limit { trailing }
  return b.close header.chomp

end Input

end TreeCompiler.Yaml
