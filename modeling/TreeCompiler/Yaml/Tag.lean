import TreeCompiler.Text.Bytes
import TreeCompiler.Yaml.Cursor

namespace TreeCompiler.Yaml

/-- The characters of tags that stand for themselves. -/
def isUriChar (c : Char) : Bool :=
  isWord c || c ∈ [';', '/', '?', ':', '@', '&', '=', '+', '$', '.', ',', '!', '~', '*', '\'',
    '(', ')', '[', ']']

/-- How many bytes follow the first byte of an encoded character. -/
def followers? (b : UInt8) : Option Nat :=
  if b < 0x80 then some 0
  else if 0xC0 ≤ b ∧ b < 0xE0 then some 1
  else if 0xE0 ≤ b ∧ b < 0xF0 then some 2
  else if 0xF0 ≤ b ∧ b < 0xF8 then some 3
  else none

/-- The text of a tag. -/
def uriText (text : Bytes) : String :=
  String.ofList (text.pieces.map fun
    | .char c => c
    | .raw _ => Char.ofNat 0xFFFD)

/-- A tag as it is written: a handle, which is empty for a tag in full, and the text
    behind it. -/
structure TagName where
  handle : String
  suffix : String
  deriving DecidableEq, Repr

/-- Whether a handle has a word between two exclamation marks, or none. -/
def isFullHandle (handle : String) : Bool :=
  handle.length > 1 && handle.endsWith "!"

/-- Whether the name of an anchor may end here. -/
def endsAnchor : List Char → Bool
  | [] => true
  | c :: _ => isWhite c || c ∈ ['?', ':', ',', ']', '\x7d', '%', '@', '\x60']

/-- The directives that may stand before a document. -/
inductive Directive where
  | version (major minor : Nat)
  | tag (handle start : String)
  deriving DecidableEq, Repr

namespace Input

/-- Reads a percent sign and the byte that two digits behind it stand for. -/
def escapedByte : InputM UInt8 := do
  need 3
  match (← get).rest with
  | '%' :: a :: b :: _ =>
    let value ← hexNumber? [a, b]
    skipMany 3
    return UInt8.ofNat value
  | _ => failure

/-- Reads the bytes that follow the first byte of an encoded character. -/
def escapedFollowers : Nat → Bytes → InputM Bytes
  | 0, text => return text
  | n + 1, text => do
    let byte ← escapedByte
    if 0x80 ≤ byte ∧ byte < 0xC0 then escapedFollowers n (byte :: text) else failure

/-- Reads on in a tag up to a character that no tag holds. -/
def uriBytes : Nat → Bytes → InputM Bytes
  | 0, _ => failure
  | n + 1, text => do
    need 1
    match ← current with
    | some c =>
      if c = '%' then
        let byte ← escapedByte
        uriBytes n (← escapedFollowers (← followers? byte) (byte :: text))
      else if isUriChar c then
        skip
        uriBytes n (UInt8.ofNat c.toNat :: text)
      else return text
    | none => return text

/-- Reads the text of a tag behind a part of it that has been read. -/
def uri (start : String) : InputM String := do
  let text ← uriBytes (← get).limit (Bytes.ofString start).reverse
  return uriText text.reverse

/-- Reads the text of a tag, which may not be empty. -/
def uriFull : InputM String := do
  let text ← uri ""
  if text.isEmpty then failure else return text

/-- Reads an exclamation mark, the word behind it and an exclamation mark that ends
    it. -/
def handle : InputM String := do
  need 1
  if (← current) ≠ some '!' then failure
  skip
  let word := (← readWhile isWord).reverse
  if (← current) = some '!' then
    skip
    return String.ofList (['!'] ++ word ++ ['!'])
  else return String.ofList ('!' :: word)

/-- Reads a tag: in full between angle brackets, behind a handle, or behind a single
    exclamation mark. -/
def tagName : InputM TagName := do
  need 2
  let name ←
    if (← get).rest[1]? = some '<' then do
      skipMany 2
      let suffix ← uriFull
      if (← current) ≠ some '>' then failure
      skip
      pure (TagName.mk "" suffix)
    else do
      let handle ← handle
      if isFullHandle handle then pure (TagName.mk handle (← uriFull))
      else
        let text ← uri (String.ofList (handle.toList.drop 1))
        pure (if text.isEmpty then ⟨"", "!"⟩ else ⟨"!", text⟩)
  need 1
  if atGap (← get).rest then return name else failure

/-- Reads the name of an anchor or an alias behind its mark. -/
def anchorName : InputM String := do
  skip
  let name ← readWhile isWord
  if name.isEmpty || !endsAnchor (← get).rest then failure
  return String.ofList name.reverse

/-- Reads a number of one or two digits. -/
def versionNumber : InputM Nat := do
  let digits ← readWhile Char.isDigit
  if digits.isEmpty || digits.length > 2 then failure
  return digits.foldr (fun d n => n * 10 + (d.toNat - '0'.toNat)) 0

/-- Reads the version that a directive asks for. -/
def version : InputM Directive := do
  skipWhile isBlank
  let major ← versionNumber
  if (← current) ≠ some '.' then failure
  skip
  return .version major (← versionNumber)

/-- Reads a handle and the text that it stands for. -/
def tagDirective : InputM Directive := do
  skipWhile isBlank
  let name ← handle
  if name ≠ "!" && !isFullHandle name then failure
  need 1
  if !(← current).any isBlank then failure
  skipWhile isBlank
  let start ← uriFull
  need 1
  if atGap (← get).rest then return .tag name start else failure

/-- Reads a directive and the rest of its line. -/
def directive : InputM Directive := do
  skip
  let name := String.ofList (← readWhile isWord).reverse
  if name.isEmpty || !atGap (← get).rest then failure
  let d ←
    if name = "YAML" then version
    else if name = "TAG" then tagDirective
    else failure
  skipLine
  return d

end Input

end TreeCompiler.Yaml
