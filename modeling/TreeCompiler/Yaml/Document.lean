import TreeCompiler.Yaml.Node
import TreeCompiler.Yaml.Schema
import TreeCompiler.Yaml.TokenStream

namespace TreeCompiler.Yaml

/-- The state in which tokens are read as nodes: the tokens, the anchors met so far and
    what the tag handles stand for. -/
structure Reader where
  tokens : TokenStream
  anchors : List String := []
  handles : List (String × String) := []

/-- Reading nodes changes the state, or fails. -/
abbrev ReadM := StateT Reader Option

namespace Reader

/-- Reads tokens. -/
def ofTokens {α : Type} (m : TokenM α) : ReadM α := fun r =>
  (m r.tokens).map fun (a, tokens) => (a, { r with tokens })

/-- The next token. -/
def peek : ReadM Token :=
  ofTokens TokenStream.peek

/-- Passes over the next token. -/
def skip : ReadM Unit :=
  ofTokens TokenStream.skip

/-- Passes over the next token if it is of a kind, and fails otherwise. -/
def expect (kind : TokenKind) : ReadM Unit := do
  if (← peek).kind = kind then skip else failure

/-- Whether the next token is of one of some kinds. -/
def nextIn (kinds : List TokenKind) : ReadM Bool := do
  return (← peek).kind ∈ kinds

/-- What may stand before a node: an anchor and a tag, in either order. -/
structure Properties where
  anchor : Option String := none
  tag : Option TagName := none

/-- Reads the anchor and the tag of a node. -/
def properties : ReadM Properties := do
  match (← peek).kind with
  | .anchor name =>
    skip
    match (← peek).kind with
    | .tag tag => skip; return { anchor := name, tag }
    | _ => return { anchor := name }
  | .tag tag =>
    skip
    match (← peek).kind with
    | .anchor name => skip; return { anchor := name, tag }
    | _ => return { tag }
  | _ => return {}

/-- The full form of a tag. -/
def fullTag (tag : TagName) : ReadM String := do
  if tag.handle = "" then return tag.suffix
  match (← get).handles.lookup tag.handle with
  | some start => return start ++ tag.suffix
  | none => failure

/-- The tag of a scalar: the one it is written with, in short form, or else the one its text gives
    it. -/
def scalarTag (tag : Option String) (isPlain : Bool) (text : String) : String :=
  match tag with
  | none => if isPlain then Schema.resolve text else "!!str"
  | some tag =>
    if tag = "!" then if isPlain then Schema.resolve text else "!!str"
    else Schema.shorten tag

/-- The node where a value is left out. -/
def absent (line : Nat) : Node :=
  .scalar (line + 1) (Schema.resolve "") ""

/-- Remembers an anchor. -/
def define (anchor : Option String) : ReadM Unit :=
  match anchor with
  | some name => modify fun r => { r with anchors := name :: r.anchors }
  | none => pure ()

/-- A node that consists of an anchor or a tag only. -/
def bare (props : Properties) (tag : Option String) (line : Nat) : ReadM Node := do
  if props.anchor.isNone && tag.isNone then failure
  define props.anchor
  return .scalar line (scalarTag tag true "") ""

mutual

/-- Reads a node. -/
def node (steps : Nat) (inBlock besideKey : Bool) : ReadM Node :=
  match steps with
  | 0 => failure
  | steps + 1 => do
    let first ← peek
    match first.kind with
    | .alias name =>
      skip
      if name ∈ (← get).anchors then return .alias (first.mark.line + 1) name else failure
    | _ =>
      let props ← properties
      let tag ← props.tag.mapM fullTag
      let line := first.mark.line + 1
      match (← peek).kind with
      | .blockEntry =>
        if besideKey then
          define props.anchor
          return .sequence line (← besideItems steps)
        else bare props tag line
      | .scalar isPlain text =>
        skip
        define props.anchor
        return .scalar line (scalarTag tag isPlain text) text
      | .flowSequenceStart =>
        skip
        define props.anchor
        return .sequence line (← flowItems steps true)
      | .flowMappingStart =>
        skip
        define props.anchor
        return .mapping line (← flowEntries steps true)
      | .blockSequenceStart =>
        if inBlock then
          skip
          define props.anchor
          return .sequence line (← blockItems steps)
        else bare props tag line
      | .blockMappingStart =>
        if inBlock then
          skip
          define props.anchor
          return .mapping line (← blockEntries steps)
        else bare props tag line
      | _ => bare props tag line

/-- Reads the items of a block sequence up to its end. -/
def blockItems (steps : Nat) : ReadM (List Node) :=
  match steps with
  | 0 => failure
  | steps + 1 => do
    let token ← peek
    match token.kind with
    | .blockEntry =>
      skip
      let item ← if ← nextIn [.blockEntry, .blockEnd] then pure (absent token.mark.line)
        else node steps true false
      return item :: (← blockItems steps)
    | .blockEnd => skip; return []
    | _ => failure

/-- Reads the items of a sequence that stands at the indentation of its mapping. -/
def besideItems (steps : Nat) : ReadM (List Node) :=
  match steps with
  | 0 => failure
  | steps + 1 => do
    let token ← peek
    match token.kind with
    | .blockEntry =>
      skip
      let item ←
        if ← nextIn [.blockEntry, .key, .value, .blockEnd] then pure (absent token.mark.line)
        else node steps true false
      return item :: (← besideItems steps)
    | _ => return []

/-- Reads the entries of a block mapping up to its end. -/
def blockEntries (steps : Nat) : ReadM (List (Node × Node)) :=
  match steps with
  | 0 => failure
  | steps + 1 => do
    let token ← peek
    match token.kind with
    | .key =>
      skip
      let key ← if ← nextIn [.key, .value, .blockEnd] then pure (absent token.mark.line)
        else node steps true true
      let colon ← peek
      let value ←
        if colon.kind = .value then
          skip
          if ← nextIn [.key, .value, .blockEnd] then pure (absent colon.mark.line)
          else node steps true true
        else pure (absent colon.mark.line)
      return (key, value) :: (← blockEntries steps)
    | .blockEnd => skip; return []
    | _ => failure

/-- Reads the items of a flow sequence up to its bracket. -/
def flowItems (steps : Nat) (isFirst : Bool) : ReadM (List Node) :=
  match steps with
  | 0 => failure
  | steps + 1 => do
    if ← nextIn [.flowSequenceEnd] then
      skip
      return []
    if !isFirst then expect .flowEntry
    let token ← peek
    match token.kind with
    | .flowSequenceEnd => skip; return []
    | .key =>
      skip
      let entry ← flowPair steps
      return .mapping (token.mark.line + 1) [entry] :: (← flowItems steps false)
    | _ =>
      let item ← node steps false false
      return item :: (← flowItems steps false)

/-- Reads a pair of a flow sequence behind the start of its key. -/
def flowPair (steps : Nat) : ReadM (Node × Node) :=
  match steps with
  | 0 => failure
  | steps + 1 => do
    let token ← peek
    let key ←
      if token.kind ∈ [.value, .flowEntry, .flowSequenceEnd] then
        skip
        pure (absent token.mark.line)
      else node steps false false
    let colon ← peek
    if colon.kind = .value then
      skip
      if ← nextIn [.flowEntry, .flowSequenceEnd] then return (key, absent colon.mark.line)
      else return (key, ← node steps false false)
    else return (key, absent colon.mark.line)

/-- Reads the entries of a flow mapping up to its brace. -/
def flowEntries (steps : Nat) (isFirst : Bool) : ReadM (List (Node × Node)) :=
  match steps with
  | 0 => failure
  | steps + 1 => do
    if ← nextIn [.flowMappingEnd] then
      skip
      return []
    if !isFirst then expect .flowEntry
    let token ← peek
    match token.kind with
    | .flowMappingEnd => skip; return []
    | .key =>
      skip
      let next ← peek
      let key ←
        if next.kind ∈ [.value, .flowEntry, .flowMappingEnd] then pure (absent next.mark.line)
        else node steps false false
      if ← nextIn [.value] then
        skip
        let next ← peek
        let value ←
          if next.kind ∈ [.flowEntry, .flowMappingEnd] then pure (absent next.mark.line)
          else node steps false false
        return (key, value) :: (← flowEntries steps false)
      else
        let value := absent (← peek).mark.line
        return (key, value) :: (← flowEntries steps false)
    | _ =>
      let key ← node steps false false
      let value := absent (← peek).mark.line
      return (key, value) :: (← flowEntries steps false)

end

/-- Reads the directives before a document. -/
def directives : Nat → Bool → List (String × String) → ReadM Unit
  | 0, _, _ => failure
  | n + 1, hasVersion, handles => do
    match (← peek).kind with
    | .directive (.version major minor) =>
      if hasVersion || major ≠ 1 || minor ≠ 1 then failure
      skip
      directives n true handles
    | .directive (.tag handle start) =>
      if (handles.lookup handle).isSome then failure
      skip
      directives n hasVersion ((handle, start) :: handles)
    | _ => modify fun r => { r with handles := handles ++ [("!", "!"), ("!!", Schema.longForm)] }

/-- Reads the first document of a stream, if there is one. -/
def document : ReadM (Option Node) := do
  expect .streamStart
  let steps := 8 * (← get).tokens.cursor.limit
  let first ← peek
  if first.kind = .streamEnd then return none
  directives steps false []
  let isMarked ← match first.kind with
    | .directive _ | .documentStart => do expect .documentStart; pure true
    | _ => pure false
  let next ← peek
  let root ← match isMarked, next.kind with
    | true, .directive _ | true, .documentStart | true, .documentEnd | true, .streamEnd =>
      pure (absent next.mark.line)
    | _, _ => node steps true false
  let _ ← peek
  return some root

end Reader

/-- A document that is not well formed. -/
structure Malformed where
  deriving DecidableEq, Repr

/-- The root of the first document of a text, if the text holds one. -/
def firstDocument (text : String) : Except Malformed (Option Node) :=
  match Reader.document { tokens := .ofString text } with
  | some (root, _) => .ok root
  | none => .error {}

end TreeCompiler.Yaml
