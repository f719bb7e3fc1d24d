import TreeCompiler.Yaml.Comment
import TreeCompiler.Yaml.Scalar
import TreeCompiler.Yaml.Token

namespace TreeCompiler.Yaml

/-- A token that becomes a mapping key if a colon follows it on the same line. -/
structure KeyCandidate where
  /-- The number of the token. -/
  token : Nat
  mark : Mark
  /-- Whether nothing but a key may stand here. -/
  isRequired : Bool
  /-- Whether the token is held back until it is settled that it is no key. -/
  isHeld : Bool := true
  deriving DecidableEq, Repr

/-- An open flow collection, or the block around all of them. -/
structure Level where
  /-- The number of the bracket that opens it. -/
  opening : Nat := 0
  /-- Whether a token in it could have been a key. -/
  hasCandidate : Bool := false
  candidate : Option KeyCandidate := none
  deriving DecidableEq, Repr

/-- The tokens of a text as far as they have been read, and where reading goes on. -/
structure TokenStream where
  cursor : Cursor
  hasStarted : Bool := false
  /-- The tokens that have been read and not taken. -/
  queue : List Token := []
  /-- How many tokens have been taken. -/
  taken : Nat := 0
  /-- The columns of the open block collections, innermost first. -/
  indents : List Nat := []
  /-- The open flow collections and the block around them, innermost first. -/
  levels : List Level := [{}]
  /-- Whether a key may start here. -/
  keyAllowed : Bool := true
  /-- The comments that belong to tokens not taken, first one first. -/
  comments : List Comment := []
  deriving DecidableEq, Repr

/-- How deep collections may be nested. -/
def maxDepth : Nat := 10000

/-- How far behind the start of a key its colon may stand. -/
def maxKeyLength : Nat := 1024

/-- Reading tokens changes the state, or fails. -/
abbrev TokenM := StateT TokenStream Option

/-- Whether a plain scalar may start with this character. -/
def startsPlain (inFlow : Bool) (c : Char) (rest : List Char) : Bool :=
  if c = '-' then (match rest with | x :: _ => !isBlank x | [] => true)
  else if c = '?' || c = ':' then !inFlow && !atGap rest
  else !(isWhite c || c ∈ [',', '[', ']', '\x7b', '\x7d', '#', '&', '*', '!', '|', '>', '\'', '"',
    '%', '@', '\x60'])

namespace TokenStream

/-- Whether a flow collection is open. -/
def inFlow (s : TokenStream) : Bool :=
  match s.levels with
  | _ :: _ :: _ => true
  | _ => false

/-- The number of the next token that is read. -/
def nextNumber (s : TokenStream) : Nat :=
  s.taken + s.queue.length

/-- The least indentation of what belongs to the innermost block collection. -/
def innerIndent (s : TokenStream) : Nat :=
  match s.indents with
  | [] => 0
  | indent :: _ => indent + 1

/-- Whether a possible key can still become one. -/
def isValidKey (s : TokenStream) (k : KeyCandidate) : Bool :=
  s.cursor.mark.line ≤ k.mark.line && s.cursor.mark.index ≤ k.mark.index + maxKeyLength

/-- The innermost possible key. -/
def candidate (s : TokenStream) : Option KeyCandidate :=
  s.levels.head?.bind (·.candidate)

/-- Reads characters. -/
def input {α : Type} (m : InputM α) : TokenM α := fun s =>
  (m s.cursor).map fun (a, cursor) => (a, { s with cursor })

/-- The position of the next character. -/
def position : TokenM Mark := do
  return (← get).cursor.mark

/-- Settles whether a key may start at the next token. -/
def allowKey (allowed : Bool) : TokenM Unit :=
  modify fun s => { s with keyAllowed := allowed }

/-- Appends a token. -/
def push (kind : TokenKind) (mark : Mark) : TokenM Unit :=
  modify fun s => { s with queue := s.queue ++ [⟨kind, mark⟩] }

/-- Puts a token before the one with a number. -/
def insert (number : Nat) (kind : TokenKind) (mark : Mark) : TokenM Unit :=
  modify fun s =>
    if number < s.taken then { s with queue := s.queue ++ [⟨kind, mark⟩] }
    else { s with queue := s.queue.insertIdx (number - s.taken) ⟨kind, mark⟩ }

/-- Replaces the possible key of the innermost level. -/
def setCandidate (k : Option KeyCandidate) : TokenM Unit :=
  modify fun s =>
    match s.levels with
    | level :: outer =>
      { s with
        levels :=
          { level with hasCandidate := level.hasCandidate || k.isSome, candidate := k } :: outer }
    | [] => s

/-- Gives up the possible key of the innermost level. -/
def dropKey : TokenM Unit := do
  match (← get).candidate with
  | some k => if k.isRequired then failure else setCandidate none
  | none => pure ()

/-- Notes that the next token may be a key, if one may start here. -/
def noteKey : TokenM Unit := do
  if (← get).keyAllowed then
    dropKey
    let s ← get
    let mark := s.cursor.mark
    let isRequired := !s.inFlow && s.indents.head? = some mark.column
    setCandidate (some { token := s.nextNumber, mark, isRequired })

/-- Opens a block collection if the column is deeper than the innermost one. -/
def openBlock (number : Nat) (kind : TokenKind) (mark : Mark) : TokenM Unit := do
  let s ← get
  if !s.inFlow && s.indents.head?.all (· < mark.column) then
    if s.indents.length ≥ maxDepth then failure
    set { s with indents := mark.column :: s.indents }
    insert number kind mark

/-- Opens a block collection at the next token. -/
def openBlockHere (kind : TokenKind) : TokenM Unit := do
  let s ← get
  openBlock s.nextNumber kind s.cursor.mark

/-- Where a block collection with the given column ends: at the first of the comments in the white
    space before `mark` that are indented like its items. -/
def blockEndMark (indent : Nat) (stop : Nat) (mark : Mark) : List Comment → Mark
  | [] => mark
  | c :: earlier =>
    if c.stop.index < stop then mark
    else
      blockEndMark indent c.gapStart.index (if c.start.column = indent + 1 then c.start else mark)
        earlier

/-- The ends of some block collections, innermost first. -/
def blockEnds (comments : List Comment) (mark : Mark) : List Nat → List Token
  | [] => []
  | indent :: outer =>
    let mark := blockEndMark indent mark.index mark comments
    ⟨.blockEnd, mark⟩ :: blockEnds comments mark outer

/-- Closes the block collections that are deeper than a column, or all of them. -/
def closeBlocks (column : Option Nat) (mark : Mark) : TokenM Unit :=
  modify fun s =>
    if s.inFlow then s
    else
      let isDeeper := fun indent => column.all (· < indent)
      let ends := blockEnds s.comments.reverse { mark with index := mark.index - 1 }
        (s.indents.takeWhile isDeeper)
      { s with indents := s.indents.dropWhile isDeeper, queue := s.queue ++ ends }

/-- Reads a token that is a single character. -/
def indicator (kind : TokenKind) : TokenM Unit := do
  push kind (← position)
  input Input.skip

/-- Starts the stream. -/
def streamStart : TokenM Unit := do
  modify fun s => { s with hasStarted := true }
  push .streamStart (← position)

/-- Ends the stream. -/
def streamEnd : TokenM Unit := do
  modify fun s =>
    let m := s.cursor.mark
    if m.column = 0 then s
    else { s with cursor := { s.cursor with mark := { m with line := m.line + 1, column := 0 } } }
  closeBlocks none (← position)
  dropKey
  allowKey false
  push .streamEnd (← position)

/-- Reads a directive. -/
def directive : TokenM Unit := do
  let mark ← position
  closeBlocks none mark
  dropKey
  allowKey false
  let d ← input Input.directive
  push (.directive d) mark

/-- Reads a mark that parts documents. -/
def documentMark (kind : TokenKind) : TokenM Unit := do
  let mark ← position
  closeBlocks none mark
  dropKey
  allowKey false
  push kind mark
  input (Input.skipMany 3)

/-- Opens a flow collection. -/
def openFlow (kind : TokenKind) : TokenM Unit := do
  noteKey
  let s ← get
  if s.levels.length > maxDepth then failure
  set { s with levels := { opening := s.nextNumber } :: s.levels, keyAllowed := true }
  indicator kind

/-- The levels when the innermost flow collection is closed. -/
def closeLevel : List Level → List Level
  | inner :: outer :: more =>
    let release := fun (k : KeyCandidate) =>
      if k.token = inner.opening then { k with isHeld := false } else k
    (if inner.hasCandidate then outer
      else { outer with candidate := outer.candidate.map release }) :: more
  | levels => levels

/-- Closes a flow collection. -/
def closeFlow (kind : TokenKind) : TokenM Unit := do
  dropKey
  modify fun s => { s with levels := closeLevel s.levels, keyAllowed := false }
  indicator kind

/-- Reads a comma between the items of a flow collection. -/
def flowEntry : TokenM Unit := do
  dropKey
  allowKey true
  indicator .flowEntry

/-- Opens a block collection for an indicator that has to stand where a key may. -/
def openForIndicator (kind : TokenKind) : TokenM Unit := do
  let s ← get
  if !s.inFlow then
    if !s.keyAllowed then failure
    openBlockHere kind

/-- Reads the dash of an item of a block sequence. -/
def blockEntry : TokenM Unit := do
  openForIndicator .blockSequenceStart
  dropKey
  allowKey true
  indicator .blockEntry

/-- Reads a question mark before a key. -/
def key : TokenM Unit := do
  openForIndicator .blockMappingStart
  dropKey
  allowKey (!(← get).inFlow)
  indicator .key

/-- Reads a colon. -/
def value : TokenM Unit := do
  let s ← get
  match s.candidate with
  | some k =>
    if s.isValidKey k then
      insert k.token .key k.mark
      openBlock k.token .blockMappingStart k.mark
      setCandidate none
      allowKey false
      return ← indicator .value
    else dropKey
  | none => pure ()
  openForIndicator .blockMappingStart
  allowKey (!s.inFlow)
  indicator .value

/-- Reads a token that may be a key. -/
def keyed (m : InputM TokenKind) : TokenM Unit := do
  noteKey
  allowKey false
  let mark ← position
  let kind ← input m
  push kind mark

/-- Reads a block scalar. -/
def blockScalar (literal : Bool) : TokenM Unit := do
  dropKey
  allowKey true
  let mark ← position
  let text ← input (Input.blockScalar literal (← get).innerIndent)
  push (.scalar false text) mark

/-- Reads a plain scalar. -/
def plainScalar : TokenM Unit := do
  noteKey
  allowKey false
  let s ← get
  let (text, isBroken) ← input (Input.plainScalar s.inFlow s.innerIndent)
  push (.scalar true text) s.cursor.mark
  if isBroken then allowKey true

/-- Reads the token that starts here. -/
def tokenAt (c : Char) (rest : List Char) : TokenM Unit := do
  let inFlow := (← get).inFlow
  if c = '[' then openFlow .flowSequenceStart
  else if c = '\x7b' then openFlow .flowMappingStart
  else if c = ']' then closeFlow .flowSequenceEnd
  else if c = '\x7d' then closeFlow .flowMappingEnd
  else if c = ',' then flowEntry
  else if c = '-' && atGap rest then blockEntry
  else if c = '?' && (inFlow || atGap rest) then key
  else if c = ':' && (inFlow || atGap rest) then value
  else if c = '*' then keyed (.alias <$> Input.anchorName)
  else if c = '&' then keyed (.anchor <$> Input.anchorName)
  else if c = '!' then keyed (.tag <$> Input.tagName)
  else if c = '|' && !inFlow then blockScalar true
  else if c = '>' && !inFlow then blockScalar false
  else if c = '\'' || c = '"' then keyed (.scalar false <$> Input.quotedScalar c)
  else if startsPlain inFlow c rest then plainScalar
  else failure

/-- The last tokens that were read, last one first. -/
def lastTokens (s : TokenStream) : List Token :=
  s.queue.reverse

/-- What surrounds the white space here, and the token before it. -/
def commentPlace (s : TokenStream) (gapStart : Mark) : CommentPlace × Mark :=
  let last := match s.lastTokens with
    | ⟨.flowEntry, _⟩ :: t :: _ => some t
    | t :: _ => some t
    | [] => none
  let c := s.cursor
  let extra := if c.breaks = 0 && c.mark.column > 1 then 1 else 0
  ({ inFlow := s.inFlow
     indent := s.indents.head?.getD 0
     behindColon := last.any (·.kind = .value)
     footLine := if gapStart.column > 0 then some (c.mark.line + 1 + extra - c.breaks) else none },
    (last.map (·.mark)).getD {})

/-- Reads the comments that stand here. -/
def readComments (gapStart : Mark) : TokenM Unit := do
  let (place, token) := (← get).commentPlace gapStart
  let found ← input (Input.comments place gapStart token)
  modify fun s => { s with comments := s.comments ++ found }

/-- Puts a comment beside the first dash of a sequence above what follows it. -/
def raiseComment : TokenM Unit :=
  modify fun s =>
    match s.lastTokens, s.comments.reverse with
    | ⟨.blockEntry, _⟩ :: ⟨.blockSequenceStart, _⟩ :: _, c :: earlier =>
      let mark := s.cursor.mark
      if c.kind = .line && !s.cursor.rest.head?.any isBreak then
        let token := if c.start.line + 1 = mark.line then mark else c.token
        { s with comments := ({ c with kind := .head, token } :: earlier).reverse }
      else s
    | _, _ => s

/-- Passes over white space and comments. -/
def skipGap (gapStart : Mark) : Nat → TokenM Unit
  | 0 => failure
  | n + 1 => do
    input (Input.need 1)
    let s ← get
    if s.cursor.mark.column = 0 && s.cursor.window.startsWithMark then input Input.skip
    input (Input.skipWhile fun c => c = ' ' || (c = '\t' && (s.inFlow || !s.keyAllowed)))
    raiseComment
    if (← get).cursor.rest.head? = some '#' then readComments gapStart
    if (← input Input.breakHere).isSome then
      if !s.inFlow then allowKey true
      skipGap gapStart n

/-- Reads a comment beside the last token. -/
def readLineComment (token : Mark) : TokenM Unit := do
  let s ← get
  if s.lastTokens.head?.any (·.kind = .blockEntry) then pure ()
  else
    let found ← input (Input.commentOnLine token)
    modify fun s => { s with comments := s.comments ++ found }

/-- The position of the token that a comment beside the next token belongs to. -/
def commentOwner (s : TokenStream) (c : Char) : Mark :=
  if c = (if s.inFlow then ',' else ':') then (s.lastTokens.head?.map (·.mark)).getD s.cursor.mark
  else s.cursor.mark

/-- Reads the next token, together with those that block collections add to it. -/
def step : TokenM Unit := do
  input (Input.need 1)
  if !(← get).hasStarted then streamStart
  else
    let gapStart ← position
    skipGap gapStart (← get).cursor.limit
    closeBlocks (some (← position).column) gapStart
    input (Input.need 4)
    let s ← get
    match s.cursor.rest with
    | [] => streamEnd
    | c :: rest =>
      if s.cursor.mark.column = 0 && c = '%' then directive
      else if s.cursor.mark.column = 0 && atDocumentStart s.cursor.rest then
        documentMark .documentStart
      else if s.cursor.mark.column = 0 && atDocumentEnd s.cursor.rest then
        documentMark .documentEnd
      else
        let owner := s.commentOwner c
        tokenAt c rest
        readLineComment owner

/-- Whether the next token has to be held back. -/
def isHeldBack (s : TokenStream) : TokenM Bool := do
  match s.queue with
  | _ :: _ :: _ :: _ =>
    match s.levels.findSome? fun l => l.candidate.filter fun k => k.isHeld && k.token = s.taken with
    | none => return false
    | some k =>
      if s.isValidKey k then return true
      else if k.isRequired then failure
      else return false
  | _ => return true

/-- Reads tokens until the next one can be taken. -/
def settle : Nat → TokenM Unit
  | 0 => failure
  | n + 1 => do
    if ← isHeldBack (← get) then
      step
      settle n

/-- The comments that remain when a token is next. -/
def pendingComments (t : Token) : List Comment → List Comment
  | [] => []
  | c :: later =>
    if t.mark.index < c.token.index || (c.kind = .head && t.kind = .blockEnd) then c :: later
    else pendingComments t later

/-- The next token. -/
def peek : TokenM Token := do
  settle (← get).cursor.limit
  let s ← get
  match s.queue with
  | t :: _ =>
    set { s with comments := pendingComments t s.comments }
    return t
  | [] => failure

/-- Takes the next token. -/
def skip : TokenM Unit :=
  modify fun s => { s with queue := s.queue.drop 1, taken := s.taken + 1 }

/-- The state in which no token of a text has been read. -/
def ofString (text : String) : TokenStream :=
  { cursor := .ofString text }

end TokenStream

end TreeCompiler.Yaml
