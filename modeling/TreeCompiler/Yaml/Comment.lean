import TreeCompiler.Yaml.Cursor

namespace TreeCompiler.Yaml

/-- Which way a comment belongs to a token: it stands above it, beside it or below
    it. -/
inductive CommentKind where
  | head
  | line
  | foot
  deriving DecidableEq, Repr

/-- A comment, as far as it settles where block collections end. -/
structure Comment where
  kind : CommentKind
  /-- Where the white space before the comment starts. -/
  gapStart : Mark := {}
  /-- The position of the token that the comment belongs to. -/
  token : Mark
  start : Mark
  stop : Mark := {}
  deriving DecidableEq, Repr

/-- What surrounds the white space in which comments are looked for. -/
structure CommentPlace where
  inFlow : Bool
  /-- The column of the innermost block collection. -/
  indent : Nat
  /-- Whether the last token before is the colon of a mapping. -/
  behindColon : Bool
  /-- The line on which a comment can still be below what stands before it. -/
  footLine : Option Nat
  deriving DecidableEq, Repr

/-- The state in which comments are looked for. -/
structure CommentSearch where
  gapStart : Mark
  token : Mark
  /-- Where the comment starts that is being read, if there is one. -/
  start : Option Mark := none
  /-- Whether the last line was empty. -/
  recentEmpty : Bool := false
  /-- Whether no empty line has been met. -/
  firstEmpty : Bool
  line : Nat
  column : Nat
  /-- The comments that have been read, last one first. -/
  found : List Comment := []
  deriving DecidableEq, Repr

namespace CommentSearch

/-- Ends the comment that is being read below a token. -/
def closeFoot (s : CommentSearch) (stop : Mark) : CommentSearch :=
  match s.start with
  | none => s
  | some start =>
    { s with
      gapStart := stop
      token := stop
      start := none
      found := ⟨.foot, s.gapStart, s.token, start, stop⟩ :: s.found }

/-- Ends the comment that is being read where a line or a flow collection ends. -/
def endLine (s : CommentSearch) (place : CommentPlace) (closes : Bool) (stop : Mark) :
    CommentSearch :=
  match s.start with
  | none => s
  | some start =>
    let dedented := start.column ≤ place.indent
    let isFoot := closes || (s.firstEmpty &&
      ((place.footLine = some start.line && !place.behindColon) || dedented))
    if (closes || !s.recentEmpty) && isFoot then
      (if dedented then { s with token := start } else s).closeFoot stop
    else s

/-- Ends the comment that is being read where a visible character stands. -/
def endIndent (s : CommentSearch) (place : CommentPlace) (stop : Mark) : CommentSearch :=
  match s.start with
  | none => s
  | some start =>
    if stop.column ≤ place.indent && stop.column ≠ start.column then s.closeFoot stop else s

/-- The comments that have been read, first one first, when the search stops. -/
def finish (s : CommentSearch) (stop : Mark) : List Comment :=
  match s.start with
  | none => s.found.reverse
  | some start => (⟨.head, s.gapStart, start, start, stop⟩ :: s.found).reverse

end CommentSearch

/-- How many characters white space may have in which comments are looked for. -/
def maxGap : Nat := 512

/-- What is seen behind a line break. -/
def behindBreak (c : Char) (rest : List Char) : List Char :=
  if c.utf8Size > 1 then ['.'] else rest

namespace Input

/-- Passes over what stands before an index and over the rest of the line that it is
    on. -/
def skipComment (index : Nat) : Nat → InputM Unit
  | 0 => failure
  | n + 1 => do
    need 1
    let m ← position
    match ← current with
    | none => if m.index < index then failure
    | some c =>
      if isBreak c then
        if m.index < index then
          let _ ← skipBreak
          skipComment index n
      else
        skip
        skipComment index n

/-- Looks for comments from the `ahead`-th character on, which is the first of `view`. -/
def searchComments (place : CommentPlace) : Nat → Nat → List Char → CommentSearch →
    InputM (List Comment)
  | 0, _, _, _ => failure
  | n + 1, ahead, view, s => do
    let m ← position
    if ahead ≥ maxGap then return s.finish ⟨m.index + ahead - 1, s.line, s.column⟩
    need (ahead + 1)
    let s := { s with column := s.column + 1 }
    let here : Mark := ⟨m.index + ahead, s.line, s.column⟩
    let stop : Mark := { here with index := here.index - 1 }
    match view with
    | [] => return (s.endLine place false here).finish stop
    | c :: rest =>
      if isBlank c then searchComments place n (ahead + 1) rest s
      else if isBreak c then
        let s := s.endLine place false here
        searchComments place n (ahead + 1) (behindBreak c rest)
          { s with firstEmpty := false, recentEmpty := true, column := 0, line := s.line + 1 }
      else if place.inFlow && c ∈ [']', '\x7d'] then
        return (s.endLine place true here).finish stop
      else
        let s := s.endIndent place here
        if c ≠ '#' then return s.finish stop
        skipComment here.index (← get).limit
        let after ← get
        let view := match after.rest with
          | [] => []
          | c :: rest => behindBreak c rest
        searchComments place n 1 view
          { s with
            start := s.start <|> some here
            recentEmpty := false
            column := 0
            line := after.mark.line }

/-- Reads the comments that stand here, first one first. -/
def comments (place : CommentPlace) (gapStart token : Mark) : InputM (List Comment) := do
  let c ← get
  searchComments place (c.limit + maxGap) 0 c.rest
    { gapStart, token, firstEmpty := c.breaks ≤ 1, line := c.mark.line, column := c.mark.column }

/-- Whether a comment follows blanks, and how many there are. -/
def commentBeside : Nat → Nat → List Char → InputM (Option Nat)
  | 0, _, _ => return none
  | n + 1, ahead, view => do
    need (ahead + 1)
    match view with
    | [] => return none
    | c :: rest =>
      if isBlank c then commentBeside n (ahead + 1) rest
      else return if c = '#' then some ahead else none

/-- Reads a comment that stands beside a token on the same line. -/
def commentOnLine (token : Mark) : InputM (List Comment) := do
  let c ← get
  if c.breaks > 0 then return []
  match ← commentBeside maxGap 0 c.rest with
  | none => return []
  | some blanks =>
    let start : Mark :=
      { c.mark with index := c.mark.index + blanks, column := c.mark.column + blanks }
    skipComment start.index c.limit
    return [{ kind := .line, token, start }]

end Input

end TreeCompiler.Yaml
