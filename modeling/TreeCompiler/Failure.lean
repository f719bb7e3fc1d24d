namespace TreeCompiler

/-- The kinds of failure that callers tell apart. -/
inductive FailureKind where
  | duplicateDeclaration
  | undefinedVariable
  | unsupportedConstruct
  | invalidOperandKind
  | scopeUnderflow
  | malformedDocument
  | negativeKey
  | other
  deriving DecidableEq, Repr

/-- The words that close a message of this kind, if the kind has any. -/
def FailureKind.text? : FailureKind → Option String
  | .duplicateDeclaration => some "duplicate declaration"
  | .undefinedVariable => some "undefined variable"
  | .unsupportedConstruct => some "unsupported construct"
  | .invalidOperandKind => some "invalid operand kind"
  | .scopeUnderflow => some "scope underflow"
  | .malformedDocument => some "yaml"
  | .negativeKey => none
  | .other => none

/-- Puts a message behind the place it is about. -/
def inPlace (place message : String) : String :=
  if place.isEmpty then message else place ++ ": " ++ message

/-- The message of a failure: what was found, then the words of its kind. -/
def FailureKind.describe (kind : FailureKind) (found : String) : String :=
  match kind.text? with
  | some text => inPlace found text
  | none => found

/-- A cause of failure and the places it was met in, outermost first. -/
structure Located (π ε : Type) where
  places : List π
  cause : ε
  deriving Repr

namespace Located

variable {π ε α : Type}

/-- A cause that has not been placed yet. -/
def bare (cause : ε) : Located π ε :=
  ⟨[], cause⟩

/-- Adds the place that encloses all others. -/
def under (place : π) (e : Located π ε) : Located π ε :=
  { e with places := place :: e.places }

/-- The message reads from the outermost place to the cause. -/
def message (place : π → String) (cause : ε → String) (e : Located π ε) : String :=
  e.places.foldr (fun p m => inPlace (place p) m) (cause e.cause)

/-- Places the failure of a computation, if it fails. -/
def within (place : π) (x : Except (Located π ε) α) : Except (Located π ε) α :=
  x.mapError (under place)

end Located

end TreeCompiler
