import TreeCompiler.Code.Basic
import TreeCompiler.Failure

namespace TreeCompiler

/-- A declared name with the variable that stores its value. -/
structure Symbol where
  name : String
  storage : String
  ty : Code.Ty
  deriving DecidableEq, Repr

/-- The names that are visible at a point of a function. -/
structure ScopeTable where
  scopes : List (List Symbol) := []
  taken : List String := []
  deriving DecidableEq, Repr

namespace ScopeTable

/-- Why a scope operation is refused. -/
inductive Error where
  | noScope
  | noScopeFor (name : String)
  | duplicate (name : String)
  | undefined (name : String)
  deriving DecidableEq, Repr

/-- The kind of failure an error belongs to. -/
def Error.kind : Error → FailureKind
  | .noScope => .scopeUnderflow
  | .noScopeFor _ => .scopeUnderflow
  | .duplicate _ => .duplicateDeclaration
  | .undefined _ => .undefinedVariable

/-- The words for what was found. -/
def Error.found : Error → String
  | .noScope => ""
  | .noScopeFor name => "declare " ++ name
  | .duplicate name => name
  | .undefined name => name

/-- The message of an error. -/
def Error.message (e : Error) : String :=
  e.kind.describe e.found

/-- Opens a scope inside the innermost one. -/
def enter (t : ScopeTable) : ScopeTable :=
  { t with scopes := [] :: t.scopes }

/-- Leaves the innermost scope. -/
def leave (t : ScopeTable) : Except Error ScopeTable :=
  match t.scopes with
  | [] => .error .noScope
  | _ :: outer => .ok { t with scopes := outer }

/-- The number of open scopes. -/
def depth (t : ScopeTable) : Nat :=
  t.scopes.length

/-- The first free name among the numbered variants of a name. -/
def freeVariant (taken : List String) (name : String) (number : Nat) : Nat → String
  | 0 => name ++ "." ++ toString number
  | tries + 1 =>
    if name ++ "." ++ toString number ∈ taken then
      freeVariant taken name (number + 1) tries
    else name ++ "." ++ toString number

/-- The storage name for a new declaration: the name itself if it is free, else its
    first free variant. -/
def storageName (taken : List String) (name : String) : String :=
  if name ∈ taken then freeVariant taken name 1 taken.length else name

/-- The symbol of a name in one scope. -/
def find? (scope : List Symbol) (name : String) : Option Symbol :=
  scope.find? (·.name == name)

/-- Binds a name in the innermost scope and gives its storage. -/
def declare (t : ScopeTable) (name : String) (ty : Code.Ty) : Except Error (String × ScopeTable) :=
  match t.scopes with
  | [] => .error (.noScopeFor name)
  | scope :: outer =>
    if (find? scope name).isSome then .error (.duplicate name)
    else
      let storage := storageName t.taken name
      .ok (storage, { scopes := (⟨name, storage, ty⟩ :: scope) :: outer,
                      taken := storage :: t.taken })

/-- The innermost symbol of a name. -/
def lookup (t : ScopeTable) (name : String) : Except Error Symbol :=
  match t.scopes.findSome? (find? · name) with
  | some symbol => .ok symbol
  | none => .error (.undefined name)

/-- The type of the innermost symbol of a name. -/
def lookupType (t : ScopeTable) (name : String) : Except Error Code.Ty :=
  (t.lookup name).map (·.ty)

end ScopeTable

end TreeCompiler
