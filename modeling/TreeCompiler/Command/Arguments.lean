namespace TreeCompiler.Command

/-- What the program can be asked to do with tree files. -/
inductive Action where
  | tree
  | code
  | assembly
  deriving DecidableEq, Repr

namespace Action

/-- All actions, as the help lists them. -/
def all : List Action := [.tree, .code, .assembly]

/-- The word that asks for an action. -/
def name : Action → String
  | .tree => "tree"
  | .code => "ir"
  | .assembly => "asm"

/-- What an action does. -/
def summary : Action → String
  | .tree => "print decoded tree files as source text"
  | .code => "print three-address code of tree files"
  | .assembly => "compile tree files to nasm x86-64 assembly"

/-- The action a word asks for. -/
def ofName? (name : String) : Option Action :=
  all.find? (·.name == name)

end Action

/-- The flags an action may be given. -/
inductive Flag where
  | verbosity
  | output
  | comments
  deriving DecidableEq, Repr

namespace Flag

/-- The names of a flag. -/
def names : Flag → List String
  | .verbosity => ["verbosity", "v"]
  | .output => ["output", "o"]
  | .comments => ["comments"]

/-- Whether a flag needs a value, for which the next argument is taken if need be. -/
def needsValue : Flag → Bool
  | .verbosity => true
  | .output => true
  | .comments => false

/-- The flags of an action. -/
def allowed : Option Action → List Flag
  | none => []
  | some .assembly => [.output, .comments, .verbosity]
  | some _ => [.verbosity]

end Flag

/-- Why a flag is refused. -/
inductive FlagError where
  | unknown
  | valueRequired
  | notTruth
  deriving DecidableEq, Repr

/-- The words for a refused flag. -/
def FlagError.message : FlagError → String
  | .unknown => "no such flag"
  | .valueRequired => "flag value is required"
  | .notTruth => "not a bool value"

/-- Why the arguments are refused. -/
inductive UsageError where
  | flag (argument : String) (e : FlagError)
  | unexpected (argument : String)
  deriving DecidableEq, Repr

/-- The words for refused arguments. -/
def UsageError.message : UsageError → String
  | .flag argument e => "parse flag: " ++ argument ++ ": " ++ e.message
  | .unexpected argument => "no args expected, got " ++ argument

/-- What an action is to work on. -/
structure Request where
  files : List String := []
  output : String := ""
  comments : Bool := false
  deriving DecidableEq, Repr

/-- The truth value of a flag. -/
def truth? (value : String) : Option Bool :=
  if value.toLower ∈ ["true", "t", "yes", "y", "1", ""] then some true
  else if value.toLower ∈ ["false", "f", "no", "n", "0"] then some false
  else none

/-- Whether an argument is a flag. -/
def isFlag (argument : String) : Bool :=
  argument.startsWith "-" && argument ≠ "-" && argument ≠ "--"

/-- The name of a flag and the value that is written with it. -/
def splitFlag (argument : String) : String × Option String :=
  let text := match argument.toList with
    | '-' :: '-' :: rest => rest
    | '-' :: rest => rest
    | cs => cs
  let name := String.ofList (text.takeWhile (· ≠ '='))
  match text.dropWhile (· ≠ '=') with
  | [] => (name, none)
  | _ :: value => (name, some (String.ofList value))

/-- The flag of a name among those that are allowed. -/
def flag? (allowed : List Flag) (name : String) : Option Flag :=
  allowed.find? (name ∈ ·.names)

namespace Request

/-- Sets a flag to a value. -/
def set (r : Request) (flag : Flag) (value : String) : Except FlagError Request :=
  match flag with
  | .verbosity => .ok r
  | .output => .ok { r with output := value }
  | .comments =>
    match truth? value with
    | some comments => .ok { r with comments }
    | none => .error .notTruth

/-- Reads the arguments of an action. -/
def parse (allowed : List Flag) (r : Request) : List String → Except UsageError Request
  | [] => .ok r
  | argument :: rest =>
    if argument = "--" then .ok { r with files := r.files ++ rest }
    else if isFlag argument then
      let refuse := fun e => Except.error (UsageError.flag argument e)
      match flag? allowed (splitFlag argument).1 with
      | none => refuse .unknown
      | some flag =>
        match (splitFlag argument).2, flag.needsValue, rest with
        | some value, _, rest =>
          match r.set flag value with
          | .ok r => r.parse allowed rest
          | .error e => refuse e
        | none, false, rest =>
          match r.set flag "" with
          | .ok r => r.parse allowed rest
          | .error e => refuse e
        | none, true, value :: rest =>
          match r.set flag value with
          | .ok r => r.parse allowed rest
          | .error e => refuse e
        | none, true, [] => refuse .valueRequired
    else parse allowed { r with files := r.files ++ [argument] } rest

end Request

/-- What the arguments ask for. -/
inductive Invocation where
  | help
  | perform (a : Action) (request : Except UsageError Request)
  | refused (e : UsageError)
  deriving Repr

/-- Reads the arguments of the program. -/
def Invocation.ofArguments : List String → Invocation
  | [] => .help
  | argument :: rest =>
    if argument = "--" then
      match rest with
      | [] => .help
      | file :: _ => .refused (.unexpected file)
    else if isFlag argument then .refused (.flag argument .unknown)
    else
      match Action.ofName? argument with
      | some a => .perform a (Request.parse (Flag.allowed a) {} rest)
      | none => .refused (.unexpected argument)

end TreeCompiler.Command
