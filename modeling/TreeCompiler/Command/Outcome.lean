import TreeCompiler.Command.Arguments
import TreeCompiler.Pipeline
import TreeCompiler.Tree.Source

namespace TreeCompiler.Command

/-- What a run leaves behind: the text it prints, a file to be written, and the message
    of the failure that ended it, if one did. -/
structure Outcome where
  printed : String := ""
  file : Option (String × String) := none
  failure : Option String := none
  deriving DecidableEq, Repr

namespace Outcome

/-- A failed run reports one. -/
def exitCode (o : Outcome) : Nat :=
  if o.failure.isSome then 1 else 0

/-- The report of a failure. -/
def report (o : Outcome) : String :=
  match o.failure with
  | some message => "error: " ++ message ++ "\n"
  | none => ""

end Outcome

/-- The help text. -/
def help : String :=
  "gos [flags] - gos compiler backend\n\nSubcommands\n" ++
    String.join (Action.all.map fun a =>
      "    " ++ a.name ++ String.ofList (List.replicate (20 - a.name.length) ' ') ++ " - " ++
        a.summary ++ "\n")

/-- How a run comes to a file's content. -/
abbrev FileReader := String → Except FileError String

/-- The text an action makes of a program. -/
def Action.text (action : Action) (comments : Bool) (name : String) (p : Tree.Program) :
    Except String String :=
  match action with
  | .tree => p.source.mapError fun e => inPlace ("format " ++ name) (Tree.Source.Error.message e)
  | .code =>
    ((buildCode p).map (·.listing)).mapError fun e => inPlace ("compile " ++ name) e.message
  | .assembly =>
    (buildAssembly { comments } p).mapError fun e => inPlace ("compile " ++ name) e.message

/-- The text an action makes of a file. -/
def Action.fileText (action : Action) (comments : Bool) (read : FileReader) (name : String) :
    Except String String := do
  let p ← (readProgram name (read name)).mapError fun e => inPlace ("decode " ++ name) e.message
  action.text comments name p

/-- Makes the texts of files in order, up to the first failure. -/
def Action.texts (action : Action) (comments : Bool) (read : FileReader) :
    List String → String × Option String
  | [] => ("", none)
  | name :: rest =>
    match action.fileText comments read name with
    | .error message => ("", some message)
    | .ok text =>
      let (others, failure) := action.texts comments read rest
      (text ++ others, failure)

/-- Runs an action. -/
def Action.run (action : Action) (read : FileReader) (r : Request) : Outcome :=
  match action, action.texts r.comments read r.files with
  | .assembly, (_, some message) => { failure := some message }
  | .assembly, (text, none) =>
    if r.output = "" then { printed := text } else { file := some (r.output, text) }
  | _, (printed, failure) => { printed, failure }

/-- Runs the program on its arguments. -/
def run (read : FileReader) (arguments : List String) : Outcome :=
  match Invocation.ofArguments arguments with
  | .help => { printed := help }
  | .refused e => { failure := some e.message }
  | .perform a (.error e) => { failure := some (inPlace a.name e.message) }
  | .perform a (.ok r) =>
    let o := a.run read r
    { o with failure := o.failure.map (inPlace a.name) }

/-- The outcome of a run whose file cannot be written. -/
def Outcome.unwritable (o : Outcome) (e : FileError) : Outcome :=
  match o.file with
  | some (name, _) =>
    { o with
      file := none
      failure := some (inPlace Action.assembly.name (inPlace "write output" (e.message name))) }
  | none => o

/-- The files a run reads if all goes well. -/
def filesOf (arguments : List String) : List String :=
  match Invocation.ofArguments arguments with
  | .perform _ (.ok r) => r.files
  | _ => []

end TreeCompiler.Command
