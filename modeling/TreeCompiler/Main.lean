import TreeCompiler.Command.Outcome

namespace TreeCompiler.Command

/-- The reason for which the system refuses a file. -/
def refusal : IO.Error → FileError
  | .inappropriateType .. => .notDirectory
  | _ => .notFound

/-- What a file holds. -/
def readTreeFile (name : String) : IO (Except FileError String) := do
  try
    let bytes ← IO.FS.readBinFile name
    return .ok ((Bytes.toString? bytes.toList).getD "\x00")
  catch e => return .error (refusal e)

/-- Writes a file, or says why it cannot be written. -/
def writeOutput (name text : String) : IO (Option FileError) := do
  try
    IO.FS.writeFile name text
    return none
  catch e => return some (refusal e)

/-- Reads the files, runs the program on them, and prints and writes what it leaves. -/
def execute (arguments : List String) : IO UInt32 := do
  let contents ← (filesOf arguments).mapM fun name => return (name, ← readTreeFile name)
  let outcome := run (fun name => (contents.lookup name).getD (.error .notFound)) arguments
  let outcome ← match outcome.file with
    | some (name, text) =>
      match ← writeOutput name text with
      | some e => pure (outcome.unwritable e)
      | none => pure outcome
    | none => pure outcome
  IO.print outcome.printed
  IO.eprint outcome.report
  return outcome.exitCode.toUInt32

end TreeCompiler.Command

def main (arguments : List String) : IO UInt32 :=
  TreeCompiler.Command.execute arguments
