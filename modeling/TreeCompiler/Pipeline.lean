import TreeCompiler.Asm.Program
import TreeCompiler.Code.Validity
import TreeCompiler.Lower.Program
import TreeCompiler.Tree.Decode

namespace TreeCompiler

/-- Why the system refuses a file. -/
inductive FileError where
  | notFound
  | isDirectory
  | notDirectory
  deriving DecidableEq, Repr

/-- The words for a refused file. -/
def FileError.message (name : String) (e : FileError) : String :=
  "open " ++ name ++ ": " ++
    match e with
    | .notFound => "no such file or directory"
    | .isDirectory => "is a directory"
    | .notDirectory => "not a directory"

/-- Why no program is read from a file. -/
inductive ReadError where
  | file (name : String) (e : FileError)
  | decode (e : Tree.Decode.Error)
  deriving Repr

namespace ReadError

/-- The kind of failure an error belongs to. -/
def kind : ReadError → FailureKind
  | .file .. => .other
  | .decode e => e.cause.kind

/-- The message of an error. -/
def message : ReadError → String
  | .file name e => inPlace "open" (e.message name)
  | .decode e => Tree.Decode.Error.message e

end ReadError

/-- Reads a program from what a file holds. -/
def readProgram (name : String) : Except FileError String → Except ReadError Tree.Program
  | .ok text => (Tree.Program.ofText text).mapError .decode
  | .error e => .error (.file name e)

/-- Which stage a program does not pass. -/
inductive BuildError where
  | lower (e : Lower.Error)
  | validity (e : Code.Validity.Error)
  | assembly (e : Asm.Error)
  deriving Repr

namespace BuildError

/-- The kind of failure an error belongs to. -/
def kind : BuildError → FailureKind
  | .lower e => e.cause.kind
  | .validity e => e.cause.kind
  | .assembly e => e.kind

/-- The message of an error, behind the stage. -/
def message : BuildError → String
  | .lower e => inPlace "irgen" (Lower.Error.message e)
  | .validity e => inPlace "validate" (Code.Validity.Error.message e)
  | .assembly (.badTemp e) => e.message
  | .assembly e => inPlace "codegen" e.message

end BuildError

/-- The code of a program, which has to be valid. -/
def buildCode (p : Tree.Program) : Except BuildError Code.Program := do
  let code ← (Lower.lowerProgram p).mapError .lower
  code.validate.mapError .validity
  return code

/-- The assembly text of a program. -/
def buildAssembly (options : Asm.Options) (p : Tree.Program) : Except BuildError String := do
  let code ← buildCode p
  (Asm.assemble options code).mapError .assembly

/-- Why a file is not compiled. -/
inductive CompileError where
  | read (e : ReadError)
  | build (e : BuildError)
  deriving Repr

namespace CompileError

/-- The kind of failure an error belongs to. -/
def kind : CompileError → FailureKind
  | .read e => e.kind
  | .build e => e.kind

/-- The message of an error. -/
def message : CompileError → String
  | .read e => inPlace "decode" e.message
  | .build e => e.message

end CompileError

/-- The assembly text of the program in a file. -/
def compileFile (name : String) (content : Except FileError String) :
    Except CompileError String := do
  let p ← (readProgram name content).mapError .read
  (buildAssembly {} p).mapError .build

end TreeCompiler
