import TreeCompiler.Asm.Line
import TreeCompiler.Code.Basic

namespace TreeCompiler.Asm

/-- The string literals of a program, each once, in the order of their symbols. -/
structure StringTable where
  strings : Array Bytes := #[]
  deriving DecidableEq, Repr

namespace StringTable

/-- The index of a string, which is added behind the others if it is new. -/
def intern (t : StringTable) (s : Bytes) : Nat × StringTable :=
  match t.strings.idxOf? s with
  | some index => (index, t)
  | none => (t.strings.size, ⟨t.strings.push s⟩)

/-- Adds a literal if it is a string. -/
def addConst (t : StringTable) : Code.Const → StringTable
  | .str s => (t.intern s).2
  | _ => t

/-- Adds an operand if it is a string literal. -/
def addOperand (t : StringTable) : Option Code.Operand → StringTable
  | some (.const c) => t.addConst c
  | _ => t

/-- The strings of a program: those in the pool first, then those in the code. -/
def ofProgram (p : Code.Program) : StringTable :=
  let pooled := p.consts.foldl addConst {}
  let instrs := p.funcs.flatMap (·.code)
  (instrs.flatMap (·.operands)).foldl addOperand pooled

/-- The lines that define the strings. -/
def lines (t : StringTable) : List Line :=
  t.strings.toList.mapIdx fun index text => .string index text

end StringTable

end TreeCompiler.Asm
