import TreeCompiler.Asm.Instr
import TreeCompiler.Asm.Text

namespace TreeCompiler.Asm

open Code (Operand Instr Func)

/-- What can be chosen about the assembly text. -/
structure Options where
  /-- Whether each instruction is announced by a comment. -/
  comments : Bool := false
  /-- Whether a value is taken from a register that holds it, and not from memory again. -/
  reuse : Bool := true
  deriving DecidableEq, Repr

/-- Where the labels of a function stand. -/
def collectLabels (index : Nat) (labels : List (String × Nat)) :
    List Instr → Except Error (List (String × Nat))
  | [] => .ok labels
  | x :: rest =>
    match x.op, x.dst with
    | .label, some (.label name) => collectLabels (index + 1) ((name, index) :: labels) rest
    | .label, o => .error (.located (.bare (.labelDefinition index o)))
    | _, _ => collectLabels (index + 1) labels rest

/-- Copies the incoming arguments into their slots, counted from `index`. -/
def bindParams (site : Site) (index : Nat) : List (Option Operand) → List Reg → GenM (List Insn)
  | [], _ => pure []
  | o :: os, regs =>
    match o, o.bind site.frame.offset? with
    | some p, some offset =>
      match regs with
      | r :: regs => do
        GenM.track (·.set r (some p))
        return [.store (.frame offset) r] ++ (← bindParams site (index + 1) os regs)
      | [] => do
        GenM.track (·.set .rax (some p))
        return [.load .rax (.frame (stackArg index)), .store (.frame offset) .rax] ++
          (← bindParams site (index + 1) os [])
    | _, _ => .fail (.param index o)

/-- Compiles the instructions of a function, counted from `index`. -/
def genCode (options : Options) (site : Site) (index : Nat) (covered : Bool) :
    List Instr → GenM (List Line)
  | [] => pure []
  | x :: rest =>
    if covered then genCode options site (index + 1) false rest
    else do
      let (code, covered) ← GenM.within (.instr index x) (genInstr site index x)
      let announced := if options.comments then [Line.comment x.text] else []
      return announced ++ code ++ (← genCode options site (index + 1) covered rest)

/-- Compiles a function that has code. -/
def genFunc (options : Options) (f : Func) (strings : StringTable) :
    Except Error (List Line × StringTable) := do
  let frame ← (Frame.ofFunc f).mapError .badTemp
  let labels ← collectLabels 0 [] f.code
  let site : Site := { func := f, frame, labels }
  let body : GenM (List Line) := do
    let params ← GenM.within .params (bindParams site 0 (f.params.map (·.operand)) Reg.args)
    return params.map .insn ++ (← genCode options site 0 false f.code)
  let (body, state) ← body { strings, reuse := options.reuse }
  let global : List Line := if f.isPublic then [.global f.name] else []
  let reserve : List Line := if frame.size = 0 then [] else [.insn (.grow frame.size)]
  let restore : List Line := if frame.hasArrays then [.insn (.leaFrame .rsp frame.size)] else []
  return (global ++ [.symbol f.name, .insn (.push .rbp), .insn (.mov .rbp .rsp)] ++ reserve ++
    [.mark "entry"] ++ restore ++ body ++
    [.mark "exit", .insn (.mov .rsp .rbp), .insn (.pop .rbp), .insn .ret], state.strings)

/-- Compiles functions in order. -/
def genFuncs (options : Options) (strings : StringTable) : List Func → Except Error (List Line)
  | [] => .ok []
  | f :: rest => do
    let (lines, strings) ←
      if f.isExternal then
        if f.code.isEmpty then .ok ([Line.external f.name], strings)
        else .error (.located (Located.under (.func f.name) (.bare .externalCode)))
      else (genFunc options f strings).mapError (.under (.func f.name))
    return [.blank] ++ lines ++ (← genFuncs options strings rest)

/-- Compiles a program to the lines of an assembly text. -/
def genProgram (options : Options) (p : Code.Program) : Except Error (List Line) := do
  let strings := StringTable.ofProgram p
  let funcs ← genFuncs options strings p.funcs
  return [.segment ".data"] ++ strings.lines ++ [.blank, .segment ".text"] ++ funcs

/-- Compiles a program to an assembly text. -/
def assemble (options : Options) (p : Code.Program) : Except Error String :=
  (genProgram options p).map render

end TreeCompiler.Asm
