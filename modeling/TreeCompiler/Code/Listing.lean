import TreeCompiler.Code.Basic
import TreeCompiler.Text.Quoted

namespace TreeCompiler.Code

/-- The listing form of a literal. -/
def Const.text : Const → String
  | .int v => toString v.toInt
  | .bool true => "true"
  | .bool false => "false"
  | .str s => Text.quoteBytes s
  | .void => "void"
  | .unknown _ => "void"

namespace Operand

/-- The listing form of an operand. -/
def text : Operand → String
  | .temp t => "t" ++ toString t.id
  | .var name => "$" ++ name
  | .const c => c.text
  | .label name => name
  | .func name => "&" ++ name

/-- The listing form of an operand that may be absent. -/
def textOrBlank : Option Operand → String
  | none => "_"
  | some o => o.text

/-- How messages name the class of an operand. -/
def className : Option Operand → String
  | none => "<nil>"
  | some (.temp _) => "ir.Temp"
  | some (.var _) => "ir.Var"
  | some (.const _) => "ir.Const"
  | some (.label _) => "ir.Label"
  | some (.func _) => "ir.Function"

/-- How messages show an operand that was expected to be a literal. -/
def shown : Option Operand → String
  | none => "<nil>"
  | some (.temp t) => "\x7b" ++ toString t.id ++ " " ++ t.ty.name ++ "\x7d"
  | some (.var name) => "\x7b" ++ name ++ "\x7d"
  | some (.const c) => c.text
  | some (.label name) => "\x7b" ++ name ++ "\x7d"
  | some (.func name) => "\x7b" ++ name ++ "\x7d"

end Operand

namespace Instr

/-- The listing form of an instruction: its mnemonic and the operands that are present. -/
def text (x : Instr) : String :=
  if x.op = .label then Operand.textOrBlank x.dst ++ ":"
  else
    match x.operands.filterMap id with
    | [] => x.op.name
    | os => x.op.name ++ " " ++ ", ".intercalate (os.map Operand.text)

/-- The line of an instruction in a listing. -/
def line (x : Instr) : String :=
  (if x.op = .label then "" else "\t") ++ x.text ++ "\n"

end Instr

/-- The listing form of a parameter. -/
def Param.text (p : Param) : String :=
  Operand.textOrBlank p.operand ++ " " ++ p.ty.name

/-- The listing of a function. -/
def Func.listing (f : Func) : String :=
  (if f.isExternal then "extern " else "") ++ (if f.isPublic then "pub " else "") ++
    "fun " ++ f.name ++ "(" ++ ", ".intercalate (f.params.map Param.text) ++ ") " ++ f.ret.name ++
    "\n" ++ String.join (f.code.map Instr.line)

/-- The line of the pooled literals, which is left out when there are none. -/
def Program.constsLine (p : Program) : String :=
  match p.consts with
  | [] => ""
  | cs => "consts: " ++ ", ".intercalate (cs.map Const.text) ++ "\n"

/-- The listing of a program. -/
def Program.listing (p : Program) : String :=
  p.constsLine ++ String.join (p.funcs.map fun f => "\n" ++ f.listing)

end TreeCompiler.Code
