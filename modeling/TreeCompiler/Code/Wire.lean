import TreeCompiler.Code.Listing
import TreeCompiler.Wire

namespace TreeCompiler.Code

/-- The wire form of a literal is its listing form. -/
def Const.wire (c : Const) : Bytes :=
  Wire.text c.text

/-- The wire form of the operands that have one. -/
def Operand.wire? : Operand → Option Bytes
  | .temp t => some (Wire.map [("temp", Wire.int t.id), ("type", Wire.text t.ty.name)])
  | .var name => some (Wire.text ("$" ++ name))
  | .const c => some c.wire
  | .label _ => none
  | .func _ => none

/-- The wire form of an instruction is its listing form. -/
def Instr.wire (x : Instr) : Bytes :=
  Wire.text x.text

end TreeCompiler.Code
