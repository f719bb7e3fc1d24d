import TreeCompiler.Code.Op
import TreeCompiler.Text.Bytes

namespace TreeCompiler.Code

/-- The types of values in three-address code. -/
inductive Ty where
  | number
  | str
  | bool
  | void
  | array
  | unknown (code : Int)
  deriving DecidableEq, Repr

namespace Ty

/-- The known types in the order of their codes. -/
def all : List Ty := [.number, .str, .bool, .void, .array]

/-- The type of a code. -/
def ofCode (code : Int) : Ty :=
  if 0 ≤ code then all.getD code.toNat (.unknown code) else .unknown code

/-- The name of a type. -/
def name : Ty → String
  | .number => "number"
  | .str => "str"
  | .bool => "bool"
  | .void => "void"
  | .array => "array"
  | .unknown _ => "type?"

/-- The known type with a name. -/
def ofName? (name : String) : Option Ty :=
  all.find? (·.name == name)

end Ty

/-- A literal value. -/
inductive Const where
  | int (v : Int64)
  | bool (b : Bool)
  | str (s : Bytes)
  | void
  | unknown (kind : Int)
  deriving DecidableEq, Repr

namespace Const

/-- The literal of a kind that carries the least value of that kind. -/
def ofKind (kind : Int) : Const :=
  if kind = 0 then .int 0
  else if kind = 1 then .bool false
  else if kind = 2 then .str []
  else if kind = 3 then .void
  else .unknown kind

/-- The code of a literal's kind. -/
def kind : Const → Int
  | .int _ => 0
  | .bool _ => 1
  | .str _ => 2
  | .void => 3
  | .unknown kind => kind

/-- The static type of a literal. -/
def ty : Const → Ty
  | .int _ => .number
  | .bool _ => .bool
  | .str _ => .str
  | .void => .void
  | .unknown _ => .void

end Const

/-- A temporary: a numbered place for a value of a type. -/
structure Temp where
  id : Int
  ty : Ty
  deriving DecidableEq, Repr

/-- What an instruction works on. -/
inductive Operand where
  | temp (t : Temp)
  | var (name : String)
  | const (c : Const)
  | label (name : String)
  | func (name : String)
  deriving DecidableEq, Repr

namespace Operand

/-- Storage operands have a place that can be written to. -/
def isStorage : Option Operand → Bool
  | some (.temp _) => true
  | some (.var _) => true
  | _ => false

/-- Value operands can be read. -/
def isValue : Option Operand → Bool
  | some (.temp _) => true
  | some (.var _) => true
  | some (.const _) => true
  | _ => false

/-- Counts are number literals that are not negative. -/
def isCount : Option Operand → Bool
  | some (.const (.int v)) => 0 ≤ v
  | _ => false

/-- Whether an operand is the number literal of a length. -/
def isLength (o : Option Operand) (n : Nat) : Bool :=
  o = some (.const (.int (Int64.ofNat n)))

end Operand

/-- An instruction with its target and its sources. -/
structure Instr where
  op : Op
  dst : Option Operand := none
  src1 : Option Operand := none
  src2 : Option Operand := none
  deriving DecidableEq, Repr

/-- The operands of an instruction in the order in which they are listed. -/
def Instr.operands (x : Instr) : List (Option Operand) :=
  [x.dst, x.src1, x.src2]

/-- A parameter of a function. -/
structure Param where
  operand : Option Operand
  ty : Ty
  deriving DecidableEq, Repr

/-- A function. -/
structure Func where
  name : String
  params : List Param
  code : List Instr
  ret : Ty
  isPublic : Bool
  isExternal : Bool
  deriving DecidableEq, Repr

/-- A program with the literals it pools. -/
structure Program where
  consts : List Const
  funcs : List Func
  deriving DecidableEq, Repr

/-- The first function of a name. -/
def Program.func? (p : Program) (name : String) : Option Func :=
  p.funcs.find? (·.name == name)

end TreeCompiler.Code
