namespace TreeCompiler.Code

/-- Operations of two operands that give a number. -/
inductive BinaryOp where
  | add | sub | mul | div | mod | and | or | xor | shl | shr
  deriving DecidableEq, Repr

/-- Comparisons of two operands, which give one or zero. -/
inductive CompareOp where
  | eq | ne | gt | ge | lt | le
  deriving DecidableEq, Repr

/-- Operations of one operand. -/
inductive UnaryOp where
  | neg | not | inc | dec | len
  deriving DecidableEq, Repr

/-- What an instruction does. -/
inductive Op where
  | nop
  | binary (op : BinaryOp)
  | compare (op : CompareOp)
  | unary (op : UnaryOp)
  | move
  | load
  | store
  | index
  | setIndex
  | array
  | arg
  | call
  | label
  | jump
  | jumpIfFalse
  | ret
  | exit
  | unknown (code : Int)
  deriving DecidableEq, Repr

/-- The mnemonic of a binary operation. -/
def BinaryOp.name : BinaryOp → String
  | .add => "add"
  | .sub => "sub"
  | .mul => "mul"
  | .div => "div"
  | .mod => "mod"
  | .and => "and"
  | .or => "or"
  | .xor => "xor"
  | .shl => "shl"
  | .shr => "shr"

/-- The mnemonic of a comparison. -/
def CompareOp.name : CompareOp → String
  | .eq => "eq"
  | .ne => "ne"
  | .gt => "gt"
  | .ge => "ge"
  | .lt => "lt"
  | .le => "le"

/-- The mnemonic of a unary operation. -/
def UnaryOp.name : UnaryOp → String
  | .neg => "neg"
  | .not => "not"
  | .inc => "inc"
  | .dec => "dec"
  | .len => "len"

namespace Op

/-- The mnemonic of an operation. -/
def name : Op → String
  | .nop => "nop"
  | .binary op => op.name
  | .compare op => op.name
  | .unary op => op.name
  | .move => "move"
  | .load => "load"
  | .store => "store"
  | .index => "index"
  | .setIndex => "setindex"
  | .array => "array"
  | .arg => "arg"
  | .call => "call"
  | .label => "label"
  | .jump => "jump"
  | .jumpIfFalse => "jumpiffalse"
  | .ret => "return"
  | .exit => "exit"
  | .unknown _ => "op?"

/-- The known operations in the order of their codes. -/
def all : List Op :=
  [nop] ++
  List.map binary [.add, .sub, .mul, .div, .mod, .and, .or, .xor, .shl, .shr] ++
  List.map compare [.eq, .ne, .gt, .ge, .lt, .le] ++
  List.map unary [.neg, .not, .inc, .dec, .len] ++
  [move, load, store, index, setIndex, array, arg, call, label, jump, jumpIfFalse, ret, exit]

/-- The operation of a code. -/
def ofCode (code : Int) : Op :=
  if 0 ≤ code then all.getD code.toNat (.unknown code) else .unknown code

/-- The code of an operation. -/
def code : Op → Int
  | .unknown code => code
  | op => (all.idxOf op : Nat)

/-- The known operation with a mnemonic. -/
def ofName? (name : String) : Option Op :=
  all.find? (·.name == name)

/-- Whether the operation combines two numbers. -/
def isBinary : Op → Bool
  | .binary _ => true
  | _ => false

/-- Whether the operation compares two operands. -/
def isCompare : Op → Bool
  | .compare _ => true
  | _ => false

/-- Whether the operation has one operand. -/
def isUnary : Op → Bool
  | .unary _ => true
  | _ => false

end Op

end TreeCompiler.Code
