import TreeCompiler.Asm.Call

namespace TreeCompiler.Asm

open Code (Operand Instr BinaryOp UnaryOp)

/-- The instructions of a binary operation on the first two registers. -/
def binaryCode : BinaryOp → List Insn
  | .add => [.arith .add .rax .rcx]
  | .sub => [.arith .sub .rax .rcx]
  | .mul => [.arith .imul .rax .rcx]
  | .and => [.arith .and .rax .rcx]
  | .or => [.arith .or .rax .rcx]
  | .xor => [.arith .xor .rax .rcx]
  | .div => [.signExtend, .divide .rcx]
  | .mod => [.signExtend, .divide .rcx, .mov (.tracked .rax) (.tracked .rdx)]
  | .shl => [.shiftLeft .rax]
  | .shr => [.shiftRight .rax]

/-- The instructions of a comparison of the first two registers. -/
def compareCode (op : Code.CompareOp) : List Insn :=
  [.compare .rax .rcx, .setFlag op, .widenFlag]

/-- The instructions of a unary operation on the first register. -/
def unaryCode : UnaryOp → List Insn
  | .neg => [.step .neg .rax]
  | .not => [.compareZero .rax, .setFlag .eq, .widenFlag]
  | .inc => [.step .inc .rax]
  | .dec => [.step .dec .rax]
  | .len => [.load .rax (.pointee .rax)]

/-- Writes the elements of a new array behind its length, counted from `index`. -/
def storeElems (site : Site) (index : Nat) : List (Option Operand) → GenM (List Insn)
  | [] => pure []
  | e :: rest => do
    let code ← GenM.within (.elem index) (load site e .rax)
    return code ++ [.store (.stack (8 + 8 * index)) .rax] ++ (← storeElems site (index + 1) rest)

/-- Builds an array on the stack from the values handed over. -/
def genArray (site : Site) (x : Instr) : GenM (List Insn) := do
  let pending := (← get).pending.size
  if Operand.isLength x.src1 pending then
    let elems ← GenM.takePending
    let stores ← storeElems site 0 elems
    let keep ← replace site x.dst
    return [.grow (arraySize elems.length), .storeConst (.stack 0) elems.length] ++ stores ++
      [.mov (.tracked .rax) .rsp] ++ keep
  else GenM.fail (.arrayLength x.src1 pending)

/-- Writes an element of an array. -/
def genSetIndex (site : Site) (x : Instr) : GenM (List Insn) := do
  let pair ← loadPair site x.dst x.src1
  let value ← GenM.within .value (load site x.src2 .rdx)
  return pair ++ value ++ [.store (.element .rax .rcx) .rdx]

/-- Hands a value over to the array or call that follows. -/
def genArg (x : Instr) : GenM Unit := do
  let pending := (← get).pending.size
  if Operand.isLength x.src2 pending then
    modify fun s => { s with pending := s.pending.push x.src1 }
  else GenM.fail (.argPosition x.src2 pending)

/-- Compiles the instruction at an index and tells whether the next one is covered by
    it. -/
def genInstr (site : Site) (index : Nat) (x : Instr) : GenM (List Line × Bool) := do
  let plain := fun (code : List Insn) => (code.map Line.insn, false)
  match x.op with
  | .nop => return ([], false)
  | .binary op =>
    let pair ← loadPair site x.src1 x.src2
    return plain (pair ++ binaryCode op ++ (← produce site x.dst))
  | .compare op =>
    let pair ← loadPair site x.src1 x.src2
    return plain (pair ++ compareCode op ++ (← produce site x.dst))
  | .unary op =>
    let arg ← load site x.src1 .rax
    return plain (arg ++ unaryCode op ++ (← replace site x.dst))
  | .move | .load | .store =>
    let value ← load site x.src1 .rax
    return plain (value ++ (← store site x.dst .rax))
  | .index =>
    let pair ← loadPair site x.src1 x.src2
    return plain (pair ++ [.load .rax (.element .rax .rcx)] ++ (← replace site x.dst))
  | .setIndex => return plain (← genSetIndex site x)
  | .array => return plain (← genArray site x)
  | .arg =>
    genArg x
    return ([], false)
  | .call =>
    let (code, covered) ← genCall site index x
    return (code.map Line.insn, covered)
  | .label =>
    match x.dst with
    | some (.label name) =>
      GenM.forget
      return ([.mark name], false)
    | o => GenM.fail (.label o)
  | .jump =>
    match x.dst with
    | some (.label name) => return plain [.jump name]
    | o => GenM.fail (.jumpTarget o)
  | .jumpIfFalse =>
    match x.dst with
    | some (.label name) =>
      let test ← load site x.src1 .rax
      return plain (test ++ [.compareZero .rax, .jumpIfZero name])
    | o => GenM.fail (.jumpTarget o)
  | .ret =>
    let value ← if x.src1.isNone then pure [] else load site x.src1 .rax
    return plain (value ++ if index + 1 < site.func.code.length then [.jump "exit"] else [])
  | .exit =>
    let code ← load site (x.src1.getD (.const (.int 0))) .rdi
    GenM.forget
    return plain (code ++ [.movConst .rax 60, .syscall])
  | .unknown _ => GenM.fail (.unknownOp x.op)

end TreeCompiler.Asm
