import TreeCompiler.Lower.Context

namespace TreeCompiler.Lower

open Code (Op Operand Const Temp)
open TreeCompiler.Tree (Expr Literal Header)

/-- The functions that a program declares, by name. -/
abbrev Signatures := List (String × Header)

/-- The type of the values of a tree type. -/
def lowerTy : Tree.Ty → Code.Ty
  | .bool => .bool
  | .str => .str
  | .void => .void
  | .array => .array
  | .number => .number
  | .unknown _ => .number

/-- The operation of a binary operator. -/
def binaryOp? (op : String) : Option Op :=
  [("+", .binary .add), ("-", .binary .sub), ("*", .binary .mul), ("/", .binary .div),
    ("%", .binary .mod), ("&", .binary .and), ("|", .binary .or), ("^", .binary .xor),
    ("<<", .binary .shl), (">>", .binary .shr), ("==", .compare .eq), ("!=", .compare .ne),
    (">", .compare .gt), (">=", .compare .ge), ("<", .compare .lt), ("<=", .compare .le)].lookup op

/-- The operation of a unary operator. -/
def unaryOp? (op : String) : Option Code.UnaryOp :=
  [("-", .neg), ("!", .not), ("#", .len), ("len", .len), ("++", .inc), ("--", .dec)].lookup op

/-- The type of the result of an operation. -/
def resultTy : Op → Code.Ty
  | .compare _ => .bool
  | .unary .not => .bool
  | _ => .number

/-- The label in the code for a label of the program. -/
def userLabel (name : String) : Operand :=
  .label ("user." ++ name)

/-- The pooled form of a literal that carries a value. -/
def const? : Literal → Option Const
  | .number v => some (.int v)
  | .bool b => some (.bool b)
  | .str s => some (.str s)
  | .void => none
  | .unknown _ => none

/-- The variable an operand names, if the operation also changes it. -/
def updated? (op : Code.UnaryOp) (arg : Expr) : Option String :=
  match op, arg with
  | .inc, .var name => some name
  | .dec, .var name => some name
  | _, _ => none

/-- Hands values over to the array or call that follows, counted from `index`. -/
def emitArgs (index : Nat) : List Temp → LowerM Unit
  | [] => pure ()
  | t :: rest => do
    .emit .arg none (some (.temp t)) (some (.const (.int (Int64.ofNat index))))
    emitArgs (index + 1) rest

/-- Lowers a literal. -/
def lowerLiteral (l : Literal) : LowerM Temp :=
  match const? l with
  | some k => do
    let t ← LowerM.temp k.ty
    .pool k
    .emit .move (some (.temp t)) (some (.const k)) none
    return t
  | none =>
    match l with
    | .unknown kind => .fail (.literalKind kind)
    | _ => LowerM.temp .void

mutual

/-- Lowers an expression and gives the temporary that holds its value. -/
def lowerExpr (sigs : Signatures) : Expr → LowerM Temp
  | .missing => .fail .missingExpr
  | .literal l => lowerLiteral l
  | .define name ty value => do
    let v ← LowerM.within (.defined name) (lowerExpr sigs value)
    let storage ← LowerM.declare name (lowerTy ty)
    .emit .store (some (.var storage)) (some (.temp v)) none
    LowerM.temp .void
  | .var name => do
    let symbol ← LowerM.lookup name
    let t ← LowerM.temp symbol.ty
    .emit .load (some (.temp t)) (some (.var symbol.storage)) none
    return t
  | .block body => do
    LowerM.enter
    let last ← lowerStmts sigs 0 none body
    let result ← match last with
      | some t => pure t
      | none => LowerM.temp .void
    LowerM.leave
    return result
  | .array elems => do
    let ts ← LowerM.within .array (lowerItems sigs 0 elems)
    emitArgs 0 ts
    let t ← LowerM.temp .array
    .emit .array (some (.temp t)) (some (.const (.int (Int64.ofNat ts.length)))) none
    return t
  | .assign name value => do
    let v ← LowerM.within (.assigned name) (lowerExpr sigs value)
    let symbol ← LowerM.lookup name
    .emit .store (some (.var symbol.storage)) (some (.temp v)) none
    LowerM.temp .void
  | .binary op left right =>
    if op = "&&" ∨ op = "||" then do
      let result ← LowerM.temp .bool
      let done ← LowerM.label
      let l ← LowerM.within .left (lowerExpr sigs left)
      .emit (.compare .ne) (some (.temp result)) (some (.temp l)) (some (.const (.int 0)))
      if op = "&&" then
        .emit .jumpIfFalse (some (.label done)) (some (.temp result)) none
      else
        let other ← LowerM.label
        .emit .jumpIfFalse (some (.label other)) (some (.temp result)) none
        .emit .jump (some (.label done)) none none
        .emit .label (some (.label other)) none none
      let r ← LowerM.within .right (lowerExpr sigs right)
      .emit (.compare .ne) (some (.temp result)) (some (.temp r)) (some (.const (.int 0)))
      .emit .label (some (.label done)) none none
      return result
    else
      match binaryOp? op with
      | none => .fail (.binaryOperator op)
      | some code => do
        let l ← LowerM.within .left (lowerExpr sigs left)
        let r ← LowerM.within .right (lowerExpr sigs right)
        let t ← LowerM.temp (resultTy code)
        .emit code (some (.temp t)) (some (.temp l)) (some (.temp r))
        return t
  | .unary op arg =>
    match unaryOp? op with
    | none => .fail (.unaryOperator op)
    | some code => do
      let a ← LowerM.within .operand (lowerExpr sigs arg)
      let t ← LowerM.temp (resultTy (.unary code))
      .emit (.unary code) (some (.temp t)) (some (.temp a)) none
      match updated? code arg with
      | some name =>
        let symbol ← LowerM.lookup name
        .emit .store (some (.var symbol.storage)) (some (.temp t)) none
      | none => pure ()
      return t
  | .cond test yes no => do
    let t ← LowerM.within .ifTest (lowerExpr sigs test)
    let otherwise ← LowerM.label
    .emit .jumpIfFalse (some (.label otherwise)) (some (.temp t)) none
    if no.isMissing then
      let _ ← LowerM.within .yes (lowerExpr sigs yes)
      .emit .label (some (.label otherwise)) none none
      LowerM.temp .void
    else
      let done ← LowerM.label
      let y ← LowerM.within .yes (lowerExpr sigs yes)
      let result ← LowerM.temp y.ty
      .emit .move (some (.temp result)) (some (.temp y)) none
      .emit .jump (some (.label done)) none none
      .emit .label (some (.label otherwise)) none none
      let n ← LowerM.within .no (lowerExpr sigs no)
      .emit .move (some (.temp result)) (some (.temp n)) none
      .emit .label (some (.label done)) none none
      return result
  | .loop test body => do
    let top ← LowerM.label
    let done ← LowerM.label
    .emit .label (some (.label top)) none none
    let t ← LowerM.within .loopTest (lowerExpr sigs test)
    .emit .jumpIfFalse (some (.label done)) (some (.temp t)) none
    let _ ← LowerM.within .loopBody (lowerExpr sigs body)
    .emit .jump (some (.label top)) none none
    .emit .label (some (.label done)) none none
    LowerM.temp .void
  | .call name args =>
    match sigs.lookup name with
    | none => .fail (.undefinedFunc name)
    | some header =>
      if args.length ≠ header.params.length then
        .fail (.argCount name args.length header.params.length)
      else do
        let ts ← LowerM.within (.call name) (lowerItems sigs 0 args)
        emitArgs 0 ts
        let t ← LowerM.temp (lowerTy header.ret)
        .emit .call (some (.temp t)) (some (.func name))
          (some (.const (.int (Int64.ofNat ts.length))))
        return t
  | .ret value => do
    let v ← if value.isMissing then LowerM.temp .void
      else LowerM.within .returned (lowerExpr sigs value)
    .emit .ret none (some (.temp v)) none
    LowerM.temp .void
  | .index target position => do
    let a ← LowerM.within .target (lowerExpr sigs target)
    let i ← LowerM.within .position (lowerExpr sigs position)
    let t ← LowerM.temp .number
    .emit .index (some (.temp t)) (some (.temp a)) (some (.temp i))
    return t
  | .setIndex target position value => do
    let a ← LowerM.within .target (lowerExpr sigs target)
    let i ← LowerM.within .position (lowerExpr sigs position)
    let v ← LowerM.within .value (lowerExpr sigs value)
    .emit .setIndex (some (.temp a)) (some (.temp i)) (some (.temp v))
    LowerM.temp .void
  | .label name => do
    .emit .label (some (userLabel name)) none none
    LowerM.temp .void
  | .goto name => do
    .emit .jump (some (userLabel name)) none none
    LowerM.temp .void
  | .exit code => do
    if code.isMissing then
      .emit .exit none (some (.const (.int 0))) none
    else
      let c ← LowerM.within .exitCode (lowerExpr sigs code)
      .emit .exit none (some (.temp c)) none
    LowerM.temp .void
  | .func header body => .fail (.construct (Expr.func header body).className)
  | .out value => .fail (.construct (Expr.out value).className)
  | .input name => .fail (.construct (Expr.input name).className)

/-- Lowers the statements of a block, counted from `index`, and gives the value of
    the last one. -/
def lowerStmts (sigs : Signatures) (index : Nat) (last : Option Temp) :
    List Expr → LowerM (Option Temp)
  | [] => pure last
  | e :: rest => do
    let t ← LowerM.within (.stmt index) (lowerExpr sigs e)
    lowerStmts sigs (index + 1) (some t) rest

/-- Lowers the items of a list, counted from `index`. -/
def lowerItems (sigs : Signatures) (index : Nat) : List Expr → LowerM (List Temp)
  | [] => pure []
  | e :: rest => do
    let t ← LowerM.within (.item index) (lowerExpr sigs e)
    return t :: (← lowerItems sigs (index + 1) rest)

end

end TreeCompiler.Lower
