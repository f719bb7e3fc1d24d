import TreeCompiler.Tree.Basic
import TreeCompiler.Text.Quoted
import TreeCompiler.Failure

namespace TreeCompiler.Tree

namespace Source

/-- Where printing met something that has no source text. -/
inductive Place where
  | func (name : String)
  | item (index : Nat)
  | body
  | stmt (index : Nat)
  | defined (name : String)
  | assigned (name : String)
  | left
  | right
  | operand
  | test
  | yes
  | no
  | call (name : String)
  | returned
  | target
  | position
  | value
  | output
  | exitCode
  deriving Repr

/-- Why something has no source text. -/
inductive Cause where
  | missingExpr
  | foreign (className : String)
  deriving Repr

/-- A failure to print and its place. -/
abbrev Error := Located Place Cause

/-- The words for a place. -/
def Place.text : Place → String
  | .func name => "func " ++ name
  | .item index => "item " ++ toString index
  | .body => "body"
  | .stmt index => "stmt " ++ toString index
  | .defined name => "let " ++ name
  | .assigned name => "set " ++ name
  | .left => "left"
  | .right => "right"
  | .operand => "operand"
  | .test => "cond"
  | .yes => "then"
  | .no => "else"
  | .call name => "call " ++ name
  | .returned => "return"
  | .target => "target"
  | .position => "index"
  | .value => "value"
  | .output => "out"
  | .exitCode => "exit code"

/-- The words for a cause. -/
def Cause.text : Cause → String
  | .missingExpr => "unsupported expr: " ++ Expr.missing.className
  | .foreign className => "unsupported type: " ++ className

/-- The message of a failure to print. -/
def Error.message (e : Error) : String :=
  Located.message Place.text Cause.text e

/-- As many tabs as there are enclosing blocks. -/
def indent (depth : Nat) : String :=
  String.ofList (List.replicate depth '\t')

end Source

open Source

/-- The source text of a literal. -/
def Literal.source : Literal → String
  | .number v => toString v.toInt
  | .bool true => "true"
  | .bool false => "false"
  | .str s => Text.quoteBytes s
  | .void => "void"
  | .unknown _ => "void"

/-- The source text of a function up to its body. -/
def Header.source (h : Header) : String :=
  (if h.isExternal then "extern " else "") ++ (if h.isPublic then "pub " else "") ++
    "fun " ++ h.name ++ "(" ++ ", ".intercalate (h.params.map fun p => p.name ++ " " ++ p.ty.name) ++
    ") " ++ h.ret.name

mutual

/-- The source text of an expression inside `depth` blocks. -/
def Expr.sourceAt (depth : Nat) : Expr → Except Error String
  | .missing => .error (.bare .missingExpr)
  | .literal l => .ok l.source
  | .block body => do
    let lines ← stmtsAt depth 0 body
    return "\x7b\n" ++ String.join lines ++ indent depth ++ "\x7d"
  | .array elems => do
    return "[" ++ ", ".intercalate (← itemsAt depth 0 elems) ++ "]"
  | .var name => .ok name
  | .define name ty value => do
    let v ← Located.within (.defined name) (value.sourceAt depth)
    return "let " ++ name ++ " " ++ ty.name ++ " = " ++ v
  | .assign name value => do
    let v ← Located.within (.assigned name) (value.sourceAt depth)
    return name ++ " = " ++ v
  | .binary op left right => do
    let l ← Located.within .left (left.sourceAt depth)
    let r ← Located.within .right (right.sourceAt depth)
    return "(" ++ l ++ " " ++ op ++ " " ++ r ++ ")"
  | .unary op arg => do
    return op ++ (← Located.within .operand (arg.sourceAt depth))
  | .cond test yes no => do
    let t ← Located.within .test (test.sourceAt depth)
    let y ← Located.within .yes (yes.sourceAt depth)
    if no.isMissing then return "if " ++ t ++ " then " ++ y
    else
      let n ← Located.within .no (no.sourceAt depth)
      return "if " ++ t ++ " then " ++ y ++ " else " ++ n
  | .loop test body => do
    let t ← Located.within .test (test.sourceAt depth)
    let b ← Located.within .body (body.sourceAt depth)
    return "while " ++ t ++ " " ++ b
  | .func header body =>
    if header.isExternal then .ok header.source
    else do
      let b ← Located.within (.func header.name) (Located.within .body (body.sourceAt depth))
      return header.source ++ " " ++ b
  | .call name args => do
    let as ← Located.within (.call name) (itemsAt depth 0 args)
    return name ++ "(" ++ ", ".intercalate as ++ ")"
  | .ret value =>
    if value.isMissing then .ok "return"
    else do return "return " ++ (← Located.within .returned (value.sourceAt depth))
  | .index target position => do
    let t ← Located.within .target (target.sourceAt depth)
    let p ← Located.within .position (position.sourceAt depth)
    return t ++ "[" ++ p ++ "]"
  | .setIndex target position value => do
    let t ← Located.within .target (target.sourceAt depth)
    let p ← Located.within .position (position.sourceAt depth)
    let v ← Located.within .value (value.sourceAt depth)
    return t ++ "[" ++ p ++ "] = " ++ v
  | .out value => do
    return "out " ++ (← Located.within .output (value.sourceAt depth))
  | .input name => .ok ("in " ++ name)
  | .label name => .ok (name ++ ":")
  | .goto name => .ok ("goto " ++ name)
  | .exit code =>
    if code.isMissing then .ok "exit"
    else do return "exit " ++ (← Located.within .exitCode (code.sourceAt depth))

/-- The lines of the statements of a block, counted from `index`. -/
def stmtsAt (depth index : Nat) : List Expr → Except Error (List String)
  | [] => .ok []
  | e :: rest => do
    let s ← Located.within (.stmt index) (e.sourceAt (depth + 1))
    return (indent (depth + 1) ++ s ++ "\n") :: (← stmtsAt depth (index + 1) rest)

/-- The source texts of the items of a list, counted from `index`. -/
def itemsAt (depth index : Nat) : List Expr → Except Error (List String)
  | [] => .ok []
  | e :: rest => do
    let s ← Located.within (.item index) (e.sourceAt depth)
    return s :: (← itemsAt depth (index + 1) rest)

end

/-- The lines of the items of a program, counted from `index`. -/
def programItems (index : Nat) : List Expr → Except Error (List String)
  | [] => .ok []
  | e :: rest => do
    let s ← match e with
      | .func .. => e.sourceAt 0
      | _ => Located.within (.item index) (e.sourceAt 0)
    return (s ++ "\n") :: (← programItems (index + 1) rest)

/-- The source text of a program. -/
def Program.source (p : Program) : Except Error String := do
  return "\n".intercalate (← programItems 0 p.body)

/-- What the printer can be asked for. -/
inductive Printable where
  | program (p : Program)
  | expr (e : Expr)
  | number
  | text
  | truth
  | nothing

/-- The source text of what has one. -/
def Printable.source : Printable → Except Error String
  | .program p => p.source
  | .expr .missing => .error (.bare (.foreign "<nil>"))
  | .expr e => e.sourceAt 0
  | .number => .error (.bare (.foreign "int64"))
  | .text => .error (.bare (.foreign "string"))
  | .truth => .error (.bare (.foreign "bool"))
  | .nothing => .error (.bare (.foreign "<nil>"))

end TreeCompiler.Tree
