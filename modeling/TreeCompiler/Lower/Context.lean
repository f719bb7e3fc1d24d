import TreeCompiler.Code.Listing
import TreeCompiler.Scope
import TreeCompiler.Tree.Basic
import TreeCompiler.Text.Quoted

namespace TreeCompiler.Lower

/-- The state in which a function is lowered: the names in scope, the code so far,
    how many temporaries and labels were made, and the literals pooled so far. -/
structure Context where
  scopes : ScopeTable := {}
  code : Array Code.Instr := #[]
  temps : Nat := 0
  labels : Nat := 0
  pool : Array Code.Const := #[]
  deriving DecidableEq, Repr

namespace Context

/-- A temporary that was not handed out before. -/
def freshTemp (c : Context) (ty : Code.Ty) : Code.Temp × Context :=
  (⟨c.temps, ty⟩, { c with temps := c.temps + 1 })

/-- A label that was not handed out before. -/
def freshLabel (c : Context) : String × Context :=
  ("L" ++ toString c.labels, { c with labels := c.labels + 1 })

/-- Appends an instruction to the code. -/
def emit (c : Context) (x : Code.Instr) : Context :=
  { c with code := c.code.push x }

end Context

/-- Where lowering failed. -/
inductive Place where
  | func (name : String)
  | item (index : Nat)
  | param
  | body
  | paramsScope
  | defined (name : String)
  | assigned (name : String)
  | stmt (index : Nat)
  | exitCode
  | left
  | right
  | operand
  | ifTest
  | yes
  | no
  | loopTest
  | loopBody
  | call (name : String)
  | returned
  | array
  | target
  | position
  | value
  deriving Repr

/-- Why lowering failed. -/
inductive Cause where
  | scope (e : ScopeTable.Error)
  | duplicateFunc (name : String)
  | topLevel (index : Nat) (className : String)
  | globalKind (kind : Int)
  | literalKind (kind : Int)
  | noBody
  | missingExpr
  | construct (className : String)
  | binaryOperator (op : String)
  | unaryOperator (op : String)
  | undefinedFunc (name : String)
  | argCount (name : String) (given wanted : Nat)
  deriving Repr

/-- A failure to lower and its place. -/
abbrev Error := Located Place Cause

/-- The words for a place. -/
def Place.text : Place → String
  | .func name => "func " ++ name
  | .item index => "item " ++ toString index
  | .param => "param"
  | .body => "body"
  | .paramsScope => "params scope"
  | .defined name => "let " ++ name
  | .assigned name => "set " ++ name
  | .stmt index => "block expr " ++ toString index
  | .exitCode => "exit code"
  | .left => "left"
  | .right => "right"
  | .operand => "operand"
  | .ifTest => "if cond"
  | .yes => "then"
  | .no => "else"
  | .loopTest => "while cond"
  | .loopBody => "while body"
  | .call name => "call " ++ name
  | .returned => "return"
  | .array => "array"
  | .target => "index target"
  | .position => "index"
  | .value => "value"

/-- The kind of failure a cause belongs to. -/
def Cause.kind : Cause → FailureKind
  | .scope e => e.kind
  | .duplicateFunc _ => .duplicateDeclaration
  | .topLevel .. => .unsupportedConstruct
  | .globalKind _ => .unsupportedConstruct
  | .literalKind _ => .unsupportedConstruct
  | .noBody => .other
  | .missingExpr => .unsupportedConstruct
  | .construct _ => .unsupportedConstruct
  | .binaryOperator _ => .unsupportedConstruct
  | .unaryOperator _ => .unsupportedConstruct
  | .undefinedFunc _ => .undefinedVariable
  | .argCount .. => .invalidOperandKind

/-- The words for what was found. -/
def Cause.found : Cause → String
  | .scope e => e.found
  | .duplicateFunc name => "func " ++ name
  | .topLevel index className => "item " ++ toString index ++ ": top-level " ++ className
  | .globalKind kind => "global constant of kind " ++ toString kind
  | .literalKind kind => "literal kind " ++ toString kind
  | .noBody => "no body"
  | .missingExpr => "nil expression"
  | .construct className => className
  | .binaryOperator op => "binary operator " ++ Text.quote op
  | .unaryOperator op => "unary operator " ++ Text.quote op
  | .undefinedFunc name => "func " ++ name
  | .argCount name given wanted =>
    "call " ++ name ++ ": " ++ toString given ++ " args, want " ++ toString wanted

/-- The message of a failure to lower. -/
def Error.message (e : Error) : String :=
  Located.message Place.text (fun c => c.kind.describe c.found) e

/-- Lowering reads and changes the context, or fails. -/
abbrev LowerM := StateT Context (Except Error)

namespace LowerM

/-- Fails for a cause that is not placed yet. -/
def fail {α : Type} (cause : Cause) : LowerM α :=
  fun _ => .error (.bare cause)

/-- Places the failure of a computation, if it fails. -/
def within {α : Type} (place : Place) (m : LowerM α) : LowerM α :=
  fun c => Located.within place (m c)

/-- Takes a temporary that was not handed out before. -/
def temp (ty : Code.Ty) : LowerM Code.Temp :=
  fun c => .ok (c.freshTemp ty)

/-- Takes a label that was not handed out before. -/
def label : LowerM String :=
  fun c => .ok c.freshLabel

/-- Appends an instruction. -/
def emit (op : Code.Op) (dst src1 src2 : Option Code.Operand) : LowerM Unit :=
  fun c => .ok ((), c.emit ⟨op, dst, src1, src2⟩)

/-- Adds a literal to the pool. -/
def pool (k : Code.Const) : LowerM Unit :=
  fun c => .ok ((), { c with pool := c.pool.push k })

/-- Opens a scope. -/
def enter : LowerM Unit :=
  fun c => .ok ((), { c with scopes := c.scopes.enter })

/-- Leaves the innermost scope. -/
def leave : LowerM Unit := fun c =>
  match c.scopes.leave with
  | .ok scopes => .ok ((), { c with scopes })
  | .error e => .error (.bare (.scope e))

/-- Binds a name in the innermost scope and gives its storage. -/
def declare (name : String) (ty : Code.Ty) : LowerM String := fun c =>
  match c.scopes.declare name ty with
  | .ok (storage, scopes) => .ok (storage, { c with scopes })
  | .error e => .error (.bare (.scope e))

/-- The symbol of a name in scope. -/
def lookup (name : String) : LowerM Symbol := fun c =>
  match c.scopes.lookup name with
  | .ok symbol => .ok (symbol, c)
  | .error e => .error (.bare (.scope e))

end LowerM

end TreeCompiler.Lower
