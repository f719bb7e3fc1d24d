import TreeCompiler.Text.Bytes

namespace TreeCompiler.Tree

/-- The types a program tree can name. -/
inductive Ty where
  | number
  | bool
  | str
  | void
  | array
  | unknown (code : Int)
  deriving DecidableEq, Repr

namespace Ty

/-- The known types in the order of their codes. -/
def all : List Ty := [.number, .bool, .str, .void, .array]

/-- The type of a code. -/
def ofCode (code : Int) : Ty :=
  if 0 ≤ code then all.getD code.toNat (.unknown code) else .unknown code

/-- The code of a type. -/
def code : Ty → Int
  | .number => 0
  | .bool => 1
  | .str => 2
  | .void => 3
  | .array => 4
  | .unknown code => code

/-- The name of a type. -/
def name : Ty → String
  | .number => "number"
  | .bool => "bool"
  | .str => "str"
  | .void => "void"
  | .array => "array"
  | .unknown _ => "type?"

/-- The known type with a name. -/
def ofName? (name : String) : Option Ty :=
  all.find? (·.name == name)

end Ty

/-- A literal. -/
inductive Literal where
  | number (v : Int64)
  | bool (b : Bool)
  | str (s : Bytes)
  | void
  | unknown (kind : Int)
  deriving DecidableEq, Repr

/-- The literal of a kind that carries the least value of that kind. -/
def Literal.ofKind (kind : Int) : Literal :=
  if kind = 0 then .number 0
  else if kind = 1 then .bool false
  else if kind = 2 then .str []
  else if kind = 3 then .void
  else .unknown kind

/-- The code of a literal's kind. -/
def Literal.kind : Literal → Int
  | .number _ => 0
  | .bool _ => 1
  | .str _ => 2
  | .void => 3
  | .unknown kind => kind

/-- A parameter of a function. -/
structure Param where
  name : String
  ty : Ty
  deriving DecidableEq, Repr

/-- All of a function but its body. -/
structure Header where
  name : String
  params : List Param
  ret : Ty
  isPublic : Bool
  isExternal : Bool
  deriving DecidableEq, Repr

/-- An expression of a program tree. -/
inductive Expr where
  | missing
  | literal (l : Literal)
  | block (body : List Expr)
  | array (elems : List Expr)
  | var (name : String)
  | define (name : String) (ty : Ty) (value : Expr)
  | assign (name : String) (value : Expr)
  | binary (op : String) (left right : Expr)
  | unary (op : String) (arg : Expr)
  | cond (test yes no : Expr)
  | loop (test body : Expr)
  | func (header : Header) (body : Expr)
  | call (name : String) (args : List Expr)
  | ret (value : Expr)
  | index (target position : Expr)
  | setIndex (target position value : Expr)
  | out (value : Expr)
  | input (name : String)
  | label (name : String)
  | goto (name : String)
  | exit (code : Expr)
  deriving Repr

/-- How messages name the class of an expression. -/
def Expr.className : Expr → String
  | .missing => "<nil>"
  | .literal _ => "ast.Literal"
  | .block _ => "ast.Block"
  | .array _ => "ast.Array"
  | .var _ => "ast.Var"
  | .define .. => "ast.VarDecl"
  | .assign .. => "ast.VarMod"
  | .binary .. => "ast.BinOp"
  | .unary .. => "ast.UnaryOp"
  | .cond .. => "ast.If"
  | .loop .. => "ast.While"
  | .func .. => "ast.FuncDecl"
  | .call .. => "ast.FuncCall"
  | .ret _ => "ast.Return"
  | .index .. => "ast.Index"
  | .setIndex .. => "ast.IndexMod"
  | .out _ => "ast.Out"
  | .input _ => "ast.In"
  | .label _ => "ast.Label"
  | .goto _ => "ast.Goto"
  | .exit _ => "ast.Exit"

/-- Whether nothing stands in the place of an expression. -/
def Expr.isMissing : Expr → Bool
  | .missing => true
  | _ => false

/-- A program is a sequence of functions and literals. -/
structure Program where
  body : List Expr
  deriving Repr

end TreeCompiler.Tree
