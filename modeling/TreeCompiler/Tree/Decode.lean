import TreeCompiler.Failure
import TreeCompiler.Text.Numeral
import TreeCompiler.Tree.Basic
import TreeCompiler.Yaml.Document

namespace TreeCompiler.Tree

open Yaml (Node)

/-- The forms of expression that a document names by the only key of a mapping. -/
inductive Form where
  | block
  | var
  | input
  | label
  | goto
  | out
  | exit
  | ret
  | define
  | assign
  | binary
  | unary
  | cond
  | loop
  | func
  | call
  | index
  | setIndex
  deriving DecidableEq, Repr

namespace Form

/-- All forms. -/
def all : List Form :=
  [.block, .var, .input, .label, .goto, .out, .exit, .ret, .define, .assign, .binary, .unary,
    .cond, .loop, .func, .call, .index, .setIndex]

/-- The key of a form. -/
def key : Form → String
  | .block => "block"
  | .var => "var"
  | .input => "in"
  | .label => "label"
  | .goto => "goto"
  | .out => "out"
  | .exit => "exit"
  | .ret => "return"
  | .define => "let"
  | .assign => "set"
  | .binary => "binop"
  | .unary => "unary"
  | .cond => "if"
  | .loop => "while"
  | .func => "fun"
  | .call => "call"
  | .index => "index"
  | .setIndex => "setindex"

/-- The form with a key. -/
def ofKey? (key : String) : Option Form :=
  all.find? (·.key == key)

end Form

namespace Decode

/-- Where in a document decoding failed. -/
inductive Place where
  | node (line : Nat) (key : String)
  | field (name : String)
  | param
  deriving DecidableEq, Repr

/-- Why decoding failed. -/
inductive Cause where
  | malformed
  | programKind (line : Nat)
  | nodeKind (line : Nat)
  | keyCount (line : Nat)
  | unknownForm
  | notSequence (line : Nat)
  | notMapping (line : Nat)
  | notName (line : Nat)
  | fieldNotName (field : String)
  | fieldMissing (field : String)
  | fieldNotSequence (field : String)
  | unknownType (field name : String)
  | number (line : Nat) (text : String) (e : Text.NumeralError)
  | truth (line : Nat) (text : String)
  | flag (text : String)
  | scalarTag (line : Nat) (tag : String)
  deriving DecidableEq, Repr

/-- A failure to decode and its place. -/
abbrev Error := Located Place Cause

/-- The words for a line. -/
def atLine (line : Nat) : String := "line " ++ toString line

/-- The words for a place. -/
def Place.text : Place → String
  | .node line key => atLine line ++ ": " ++ key
  | .field name => name
  | .param => "param"

/-- The words for a text that is no truth value. -/
def notTruth (text : String) : String :=
  Text.NumeralError.malformed.message "strconv.ParseBool" text

/-- The kind of failure a cause belongs to. -/
def Cause.kind : Cause → FailureKind
  | .malformed => .malformedDocument
  | _ => .other

/-- What a cause found. -/
def Cause.found : Cause → String
  | .malformed => ""
  | .programKind line => atLine line ++ ": program: expected a sequence"
  | .nodeKind line => atLine line ++ ": unexpected yaml node"
  | .keyCount line => atLine line ++ ": node must have exactly one key"
  | .unknownForm => "unknown node"
  | .notSequence line => atLine line ++ ": expected a sequence"
  | .notMapping line => atLine line ++ ": expected a mapping"
  | .notName line => atLine line ++ ": expected a name"
  | .fieldNotName field => field ++ ": expected a name"
  | .fieldMissing field => field ++ ": missing"
  | .fieldNotSequence field => field ++ ": expected a sequence"
  | .unknownType field name => field ++ ": unknown type " ++ Text.quote name
  | .number line text e => atLine line ++ ": number: " ++ e.message "strconv.ParseInt" text
  | .truth line text => atLine line ++ ": bool: " ++ notTruth text
  | .flag text => notTruth text
  | .scalarTag line tag => atLine line ++ ": unsupported scalar " ++ tag

/-- The message of a failure. -/
def Error.message (e : Error) : String :=
  Located.message Place.text (fun c => c.kind.describe c.found) e

end Decode

open Decode

/-- The literal a scalar stands for. -/
def Literal.ofScalar (line : Nat) (tag value : String) : Except Error Literal :=
  if tag = "!!int" then
    match Text.Numeral.signed value.toList with
    | .ok n => .ok (.number (Int64.ofInt n))
    | .error e => .error (.bare (.number line value e))
  else if tag = "!!bool" then
    match Text.Numeral.truth? value with
    | some b => .ok (.bool b)
    | none => .error (.bare (.truth line value))
  else if tag = "!!null" then .ok .void
  else if tag = "!!str" then .ok (.str (Bytes.ofString value))
  else .error (.bare (.scalarTag line tag))

/-- The name a node stands for. -/
def nameOf (n : Node) : Except Error String :=
  match n with
  | .scalar line tag value =>
    if tag = "!!null" ∨ value = "" then .error (.bare (.notName line)) else .ok value
  | _ => .error (.bare (.notName n.line))

/-- The fields of an expression, as they are written. -/
abbrev Fields := List (Node × Node)

namespace Fields

/-- The value of a field. -/
def get? : Fields → String → Option Node
  | [], _ => none
  | (key, value) :: rest, name =>
    (get? rest name).or (if key.value = name then some value else none)

/-- A field is a smaller node than the mapping that holds it. -/
theorem sizeOf_get?_lt {f : Fields} {name : String} {n : Node} (h : get? f name = some n) :
    sizeOf n < sizeOf f := by
  induction f with
  | nil => simp [get?] at h
  | cons entry rest ih =>
    obtain ⟨key, value⟩ := entry
    simp only [get?, Option.or_eq_some_iff] at h
    rcases h with h | ⟨_, h⟩
    · have := ih h
      simp only [List.cons.sizeOf_spec]
      omega
    · split at h <;> simp only [Option.some.injEq, reduceCtorEq] at h
      subst h
      simp only [List.cons.sizeOf_spec, Prod.mk.sizeOf_spec]
      omega

/-- The name in a field. -/
def name (f : Fields) (field : String) : Except Error String :=
  match f.get? field with
  | some (.scalar _ _ value) =>
    if value = "" then .error (.bare (.fieldNotName field)) else .ok value
  | _ => .error (.bare (.fieldNotName field))

/-- The type in a field. -/
def ty (f : Fields) (field : String) : Except Error Ty :=
  match f.get? field with
  | none => .ok .number
  | some n =>
    match Ty.ofName? n.value with
    | some ty => .ok ty
    | none => .error (.bare (.unknownType field n.value))

/-- The truth value in a field. -/
def flag (f : Fields) (field : String) : Except Error Bool :=
  match f.get? field with
  | none => .ok false
  | some n =>
    match Text.Numeral.truth? n.value with
    | some b => .ok b
    | none => .error (Located.under (.field field) (.bare (.flag n.value)))

/-- A parameter, which has a name and a type. -/
def param (n : Node) : Except Error Param :=
  Located.within .param <|
    match n with
    | .mapping _ f => do
      let name ← name f "name"
      let ty ← ty f "type"
      return { name, ty }
    | _ => .error (.bare (.notMapping n.line))

/-- The parameters of a function. -/
def params (f : Fields) : Except Error (List Param) :=
  match f.get? "params" with
  | none => .ok []
  | some (.sequence _ items) => items.mapM param
  | some _ => .error (.bare (.fieldNotSequence "params"))

/-- All of a function but its body. -/
def header (f : Fields) : Except Error Header := do
  let name ← f.name "name"
  let ret ← f.ty "ret"
  let isPublic ← f.flag "pub"
  let isExternal ← f.flag "extern"
  let params ← f.params
  return { name, params, ret, isPublic, isExternal }

end Fields

mutual

/-- The expression of a node: a literal for a scalar, an array for a sequence and the
    form its key names for a mapping. -/
def Expr.ofNode (n : Node) : Except Error Expr :=
  match n with
  | .scalar line tag value => .literal <$> Literal.ofScalar line tag value
  | .sequence _ items => .array <$> Expr.ofNodes items
  | .mapping line [(key, value)] =>
    Located.within (.node line key.value) (Expr.ofForm (Form.ofKey? key.value) value)
  | .mapping line _ => .error (.bare (.keyCount line))
  | .alias line _ => .error (.bare (.nodeKind line))
termination_by (sizeOf n, 0)

/-- The expressions of the items of a sequence. -/
def Expr.ofNodes (items : List Node) : Except Error (List Expr) :=
  match items with
  | [] => .ok []
  | n :: rest => do
    let x ← Expr.ofNode n
    let xs ← Expr.ofNodes rest
    return x :: xs
termination_by (sizeOf items, 0)

/-- The expressions of a node that has to be a sequence. -/
def Expr.ofList (n : Node) : Except Error (List Expr) :=
  match n with
  | .sequence _ items => Expr.ofNodes items
  | _ => .error (.bare (.notSequence n.line))
termination_by (sizeOf n, 0)

/-- The expression of a node where nothing may stand as well. -/
def Expr.ofOptional (n : Node) : Except Error Expr :=
  match n with
  | .scalar line tag value =>
    if tag = "!!null" then .ok .missing else Expr.ofNode (.scalar line tag value)
  | n => Expr.ofNode n
termination_by (sizeOf n, 1)

/-- The expression in a field. -/
def Expr.ofField (f : Fields) (field : String) : Except Error Expr :=
  match h : f.get? field with
  | some n =>
    have := Fields.sizeOf_get?_lt h
    Located.within (.field field) (Expr.ofNode n)
  | none => .error (.bare (.fieldMissing field))
termination_by (sizeOf f, 0)

/-- The expression in a field that may be left out. -/
def Expr.ofOptionalField (f : Fields) (field : String) : Except Error Expr :=
  if (f.get? field).isSome then Expr.ofField f field else .ok .missing
termination_by (sizeOf f, 1)

/-- The expressions in a field that may be left out. -/
def Expr.ofListField (f : Fields) (field : String) : Except Error (List Expr) :=
  match h : f.get? field with
  | some n =>
    have := Fields.sizeOf_get?_lt h
    Expr.ofList n
  | none => .ok []
termination_by (sizeOf f, 0)

/-- The expression of a form from its content. -/
def Expr.ofForm (form : Option Form) (n : Node) : Except Error Expr :=
  match form with
  | some .block => .block <$> Expr.ofList n
  | some .var => .var <$> nameOf n
  | some .input => .input <$> nameOf n
  | some .label => .label <$> nameOf n
  | some .goto => .goto <$> nameOf n
  | some .out => .out <$> Expr.ofNode n
  | some .exit => .exit <$> Expr.ofOptional n
  | some .ret => .ret <$> Expr.ofOptional n
  | form =>
    match n with
    | .mapping _ f => Expr.ofFields form f
    | _ => .error (.bare (.notMapping n.line))
termination_by (sizeOf n, 2)

/-- The expression of a form from its fields. -/
def Expr.ofFields (form : Option Form) (f : Fields) : Except Error Expr :=
  match form with
  | some .define => do
    let name ← f.name "name"
    let ty ← f.ty "type"
    let value ← Expr.ofField f "value"
    return .define name ty value
  | some .assign => do
    let name ← f.name "name"
    let value ← Expr.ofField f "value"
    return .assign name value
  | some .binary => do
    let op ← f.name "op"
    let left ← Expr.ofField f "left"
    let right ← Expr.ofField f "right"
    return .binary op left right
  | some .unary => do
    let op ← f.name "op"
    let arg ← Expr.ofField f "arg"
    return .unary op arg
  | some .cond => do
    let test ← Expr.ofField f "cond"
    let yes ← Expr.ofField f "then"
    let no ← Expr.ofOptionalField f "else"
    return .cond test yes no
  | some .loop => do
    let test ← Expr.ofField f "cond"
    let body ← Expr.ofField f "body"
    return .loop test body
  | some .func => do
    let header ← f.header
    let body ← if header.isExternal then pure .missing else Expr.ofField f "body"
    return .func header body
  | some .call => do
    let name ← f.name "name"
    let args ← Expr.ofListField f "args"
    return .call name args
  | some .index => do
    let target ← Expr.ofField f "target"
    let position ← Expr.ofField f "index"
    return .index target position
  | some .setIndex => do
    let target ← Expr.ofField f "target"
    let position ← Expr.ofField f "index"
    let value ← Expr.ofField f "value"
    return .setIndex target position value
  | _ => .error (.bare .unknownForm)
termination_by (sizeOf f, 2)

end

/-- The program of a document, whose root has to be a sequence. -/
def Program.ofNode (root : Node) : Except Error Program :=
  match root with
  | .sequence _ items => Program.mk <$> Expr.ofNodes items
  | _ => .error (.bare (.programKind root.line))

/-- The program of a text. -/
def Program.ofText (text : String) : Except Error Program :=
  match Yaml.firstDocument text with
  | .ok (some root) => Program.ofNode root
  | .ok none => .ok { body := [] }
  | .error _ => .error (.bare .malformed)

end TreeCompiler.Tree
