import TreeCompiler.Code.Listing
import TreeCompiler.Failure

namespace TreeCompiler.Code

/-- An operand in its role and whether it is fit for that role. -/
structure Demand where
  role : String
  operand : Option Operand
  isMet : Bool
  deriving DecidableEq, Repr

namespace Demand

/-- The operand is a place to write to. -/
def storage (role : String) (o : Option Operand) : Demand :=
  ⟨role, o, Operand.isStorage o⟩

/-- The operand is a value to read. -/
def value (role : String) (o : Option Operand) : Demand :=
  ⟨role, o, Operand.isValue o⟩

/-- The operand is a literal count. -/
def count (role : String) (o : Option Operand) : Demand :=
  ⟨role, o, Operand.isCount o⟩

/-- The operand is a variable. -/
def var (role : String) (o : Option Operand) : Demand :=
  ⟨role, o, match o with | some (.var _) => true | _ => false⟩

/-- The operand is a label. -/
def target (o : Option Operand) : Demand :=
  ⟨"target", o, match o with | some (.label _) => true | _ => false⟩

/-- The operand is a function. -/
def callee (o : Option Operand) : Demand :=
  ⟨"callee", o, match o with | some (.func _) => true | _ => false⟩

/-- Nothing is demanded of an operand that is absent. -/
def orAbsent (d : Demand) : Demand :=
  { d with isMet := d.operand.isNone || d.isMet }

end Demand

/-- What an instruction demands of its operands, in the order of the checks. -/
def Instr.demands? (x : Instr) : Option (List Demand) :=
  match x.op with
  | .nop => some []
  | .binary _ => some [.storage "dst" x.dst, .value "src1" x.src1, .value "src2" x.src2]
  | .compare _ => some [.storage "dst" x.dst, .value "src1" x.src1, .value "src2" x.src2]
  | .unary _ => some [.storage "dst" x.dst, .value "src1" x.src1]
  | .move => some [.storage "dst" x.dst, .value "src1" x.src1]
  | .load => some [.var "src1" x.src1, .storage "dst" x.dst]
  | .store => some [.var "dst" x.dst, .value "src1" x.src1]
  | .index => some [.storage "dst" x.dst, .value "src1" x.src1, .value "src2" x.src2]
  | .setIndex =>
    some [.value "operand" x.dst, .value "operand" x.src1, .value "operand" x.src2]
  | .array => some [.storage "dst" x.dst, .count "src1" x.src1]
  | .arg => some [.value "src1" x.src1, .count "src2" x.src2]
  | .call => some [.callee x.src1, .count "argc" x.src2, (Demand.storage "dst" x.dst).orAbsent]
  | .label => some [.target x.dst]
  | .jump => some [.target x.dst]
  | .jumpIfFalse => some [.target x.dst, .value "cond" x.src1]
  | .ret => some [(Demand.value "value" x.src1).orAbsent]
  | .exit => some [(Demand.value "value" x.src1).orAbsent]
  | .unknown _ => none

namespace Validity

/-- Where a program is found invalid. -/
inductive Place where
  | func (name : String)
  | instr (index : Nat) (x : Instr)
  deriving Repr

/-- Why a program is invalid. -/
inductive Cause where
  | duplicateFunc (name : String)
  | externalCode (length : Nat)
  | param (operand : Option Operand)
  | tempTypes (index : Nat) (id : Int) (earlier later : Ty)
  | operand (d : Demand)
  | unknownOp (op : Op)
  | duplicateLabel (name : String)
  | undefinedLabel (name : String)
  deriving Repr

/-- A finding about a program and its place. -/
abbrev Error := Located Place Cause

/-- The words for a place. -/
def Place.text : Place → String
  | .func name => "func " ++ name
  | .instr index x => "insn " ++ toString index ++ " (" ++ x.text ++ ")"

/-- The kind of failure a cause belongs to. -/
def Cause.kind : Cause → FailureKind
  | .duplicateFunc _ => .duplicateDeclaration
  | .externalCode _ => .invalidOperandKind
  | .param _ => .invalidOperandKind
  | .tempTypes .. => .invalidOperandKind
  | .operand _ => .invalidOperandKind
  | .unknownOp _ => .unsupportedConstruct
  | .duplicateLabel _ => .duplicateDeclaration
  | .undefinedLabel _ => .undefinedVariable

/-- The words for what was found. -/
def Cause.found : Cause → String
  | .duplicateFunc name => "func " ++ name
  | .externalCode length => "external func with " ++ toString length ++ " instructions"
  | .param o => "param " ++ Operand.className o
  | .tempTypes index id earlier later =>
    "insn " ++ toString index ++ ": temp t" ++ toString id ++ " used as " ++ earlier.name ++
      " and " ++ later.name
  | .operand d => d.role ++ ": " ++ Operand.className d.operand
  | .unknownOp op => "op " ++ op.name
  | .duplicateLabel name => "label " ++ name
  | .undefinedLabel name => "label " ++ name

/-- The message of a finding. -/
def Error.message (e : Error) : String :=
  Located.message Place.text (fun c => c.kind.describe c.found) e

/-- The types of the temporaries met so far. -/
abbrev TempTypes := List (Int × Ty)

/-- Records the types of the temporaries among some operands. -/
def recordTemps (index : Nat) : TempTypes → List (Option Operand) → Except Error TempTypes
  | temps, [] => .ok temps
  | temps, some (.temp t) :: rest =>
    match temps.lookup t.id with
    | some ty =>
      if ty = t.ty then recordTemps index temps rest
      else .error (.bare (.tempTypes index t.id ty t.ty))
    | none => recordTemps index ((t.id, t.ty) :: temps) rest
  | temps, _ :: rest => recordTemps index temps rest

/-- The first demand of an instruction that is not met, if it is a known one. -/
def checkDemands (x : Instr) : Except Cause Unit :=
  match x.demands? with
  | none => .error (.unknownOp x.op)
  | some ds =>
    match ds.find? (fun d => !d.isMet) with
    | some d => .error (.operand d)
    | none => .ok ()

/-- What has been gathered from the instructions of a function. -/
structure Seen where
  temps : TempTypes := []
  labels : List String := []
  jumps : List String := []

/-- Checks one instruction against those before it. -/
def checkInstr (index : Nat) (seen : Seen) (x : Instr) : Except Error Seen := do
  let temps ← recordTemps index seen.temps x.operands
  Located.within (.instr index x) ((checkDemands x).mapError .bare)
  match x.op, x.dst with
  | .label, some (.label name) =>
    if name ∈ seen.labels then .error (.bare (.duplicateLabel name))
    else .ok { seen with temps, labels := name :: seen.labels }
  | .jump, some (.label name) => .ok { seen with temps, jumps := name :: seen.jumps }
  | .jumpIfFalse, some (.label name) => .ok { seen with temps, jumps := name :: seen.jumps }
  | _, _ => .ok { seen with temps }

/-- Checks the instructions of a function in order. -/
def checkCode : Nat → Seen → List Instr → Except Error Seen
  | _, seen, [] => .ok seen
  | index, seen, x :: rest => do checkCode (index + 1) (← checkInstr index seen x) rest

/-- Checks a function on its own. -/
def checkFunc (f : Func) : Except Error Unit :=
  if f.isExternal then
    if f.code.isEmpty then .ok () else .error (.bare (.externalCode f.code.length))
  else
    match f.params.find? (fun p => !(Demand.var "param" p.operand).isMet) with
    | some p => .error (.bare (.param p.operand))
    | none => do
      let seen ← checkCode 0 {} f.code
      match seen.jumps.reverse.find? (fun l => !seen.labels.contains l) with
      | some l => .error (.bare (.undefinedLabel l))
      | none => .ok ()

/-- Checks functions in order, given the names of those before them. -/
def checkFuncs : List String → List Func → Except Error Unit
  | _, [] => .ok ()
  | names, f :: rest =>
    if f.name ∈ names then .error (.bare (.duplicateFunc f.name))
    else do
      Located.within (.func f.name) (checkFunc f)
      checkFuncs (f.name :: names) rest

end Validity

/-- Checks the structure that code generation relies on within a function. -/
def Func.validate (f : Func) : Except Validity.Error Unit :=
  Validity.checkFunc f

/-- Checks the structure that code generation relies on within a program. -/
def Program.validate (p : Program) : Except Validity.Error Unit :=
  Validity.checkFuncs [] p.funcs

end TreeCompiler.Code
