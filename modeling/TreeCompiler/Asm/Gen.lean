import TreeCompiler.Asm.Cache
import TreeCompiler.Asm.Frame
import TreeCompiler.Asm.StringTable
import TreeCompiler.Code.Listing
import TreeCompiler.Failure

namespace TreeCompiler.Asm

open Code (Operand Instr Func Const)

/-- Where code generation failed. -/
inductive Place where
  | func (name : String)
  | params
  | instr (index : Nat) (x : Instr)
  | src1
  | src2
  | value
  | elem (index : Nat)
  | arg (index : Nat)
  deriving Repr

/-- Why code generation failed. -/
inductive Cause where
  | externalCode
  | labelDefinition (index : Nat) (o : Option Operand)
  | label (o : Option Operand)
  | param (index : Nat) (o : Option Operand)
  | noSlot (o : Operand)
  | load (o : Option Operand)
  | constKind (kind : Int)
  | store (o : Option Operand)
  | argPosition (o : Option Operand) (pending : Nat)
  | arrayLength (o : Option Operand) (pending : Nat)
  | callee (o : Option Operand)
  | argCount (name : String) (o : Option Operand) (pending : Nat)
  | selfCall (given wanted : Nat)
  | jumpTarget (o : Option Operand)
  | unknownOp (op : Code.Op)
  deriving Repr

/-- Code generation fails at a place, or because a temporary's number is negative. -/
inductive Error where
  | badTemp (e : BitSet.NegativeKey)
  | located (e : Located Place Cause)
  deriving Repr

/-- The words for a place. -/
def Place.text : Place → String
  | .func name => "func " ++ name
  | .params => "params"
  | .instr index x => "insn " ++ toString index ++ " (" ++ x.text ++ ")"
  | .src1 => "src1"
  | .src2 => "src2"
  | .value => "value"
  | .elem index => "elem " ++ toString index
  | .arg index => "arg " ++ toString index

/-- The kind of failure a cause belongs to. -/
def Cause.kind : Cause → FailureKind
  | .noSlot _ => .undefinedVariable
  | .unknownOp _ => .unsupportedConstruct
  | _ => .invalidOperandKind

/-- The words for what was found. -/
def Cause.found : Cause → String
  | .externalCode => "external with code"
  | .labelDefinition index o => "insn " ++ toString index ++ ": label " ++ Operand.className o
  | .label o => "label " ++ Operand.className o
  | .param index o => "param " ++ toString index ++ ": " ++ Operand.className o
  | .noSlot o => "no slot for " ++ o.text
  | .load o => "load " ++ Operand.className o ++ " into register"
  | .constKind kind => "const kind " ++ toString kind
  | .store o => "store into " ++ Operand.className o
  | .argPosition o pending =>
    "arg position " ++ Operand.shown o ++ ", want " ++ toString pending
  | .arrayLength o pending =>
    "array length " ++ Operand.shown o ++ ", " ++ toString pending ++ " elements pending"
  | .callee o => "callee " ++ Operand.className o
  | .argCount name o pending =>
    "call " ++ name ++ ": argc " ++ Operand.shown o ++ ", " ++ toString pending ++ " args pending"
  | .selfCall given wanted =>
    "self call with " ++ toString given ++ " args, want " ++ toString wanted
  | .jumpTarget o => "jump target " ++ Operand.className o
  | .unknownOp op => "op " ++ op.name

/-- The kind of failure an error belongs to. -/
def Error.kind : Error → FailureKind
  | .badTemp _ => .negativeKey
  | .located e => e.cause.kind

/-- The message of an error. -/
def Error.message : Error → String
  | .badTemp e => e.message
  | .located e => e.message Place.text fun c => c.kind.describe c.found

/-- Adds the place that encloses all others. -/
def Error.under (place : Place) : Error → Error
  | .badTemp e => .badTemp e
  | .located e => .located (e.under place)

/-- What is fixed while a function is compiled: the function, its frame, and where
    its labels stand. -/
structure Site where
  func : Func
  frame : Frame
  labels : List (String × Nat)
  deriving DecidableEq, Repr

/-- What changes while a function is compiled: what the registers hold, the values
    handed over to the next array or call, and the strings in use. -/
structure GenState where
  cache : Cache := .empty
  pending : Array (Option Operand) := #[]
  strings : StringTable
  /-- Whether a value is taken from a register that holds it. -/
  reuse : Bool := true
  deriving DecidableEq, Repr

/-- What a value can be taken from. -/
def GenState.known (s : GenState) : Cache :=
  if s.reuse then s.cache else .empty

/-- Code generation reads and changes the state, or fails. -/
abbrev GenM := StateT GenState (Except Error)

namespace GenM

/-- Fails for a cause that is not placed yet. -/
def fail {α : Type} (cause : Cause) : GenM α :=
  fun _ => .error (.located (.bare cause))

/-- Places the failure of a computation, if it fails. -/
def within {α : Type} (place : Place) (m : GenM α) : GenM α :=
  fun s => (m s).mapError (.under place)

/-- Changes what is known of the registers. -/
def track (f : Cache → Cache) : GenM Unit :=
  fun s => .ok ((), { s with cache := f s.cache })

/-- Forgets what the registers hold. -/
def forget : GenM Unit :=
  track fun _ => .empty

/-- Takes the values handed over so far. -/
def takePending : GenM (List (Option Operand)) :=
  fun s => .ok (s.pending.toList, { s with pending := #[] })

/-- The index of a string's symbol. -/
def string (text : Bytes) : GenM Nat := fun s =>
  let (index, strings) := s.strings.intern text
  .ok (index, { s with strings })

end GenM

/-- Puts a literal into a register. -/
def loadConst (c : Const) (r : Reg) : GenM (List Insn) :=
  match c with
  | .int v => pure [.movConst r v.toInt]
  | .bool b => pure [.movConst r (if b then 1 else 0)]
  | .str text => do return [.leaString r (← GenM.string text)]
  | .void => pure [.movConst r 0]
  | .unknown kind => .fail (.constKind kind)

/-- Brings an operand into a register that does not hold it yet. -/
def fetch (site : Site) (o : Operand) (r : Reg) : GenM (List Insn) :=
  match o with
  | .const c => loadConst c r
  | .temp _ | .var _ =>
    match site.frame.offset? o with
    | some offset => pure [.load r (.frame offset)]
    | none => .fail (.noSlot o)
  | .label _ | .func _ => .fail (.load (some o))

/-- Makes a register hold an operand. -/
def load (site : Site) (o : Option Operand) (r : Reg) : GenM (List Insn) :=
  match o with
  | none => .fail (.load none)
  | some o => do
    let cache := (← get).known
    if cache.get r = some o then return []
    else
      let code ← match cache.find? o with
        | some other => pure [Insn.mov r other]
        | none => fetch site o r
      .track (·.set r (some o))
      return code

/-- Writes a register to the slot of an operand. -/
def store (site : Site) (o : Option Operand) (r : Reg) : GenM (List Insn) :=
  match o with
  | none => .fail (.store none)
  | some o =>
    match site.frame.offset? o with
    | none => .fail (.store (some o))
    | some offset => do
      .track (·.written o r)
      return [.store (.frame offset) r]

/-- Brings two operands into the first two registers. -/
def loadPair (site : Site) (left right : Option Operand) : GenM (List Insn) := do
  let l ← GenM.within .src1 (load site left .rax)
  let r ← GenM.within .src2 (load site right .rcx)
  return l ++ r

/-- Writes the result of an instruction that used several registers. -/
def produce (site : Site) (dst : Option Operand) : GenM (List Insn) := do
  GenM.forget
  store site dst .rax

/-- Writes a result that replaced the first register. -/
def replace (site : Site) (dst : Option Operand) : GenM (List Insn) := do
  GenM.track (·.set .rax none)
  store site dst .rax

end TreeCompiler.Asm
