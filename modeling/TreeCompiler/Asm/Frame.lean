import TreeCompiler.BitSet
import TreeCompiler.Code.Basic

namespace TreeCompiler.Asm

/-- The least multiple of sixteen that is not below a number. -/
def alignUp (n : Int) : Int :=
  (n + 15) / 16 * 16

/-- The stack space of an array: its length and its elements, eight bytes each. -/
def arraySize (n : Int) : Int :=
  (alignUp (8 + 8 * n)).bmod 0x10000000000000000

/-- What a frame has a slot for. -/
inductive Slot where
  | temp (id : Nat)
  | var (name : String)
  deriving DecidableEq, Repr

/-- The slots of a function's variables and temporaries below the base of its frame, in the order in
    which they are first met. -/
structure Frame where
  slots : Array Slot := #[]
  hasArrays : Bool := false
  deriving DecidableEq, Repr

namespace Frame

/-- The slot of an operand, if it is of the kind that has one. -/
def slot? : Code.Operand → Except BitSet.NegativeKey (Option Slot)
  | .temp t => (BitSet.key t.id).map fun id => some (.temp id)
  | .var name => .ok (some (.var name))
  | _ => .ok none

/-- Makes room for an operand that has no slot yet. -/
def add (fr : Frame) : Option Code.Operand → Except BitSet.NegativeKey Frame
  | none => .ok fr
  | some o =>
    match slot? o with
    | .error e => .error e
    | .ok none => .ok fr
    | .ok (some s) => .ok (if s ∈ fr.slots then fr else { fr with slots := fr.slots.push s })

/-- Makes room for operands in order. -/
def addAll (fr : Frame) (os : List (Option Code.Operand)) : Except BitSet.NegativeKey Frame :=
  os.foldlM add fr

/-- The frame of a function: its parameters first, then the operands of its code. -/
def ofFunc (f : Code.Func) : Except BitSet.NegativeKey Frame := do
  let fr ← Frame.addAll {} (f.params.map (·.operand))
  let fr ← fr.addAll (f.code.flatMap (·.operands))
  return { fr with hasArrays := f.code.any (·.op = .array) }

/-- The distance of an operand's slot from the base of the frame. -/
def offset? (fr : Frame) (o : Code.Operand) : Option Int :=
  match slot? o with
  | .ok (some s) => (fr.slots.idxOf? s).map fun index => -8 * ((index : Int) + 1)
  | _ => none

/-- The bytes taken by the slots, which keep the stack aligned. -/
def size (fr : Frame) : Nat :=
  (alignUp (8 * (fr.slots.size : Int))).toNat

end Frame

/-- The bytes that a function reserves below the base of its frame. -/
def frameSize (f : Code.Func) : Except BitSet.NegativeKey Nat :=
  if f.isExternal then .ok 0 else (Frame.ofFunc f).map Frame.size

end TreeCompiler.Asm
