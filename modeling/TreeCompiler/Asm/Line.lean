import TreeCompiler.Asm.Reg
import TreeCompiler.Code.Op
import TreeCompiler.Text.Bytes

namespace TreeCompiler.Asm

/-- The addresses that instructions use. -/
inductive Address where
  /-- A place relative to the base of the frame. -/
  | frame (offset : Int)
  /-- A place above the top of the stack. -/
  | stack (offset : Nat)
  /-- The place a register points to. -/
  | pointee (base : Reg)
  /-- An element of the array a register points to, behind its length. -/
  | element (base position : Reg)
  deriving DecidableEq, Repr

/-- The operations that replace a register by its combination with another one. -/
inductive Arith where
  | add | sub | imul | and | or | xor
  deriving DecidableEq, Repr

/-- The operations on one register. -/
inductive Step where
  | neg | inc | dec
  deriving DecidableEq, Repr

/-- Machine instructions. -/
inductive Insn where
  | push (r : Register)
  | pop (r : Register)
  | mov (dst src : Register)
  | movConst (dst : Reg) (v : Int)
  | load (dst : Reg) (src : Address)
  | store (dst : Address) (src : Reg)
  | storeConst (dst : Address) (v : Int)
  | leaFrame (dst : Register) (depth : Nat)
  | leaString (dst : Reg) (index : Nat)
  | grow (bytes : Int)
  | shrink (bytes : Int)
  | arith (op : Arith) (dst src : Reg)
  | step (op : Step) (dst : Reg)
  | signExtend
  | divide (divisor : Reg)
  | shiftLeft (dst : Reg)
  | shiftRight (dst : Reg)
  | compare (left right : Reg)
  | compareZero (left : Reg)
  | setFlag (test : Code.CompareOp)
  | widenFlag
  | jump (name : String)
  | jumpIfZero (name : String)
  | call (name : String)
  | ret
  | syscall
  deriving DecidableEq, Repr

/-- The lines of an assembly text. -/
inductive Line where
  | blank
  | segment (name : String)
  | string (index : Nat) (text : Bytes)
  | external (name : String)
  | global (name : String)
  | symbol (name : String)
  | mark (name : String)
  | comment (text : String)
  | insn (x : Insn)
  deriving DecidableEq, Repr

end TreeCompiler.Asm
