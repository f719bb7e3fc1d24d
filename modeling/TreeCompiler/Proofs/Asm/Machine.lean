import Mathlib.Algebra.Group.Int.Defs
import Mathlib.Algebra.Group.Nat.Defs
import TreeCompiler.Asm.Line
import TreeCompiler.Proofs.Asm.Memory

namespace TreeCompiler.Asm

open Code

/-- What a comparison leaves behind for conditional instructions. -/
structure Flags where
  zero : Bool
  sign : Bool
  overflow : Bool
  deriving DecidableEq, Repr

namespace Flags

/-- The flags of the difference of two words. -/
def ofDifference (a b : Word) : Flags :=
  { zero := a - b = 0, sign := (a - b).msb, overflow := BitVec.ssubOverflow a b }

/-- Whether a condition on signed words holds. -/
def holds (f : Flags) : CompareOp → Bool
  | .eq => f.zero
  | .ne => !f.zero
  | .gt => !f.zero && f.sign == f.overflow
  | .ge => f.sign == f.overflow
  | .lt => f.sign != f.overflow
  | .le => f.zero || f.sign != f.overflow

end Flags

/-- The state of a machine. -/
structure State where
  regs : Register → Word
  flags : Option Flags
  mem : Memory
  pc : Nat

/-- How a machine stops: control leaves the text, the program ends itself, a division has no
    result, or there is nothing to go on with, such as memory that is not mapped. -/
inductive Halt where
  | left (s : State)
  | exited (code : Word)
  | divideError
  | fault

/-- What surrounds a text when it runs: where its lines and its strings are placed in memory, and
    which words of memory can be used. -/
structure Host where
  lines : List Line
  address : Nat → Word
  lineAt : Word → Option Nat
  dataAddress : Nat → Word
  accessible : Nat → Bool
  lineAt_address : ∀ i, i ≤ lines.length → lineAt (address i) = some i
  accessible_bound : ∀ a, accessible a = true → a + 8 ≤ 2 ^ 47

namespace State

/-- Replaces the contents of a register. -/
def set (s : State) (r : Register) (v : Word) : State :=
  { s with regs := fun r' => if r' = r then v else s.regs r' }

/-- Goes on to the next line. -/
def next (s : State) : State :=
  { s with pc := s.pc + 1 }

/-- Leaves the flags undefined. -/
def clearFlags (s : State) : State :=
  { s with flags := none }

/-- Goes on at a line, if it exists. -/
def goto (s : State) : Option Nat → Except Halt State
  | some pc => .ok { s with pc }
  | none => .error .fault

/-- Divides the double word in the registers of a division. -/
def divide (s : State) (divisor : Word) : Except Halt State :=
  let dividend := (s.regs (.tracked .rdx) ++ s.regs (.tracked .rax)).toInt
  let quotient := dividend.tdiv divisor.toInt
  if divisor = 0 ∨ quotient < -2 ^ 63 ∨ 2 ^ 63 ≤ quotient then .error .divideError
  else .ok ((s.set (.tracked .rax) (BitVec.ofInt 64 quotient)).set (.tracked .rdx)
    (BitVec.ofInt 64 (dividend.tmod divisor.toInt)))

end State

/-- Numbers that instructions can hold beside an opcode have 32 bits and a sign. -/
def fits (v : Int) : Bool :=
  -2 ^ 31 ≤ v ∧ v < 2 ^ 31

/-- Whether an address can be spelled in an instruction. -/
def Address.isEncodable : Address → Bool
  | .frame offset => fits offset
  | .stack offset => fits offset
  | .pointee _ => true
  | .element .. => true

/-- The address an instruction uses. -/
def Address.resolve (s : State) : Address → Word
  | .frame offset => s.regs .rbp + BitVec.ofInt 64 offset
  | .stack offset => s.regs .rsp + BitVec.ofNat 64 offset
  | .pointee base => s.regs base
  | .element base position => s.regs base + s.regs position * 8 + 8

/-- The result of an operation on two registers. -/
def Arith.eval : Arith → Word → Word → Word
  | .add, a, b => a + b
  | .sub, a, b => a - b
  | .imul, a, b => a * b
  | .and, a, b => a &&& b
  | .or, a, b => a ||| b
  | .xor, a, b => a ^^^ b

/-- The result of an operation on one register. -/
def Step.eval : Step → Word → Word
  | .neg, a => -a
  | .inc, a => a + 1
  | .dec, a => a - 1

/-- The positions of the lines that open a function. -/
def Line.isSymbol : Line → Bool
  | .symbol _ => true
  | _ => false

/-- The position of the first line of the function that a line belongs to. -/
def functionStart (lines : List Line) (pc : Nat) : Nat :=
  pc - ((lines.take pc).reverse.takeWhile fun l => !l.isSymbol).length

namespace Host

variable (h : Host)

/-- Where a symbol is defined. -/
def symbol? (name : String) : Option Nat :=
  h.lines.idxOf? (.symbol name)

/-- Where a mark stands in the function that a line belongs to. -/
def mark? (pc : Nat) (name : String) : Option Nat :=
  let start := functionStart h.lines pc
  (((h.lines.drop start).takeWhile fun l => !l.isSymbol).idxOf? (.mark name)).map (start + ·)

/-- Reads a word of memory. -/
def load (s : State) (a : Word) : Except Halt Word :=
  if h.accessible a.toNat then .ok (s.mem.read a.toNat) else .error .fault

/-- Writes a word of memory. -/
def store (s : State) (a v : Word) : Except Halt State :=
  if h.accessible a.toNat then .ok { s with mem := s.mem.write a.toNat v } else .error .fault

/-- Puts a word on the stack. -/
def push (s : State) (v : Word) : Except Halt State :=
  h.store (s.set .rsp (s.regs .rsp - 8)) (s.regs .rsp - 8) v

/-- Takes a word from the stack. -/
def pop (s : State) : Except Halt (Word × State) := do
  let v ← h.load s (s.regs .rsp)
  return (v, s.set .rsp (s.regs .rsp + 8))

/-- Executes an instruction. -/
def exec (s : State) : Insn → Except Halt State
  | .push r => (h.push s (s.regs r)).map State.next
  | .pop r => do
    let (v, s) ← h.pop s
    return (s.set r v).next
  | .mov dst src => .ok (s.set dst (s.regs src)).next
  | .movConst dst v => .ok (s.set dst (BitVec.ofInt 64 v)).next
  | .load dst src =>
    if src.isEncodable then do
      let v ← h.load s (src.resolve s)
      return (s.set dst v).next
    else .error .fault
  | .store dst src =>
    if dst.isEncodable then (h.store s (dst.resolve s) (s.regs src)).map State.next
    else .error .fault
  | .storeConst dst v =>
    if dst.isEncodable ∧ fits v then
      (h.store s (dst.resolve s) (BitVec.ofInt 64 v)).map State.next
    else .error .fault
  | .leaFrame dst depth =>
    if fits (-depth) then .ok (s.set dst (s.regs .rbp - BitVec.ofNat 64 depth)).next
    else .error .fault
  | .leaString dst index => .ok (s.set dst (h.dataAddress index)).next
  | .grow bytes =>
    if fits bytes then
      .ok (s.set .rsp (s.regs .rsp - BitVec.ofInt 64 bytes)).clearFlags.next
    else .error .fault
  | .shrink bytes =>
    if fits bytes then
      .ok (s.set .rsp (s.regs .rsp + BitVec.ofInt 64 bytes)).clearFlags.next
    else .error .fault
  | .arith op dst src => .ok (s.set dst (op.eval (s.regs dst) (s.regs src))).clearFlags.next
  | .step op dst => .ok (s.set dst (op.eval (s.regs dst))).clearFlags.next
  | .signExtend =>
    .ok (s.set (.tracked .rdx) (if (s.regs (.tracked .rax)).msb then -1 else 0)).next
  | .divide divisor => (s.divide (s.regs divisor)).map (·.clearFlags.next)
  | .shiftLeft dst =>
    let count := ((s.regs (.tracked .rcx)).setWidth 8).toNat % 64
    .ok (s.set dst (s.regs dst <<< count)).clearFlags.next
  | .shiftRight dst =>
    let count := ((s.regs (.tracked .rcx)).setWidth 8).toNat % 64
    .ok (s.set dst ((s.regs dst).sshiftRight count)).clearFlags.next
  | .compare left right =>
    .ok { s with flags := some (.ofDifference (s.regs left) (s.regs right)) }.next
  | .compareZero left => .ok { s with flags := some (.ofDifference (s.regs left) 0) }.next
  | .setFlag test =>
    match s.flags with
    | some f =>
      let low : BitVec 8 := if f.holds test then 1 else 0
      .ok (s.set (.tracked .rax) ((s.regs (.tracked .rax)).extractLsb' 8 56 ++ low)).next
    | none => .error .fault
  | .widenFlag =>
    .ok (s.set (.tracked .rax) (((s.regs (.tracked .rax)).setWidth 8).setWidth 64)).next
  | .jump name => s.goto (h.mark? s.pc name)
  | .jumpIfZero name =>
    match s.flags with
    | some f => if f.zero then s.goto (h.mark? s.pc name) else .ok s.next
    | none => .error .fault
  | .call name => do
    let s ← h.push s (h.address (s.pc + 1))
    s.goto (h.symbol? name)
  | .ret => do
    let (a, s) ← h.pop s
    match h.lineAt a with
    | some pc => .ok { s with pc }
    | none => .error (.left s)
  | .syscall =>
    if s.regs (.tracked .rax) = 60 then .error (.exited (s.regs (.tracked .rdi))) else .error .fault

/-- Executes the line a machine stands at. -/
def step (s : State) : Except Halt State :=
  match h.lines[s.pc]? with
  | some (.insn x) => h.exec s x
  | some (.string ..) => .error .fault
  | some _ => .ok s.next
  | none => .error .fault

/-- Executes a number of lines. -/
def run : Nat → State → Except Halt State
  | 0, s => .ok s
  | n + 1, s => do run n (← h.step s)

end Host

end TreeCompiler.Asm
