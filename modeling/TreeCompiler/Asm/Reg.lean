namespace TreeCompiler.Asm

/-- The registers whose contents are tracked. -/
inductive Reg where
  | rax | rcx | rdx | rsi | rdi | r8 | r9 | r10 | r11
  deriving DecidableEq, Repr

namespace Reg

/-- The tracked registers in the order in which they are searched. -/
def all : List Reg := [.rax, .rcx, .rdx, .rsi, .rdi, .r8, .r9, .r10, .r11]

/-- The position of a register in `all`. -/
def index : Reg → Fin 9
  | .rax => 0
  | .rcx => 1
  | .rdx => 2
  | .rsi => 3
  | .rdi => 4
  | .r8 => 5
  | .r9 => 6
  | .r10 => 7
  | .r11 => 8

/-- The register of a code, if there is one. -/
def ofCode? (code : Int) : Option Reg :=
  if 0 ≤ code then all[code.toNat]? else none

/-- The name of a register. -/
def name : Reg → String
  | .rax => "rax"
  | .rcx => "rcx"
  | .rdx => "rdx"
  | .rsi => "rsi"
  | .rdi => "rdi"
  | .r8 => "r8"
  | .r9 => "r9"
  | .r10 => "r10"
  | .r11 => "r11"

/-- The registers that carry the first arguments of a call. -/
def args : List Reg := [.rdi, .rsi, .rdx, .rcx, .r8, .r9]

end Reg

/-- A register: a tracked one, the top of the stack or the base of the frame. -/
inductive Register where
  | tracked (r : Reg)
  | rsp
  | rbp
  deriving DecidableEq, Repr

instance : Coe Reg Register := ⟨.tracked⟩

/-- The name of a register. -/
def Register.name : Register → String
  | .tracked r => r.name
  | .rsp => "rsp"
  | .rbp => "rbp"

end TreeCompiler.Asm
