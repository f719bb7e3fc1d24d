import TreeCompiler.Asm.Reg
import TreeCompiler.Code.Basic

namespace TreeCompiler.Asm

/-- What each tracked register is known to hold. -/
structure Cache where
  entries : Vector (Option Code.Operand) 9
  deriving DecidableEq, Repr

namespace Cache

/-- Nothing is known of any register. -/
def empty : Cache := ⟨Vector.replicate 9 none⟩

/-- What a register is known to hold. -/
def get (c : Cache) (r : Reg) : Option Code.Operand :=
  c.entries.get r.index

/-- Replaces what is known of a register. -/
def set (c : Cache) (r : Reg) (o : Option Code.Operand) : Cache :=
  ⟨c.entries.set r.index o⟩

/-- The first register that holds an operand. -/
def find? (c : Cache) (o : Code.Operand) : Option Reg :=
  Reg.all.find? fun r => c.get r = some o

/-- Forgets the registers that hold the former value of an operand and records the
    one that holds its new value. -/
def written (c : Cache) (o : Code.Operand) (r : Reg) : Cache :=
  set ⟨c.entries.map fun x => if x = some o then none else x⟩ r (some o)

end Cache

end TreeCompiler.Asm
