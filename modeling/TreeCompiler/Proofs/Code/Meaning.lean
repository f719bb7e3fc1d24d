import TreeCompiler.Code.Basic

namespace TreeCompiler

/-- A machine word. -/
abbrev Word := BitVec 64

namespace Code

/-- The word of a truth value. -/
def truth (b : Bool) : Word :=
  if b then 1 else 0

/-- Dividing by zero has no result, and neither has the one quotient that is too large for a
    word. -/
def divides (a b : Word) : Bool :=
  b ≠ 0 ∧ ¬ (a = BitVec.intMin 64 ∧ b = -1)

/-- The result of a binary operation. -/
def BinaryOp.eval : BinaryOp → Word → Word → Option Word
  | .add, a, b => some (a + b)
  | .sub, a, b => some (a - b)
  | .mul, a, b => some (a * b)
  | .div, a, b => if divides a b then some (a.sdiv b) else none
  | .mod, a, b => if divides a b then some (a.srem b) else none
  | .and, a, b => some (a &&& b)
  | .or, a, b => some (a ||| b)
  | .xor, a, b => some (a ^^^ b)
  | .shl, a, b => some (a <<< (b.toNat % 64))
  | .shr, a, b => some (a.sshiftRight (b.toNat % 64))

/-- Whether a comparison of signed words holds. -/
def CompareOp.holds : CompareOp → Word → Word → Bool
  | .eq, a, b => a = b
  | .ne, a, b => a ≠ b
  | .gt, a, b => b.slt a
  | .ge, a, b => b.sle a
  | .lt, a, b => a.slt b
  | .le, a, b => a.sle b

/-- The arrays that exist, by their addresses. -/
abbrev Heap := Word → Option (List Word)

namespace Heap

/-- No arrays exist. -/
def empty : Heap := fun _ => none

/-- Adds an array, or replaces one. -/
def build (heap : Heap) (base : Word) (elems : List Word) : Heap :=
  fun b => if b = base then some elems else heap b

/-- Gives arrays up. -/
def free (heap : Heap) (bases : List Word) : Heap :=
  fun b => if b ∈ bases then none else heap b

/-- The length of an array. -/
def length? (heap : Heap) (base : Word) : Option Word :=
  (heap base).map fun elems => BitVec.ofNat 64 elems.length

/-- An element of an array. -/
def get? (heap : Heap) (base position : Word) : Option Word :=
  (heap base).bind fun elems => elems[position.toNat]?

/-- Replaces an element of an array. -/
def set? (heap : Heap) (base position v : Word) : Option Heap :=
  (heap base).bind fun elems =>
    if position.toNat < elems.length then some (heap.build base (elems.set position.toNat v)) else none

/-- The same arrays exist and have the same lengths. -/
def SameShape (heap heap' : Heap) : Prop :=
  ∀ b, (heap b).map List.length = (heap' b).map List.length

end Heap

/-- The result of a unary operation on a word, which may be the address of an array. -/
def UnaryOp.eval (heap : Heap) : UnaryOp → Word → Option Word
  | .neg, a => some (-a)
  | .not, a => some (truth (a = 0))
  | .inc, a => some (a + 1)
  | .dec, a => some (a - 1)
  | .len, a => heap.length? a

/-- The word of a literal. -/
def Const.word (address : Bytes → Word) : Const → Word
  | .int v => v.toBitVec
  | .bool b => truth b
  | .str s => address s
  | .void => 0
  | .unknown _ => 0

/-- What the variables and temporaries of an activation hold. -/
abbrev Store := Operand → Word

namespace Store

/-- Replaces what one operand holds. -/
def put (σ : Store) (o : Operand) (v : Word) : Store :=
  fun o' => if o' = o then v else σ o'

@[simp] theorem put_same (σ : Store) (o : Operand) (v : Word) : σ.put o v o = v := by
  simp [put]

theorem put_ne (σ : Store) {o o' : Operand} (v : Word) (hne : o' ≠ o) : σ.put o v o' = σ o' := by
  simp [put, hne]

/-- Replaces what an operand holds if there is one. -/
def put? (σ : Store) (o : Option Operand) (v : Word) : Store :=
  match o with
  | some o => σ.put o v
  | none => σ

/-- The value of an operand. -/
def word (address : Bytes → Word) (σ : Store) : Operand → Word
  | .const c => c.word address
  | o => σ o

theorem word_of_isStorage (address : Bytes → Word) (σ : Store) {o : Operand}
    (ho : Operand.isStorage (some o) = true) : σ.word address o = σ o := by
  cases o <;> simp_all [word, Operand.isStorage]

end Store

end Code

end TreeCompiler
