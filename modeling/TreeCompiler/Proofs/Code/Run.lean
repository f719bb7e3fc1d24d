import TreeCompiler.Proofs.Code.Meaning

namespace TreeCompiler.Code

/-- How the run of a function ends: with a result, with the end of the whole program, with a
    division that has no result, or at an instruction that has no meaning, such as the use of an
    element that an array does not have. -/
inductive Outcome where
  | returned (v : Word)
  | exited (code : Word)
  | trapped
  | stuck
  deriving DecidableEq, Repr

/-- Whether nothing runs after an outcome. -/
def Outcome.isHalt : Outcome → Bool
  | .returned _ => false
  | _ => true

/-- Whether an instruction is about arrays. -/
def Op.usesArrays : Op → Bool
  | .array | .index | .setIndex | .unary .len => true
  | _ => false

/-- No function of a program is about arrays. -/
def Program.ArrayFree (p : Program) : Prop :=
  ∀ f ∈ p.funcs, ∀ x ∈ f.code, x.op.usesArrays = false

/-- Where a function stands in its run: the instruction to execute, what its variables and
    temporaries hold, the values handed over to the next array or call, the arrays that exist, and
    those of them that it built itself. -/
structure Activation where
  index : Nat
  store : Store
  args : List Word
  heap : Heap
  arrays : List Word

/-- The position of a label. -/
def Func.labelIndex? (f : Func) (name : String) : Option Nat :=
  f.code.findIdx? fun x => x.op = .label ∧ x.dst = some (.label name)

/-- What an activation does next. -/
inductive Next where
  | goto (a : Activation)
  | build (dst : Operand) (elems : List Word)
  | call (name : String) (args : List Word) (dst : Option Operand)
  | ret (v : Option Word)
  | halt (o : Outcome)

namespace Activation

/-- Goes on behind the current instruction. -/
def step (a : Activation) : Activation :=
  { a with index := a.index + 1 }

/-- Goes on behind the current instruction, which gave a value to an operand. -/
def stepPut (a : Activation) (o : Option Operand) (v : Word) : Activation :=
  { a with index := a.index + 1, store := a.store.put? o v }

/-- Goes on behind the current instruction, which built an array. -/
def stepBuild (a : Activation) (o : Operand) (base : Word) (elems : List Word) : Activation :=
  { a.stepPut o base with args := [], heap := a.heap.build base elems, arrays := base :: a.arrays }

/-- Goes on behind a call that gave a value and left arrays changed. -/
def resume (a : Activation) (o : Option Operand) (v : Word) (heap : Heap) : Activation :=
  { a.stepPut o v with args := [], heap }

/-- Gives up the arrays that the activation built, or keeps them. -/
def release (a : Activation) : Bool → Activation
  | true => { a with heap := a.heap.free a.arrays, arrays := [] }
  | false => a

/-- The value of an operand. -/
def word (address : Bytes → Word) (a : Activation) (o : Operand) : Word :=
  a.store.word address o

/-- What an activation of a function does next. -/
def next? (address : Bytes → Word) (f : Func) (a : Activation) : Option Next := do
  let x ← f.code[a.index]?
  match x.op, x.dst, x.src1, x.src2 with
  | .nop, _, _, _ => some (.goto a.step)
  | .binary op, some d, some l, some r =>
    match op.eval (a.word address l) (a.word address r) with
    | some v => some (.goto (a.stepPut d v))
    | none => some (.halt .trapped)
  | .compare op, some d, some l, some r =>
    some (.goto (a.stepPut d (truth (op.holds (a.word address l) (a.word address r)))))
  | .unary op, some d, some o, _ =>
    (op.eval a.heap (a.word address o)).map fun v => .goto (a.stepPut d v)
  | .move, some d, some o, _ | .load, some d, some o, _ | .store, some d, some o, _ =>
    some (.goto (a.stepPut d (a.word address o)))
  | .index, some d, some b, some i =>
    (a.heap.get? (a.word address b) (a.word address i)).map fun v => .goto (a.stepPut d v)
  | .setIndex, some b, some i, some o =>
    (a.heap.set? (a.word address b) (a.word address i) (a.word address o)).map fun heap =>
      .goto { a.step with heap }
  | .array, some d, n, _ => if Operand.isLength n a.args.length then some (.build d a.args) else none
  | .arg, _, some o, n =>
    if Operand.isLength n a.args.length then
      some (.goto { a.step with args := a.args ++ [a.word address o] })
    else none
  | .call, d, some (.func name), n =>
    if Operand.isLength n a.args.length then some (.call name a.args d) else none
  | .label, _, _, _ => some (.goto a.step)
  | .jump, some (.label name), _, _ =>
    (f.labelIndex? name).map fun i => .goto { a with index := i }
  | .jumpIfFalse, some (.label name), some o, _ =>
    if a.word address o = 0 then (f.labelIndex? name).map fun i => .goto { a with index := i }
    else some (.goto a.step)
  | .ret, _, o, _ => some (.ret (o.map (a.word address)))
  | .exit, _, some o, _ => some (.halt (.exited (a.word address o)))
  | .exit, _, none, _ => some (.halt (.exited 0))
  | _, _, _, _ => none

end Activation

/-- Gives the parameters of a function their arguments, over whatever its places hold. -/
def bindArgs (junk : Store) : List Param → List Word → Store
  | p :: ps, v :: vs => (bindArgs junk ps vs).put? p.operand v
  | _, _ => junk

/-- A function about to execute its first instruction. -/
def Func.start (f : Func) (args : List Word) (junk : Store) (heap : Heap) : Activation :=
  { index := 0, store := bindArgs junk f.params args, args := [], heap, arrays := [] }

/-- The runs of a function of a program, with the arrays that exist afterwards. -/
inductive Run (address : Bytes → Word) (frees : Func → Nat → Bool) (p : Program) :
    Func → Activation → Outcome → Heap → Prop where
  | goto {f : Func} {a a' : Activation} {o : Outcome} {heap : Heap}
      (hnext : a.next? address f = some (.goto a')) (hrest : Run address frees p f a' o heap) :
      Run address frees p f a o heap
  | build {f : Func} {a : Activation} {d : Operand} {elems : List Word} {o : Outcome} {heap : Heap}
      (base : Word) (hnext : a.next? address f = some (.build d elems)) (hfresh : a.heap base = none)
      (hrest : Run address frees p f (a.stepBuild d base elems) o heap) : Run address frees p f a o heap
  | ret {f : Func} {a : Activation} {given : Option Word} (v : Word)
      (hnext : a.next? address f = some (.ret given)) (hv : ∀ w, given = some w → v = w) :
      Run address frees p f a (.returned v) (a.heap.free a.arrays)
  | halt {f : Func} {a : Activation} {o : Outcome} (hnext : a.next? address f = some (.halt o)) :
      Run address frees p f a o a.heap
  | stuck {f : Func} {a : Activation} (hnext : a.next? address f = none) :
      Run address frees p f a .stuck a.heap
  | call {f g : Func} {a : Activation} {name : String} {args : List Word} {dst : Option Operand}
      {v : Word} {heap : Heap} {o : Outcome} {heap' : Heap} (junk : Store)
      (hnext : a.next? address f = some (.call name args dst)) (hfunc : p.func? name = some g)
      (hcode : g.isExternal = false) (hlength : args.length = g.params.length)
      (hcallee : Run address frees p g (g.start args junk (a.release (frees f a.index)).heap)
        (.returned v) heap)
      (hrest : Run address frees p f ((a.release (frees f a.index)).resume dst v heap) o heap') :
      Run address frees p f a o heap'
  | callHalt {f g : Func} {a : Activation} {name : String} {args : List Word} {dst : Option Operand}
      {o : Outcome} {heap : Heap} (junk : Store) (hnext : a.next? address f = some (.call name args dst))
      (hfunc : p.func? name = some g) (hcode : g.isExternal = false)
      (hlength : args.length = g.params.length) (hhalt : o.isHalt = true)
      (hcallee : Run address frees p g (g.start args junk (a.release (frees f a.index)).heap) o heap) :
      Run address frees p f a o heap

/-- A function of a program, called with some arguments where no arrays exist, can end in an
    outcome if the calls at which `frees` holds end the arrays of their callers. -/
def Program.CanEndFreeing (address : Bytes → Word) (frees : Func → Nat → Bool) (p : Program) (f : Func)
    (args : List Word) (o : Outcome) : Prop :=
  ∃ junk heap, Run address frees p f (f.start args junk .empty) o heap

/-- A function of a program can end in an outcome if all arrays last until the function that built
    them returns. -/
def Program.CanEnd (address : Bytes → Word) (p : Program) (f : Func) (args : List Word)
    (o : Outcome) : Prop :=
  p.CanEndFreeing address (fun _ _ => false) f args o

end TreeCompiler.Code
