import TreeCompiler.Asm.Gen

namespace TreeCompiler.Asm

open Code (Operand Instr)

/-- Where a stack argument stands above the base of the callee's frame. -/
def stackArg (index : Nat) : Int :=
  16 + 8 * ((index : Int) - 6)

/-- Whether the value of an operand reaches a return unchanged from a position on. -/
def flowsToReturn (site : Site) : Nat → Nat → Option Operand → Bool
  | 0, _, _ => false
  | steps + 1, position, result =>
    match site.func.code[position]? with
    | none => false
    | some x =>
      match x.op with
      | .nop | .label => flowsToReturn site steps (position + 1) result
      | .move | .load | .store =>
        if result.isNone ∨ x.src1 ≠ result then false
        else flowsToReturn site steps (position + 1) x.dst
      | .jump =>
        match x.dst with
        | some (.label name) =>
          match site.labels.lookup name with
          | some target => flowsToReturn site steps target result
          | none => false
        | _ => false
      | .ret => x.src1.isNone ∨ x.src1 = result
      | _ => false

/-- Whether the call at an index is the last thing its function does. -/
def isTailCall (site : Site) (index : Nat) (result : Option Operand) : Bool :=
  flowsToReturn site (site.func.code.length + 1) (index + 1) result

/-- Brings arguments into the argument registers, counted from `index`. -/
def loadRegArgs (site : Site) (index : Nat) :
    List (Option Operand) → List Reg → GenM (List Insn)
  | a :: as, r :: rs => do
    let code ← GenM.within (.arg index) (load site a r)
    return code ++ (← loadRegArgs site (index + 1) as rs)
  | _, _ => pure []

/-- Pushes stack arguments, the last one first. -/
def pushArgs (site : Site) : List (Nat × Option Operand) → GenM (List Insn)
  | [] => pure []
  | (index, a) :: rest => do
    let code ← GenM.within (.arg index) (load site a .rax)
    return code ++ [.push (.tracked .rax)] ++ (← pushArgs site rest)

/-- Writes stack arguments over those of the running call. -/
def overwriteArgs (site : Site) : List (Nat × Option Operand) → GenM (List Insn)
  | [] => pure []
  | (index, a) :: rest => do
    let code ← GenM.within (.arg index) (load site a .rax)
    return code ++ [.store (.frame (stackArg index)) .rax] ++ (← overwriteArgs site rest)

/-- The arguments that do not fit the argument registers, with their indices. -/
def stackArgs (args : List (Option Operand)) : List (Nat × Option Operand) :=
  (args.drop 6).mapIdx fun i a => (i + 6, a)

/-- Restarts the running function with other arguments. -/
def tailJump (site : Site) (args : List (Option Operand)) : GenM (List Insn) :=
  if args.length ≠ site.func.params.length then
    .fail (.selfCall args.length site.func.params.length)
  else do
    let onStack ← overwriteArgs site (stackArgs args)
    let inRegs ← loadRegArgs site 0 args Reg.args
    GenM.forget
    return onStack ++ inRegs ++ [.jump "entry"]

/-- Calls a function. -/
def plainCall (site : Site) (name : String) (args : List (Option Operand))
    (dst : Option Operand) : GenM (List Insn) := do
  let onStack := stackArgs args
  let pad := 8 * (onStack.length % 2)
  let pushes ← pushArgs site onStack.reverse
  let inRegs ← loadRegArgs site 0 args Reg.args
  GenM.forget
  let bytes := 8 * onStack.length + pad
  let before : List Insn := if pad = 0 then [] else [.grow pad]
  let after : List Insn := if bytes = 0 then [] else [.shrink bytes]
  let keep ← if dst.isNone then pure [] else store site dst .rax
  return before ++ pushes ++ inRegs ++ [.call name] ++ after ++ keep

/-- Whether the instruction after a call only returns the call's result. -/
def returnsNext (site : Site) (index : Nat) (result : Option Operand) : Bool :=
  match site.func.code[index + 1]? with
  | some x => x.op = .ret ∧ x.src1 = result
  | none => false

/-- Compiles a call and tells whether the next instruction is covered by it. -/
def genCall (site : Site) (index : Nat) (x : Instr) : GenM (List Insn × Bool) :=
  match x.src1 with
  | some (.func name) => do
    let pending := (← get).pending.size
    if Operand.isLength x.src2 pending then
      let args ← GenM.takePending
      if name = site.func.name ∧ isTailCall site index x.dst then
        return (← tailJump site args, returnsNext site index x.dst)
      else
        return (← plainCall site name args x.dst, false)
    else .fail (.argCount name x.src2 pending)
  | o => .fail (.callee o)

end TreeCompiler.Asm
