import TreeCompiler.Proofs.Code.Meaning
import TreeCompiler.Tree.Basic

namespace TreeCompiler.Tree

open Code

/-- How the call of a function ends: with a value, which may be missing, or with the end of the
    whole program. -/
inductive Ending where
  | returned (v : Option Word)
  | exited (code : Word)
  deriving DecidableEq, Repr

/-- What the variables of each open scope hold, innermost scope first. -/
abbrev Env := List (String → Option Word)

/-- Gives a variable of a scope a value. -/
def assignIn (frame : String → Option Word) (name : String) (w : Word) : String → Option Word :=
  fun x => if x = name then some w else frame x

namespace Env

/-- The value of the innermost variable of a name. -/
def get? : Env → String → Option Word
  | [], _ => none
  | frame :: outer, name => (frame name).or (get? outer name)

/-- Gives the innermost variable of a name a value. -/
def set? : Env → String → Word → Option Env
  | [], _, _ => none
  | frame :: outer, name, w =>
    if (frame name).isSome then some (assignIn frame name w :: outer)
    else (set? outer name w).map (frame :: ·)

/-- Gives the variable of a name in the innermost scope a value. -/
def bind? : Env → String → Word → Option Env
  | frame :: outer, name, w => some (assignIn frame name w :: outer)
  | [], _, _ => none

end Env

/-- The value of a binary operator that uses both operands. -/
def binaryValue? (op : String) (a b : Word) : Option Word :=
  if op = "+" then some (a + b)
  else if op = "-" then some (a - b)
  else if op = "*" then some (a * b)
  else if op = "/" then if divides a b then some (a.sdiv b) else none
  else if op = "%" then if divides a b then some (a.srem b) else none
  else if op = "&" then some (a &&& b)
  else if op = "|" then some (a ||| b)
  else if op = "^" then some (a ^^^ b)
  else if op = "<<" then some (a <<< (b.toNat % 64))
  else if op = ">>" then some (a.sshiftRight (b.toNat % 64))
  else if op = "==" then some (truth (a = b))
  else if op = "!=" then some (truth (a ≠ b))
  else if op = ">" then some (truth (b.slt a))
  else if op = ">=" then some (truth (b.sle a))
  else if op = "<" then some (truth (a.slt b))
  else if op = "<=" then some (truth (a.sle b))
  else none

/-- The value of a unary operator. -/
def unaryValue? (op : String) (a : Word) : Option Word :=
  if op = "-" then some (-a)
  else if op = "!" then some (truth (a = 0))
  else if op = "++" then some (a + 1)
  else if op = "--" then some (a - 1)
  else none

/-- Evaluation changes variables and may end the running call. -/
abbrev EvalM := StateT Env (ExceptT Ending Option)

namespace EvalM

/-- What an evaluation gives where variables hold some values. -/
def run? {α : Type} (m : EvalM α) (ρ : Env) : Option (Except Ending (α × Env)) :=
  m ρ

/-- There is no result. -/
def stuck {α : Type} : EvalM α :=
  fun _ => none

/-- A result that may be missing. -/
def ofOption {α : Type} : Option α → EvalM α
  | some a => pure a
  | none => stuck

/-- Ends the running call. -/
def finish {α : Type} (e : Ending) : EvalM α :=
  fun _ => some (.error e)

/-- The value of an evaluation that must have one. -/
def word (m : EvalM (Option Word)) : EvalM Word := do
  ofOption (← m)

/-- Changes the variables. -/
def update (f : Env → Option Env) : EvalM Unit :=
  fun ρ => (f ρ).map fun ρ => .ok ((), ρ)

/-- The value of a variable. -/
def lookup (name : String) : EvalM Word :=
  fun ρ => (ρ.get? name).map fun w => .ok (w, ρ)

/-- Goes on with what a call returned. -/
def ofCall : Option Ending → EvalM (Option Word)
  | some (.returned v) => pure v
  | some (.exited code) => finish (.exited code)
  | none => stuck

/-- Evaluates in a scope of its own. -/
def inScope {α : Type} (m : EvalM α) : EvalM α := do
  update fun ρ => some ((fun _ => none) :: ρ)
  let a ← m
  update fun ρ => some ρ.tail
  return a

/-- A sequence ends the call where its first part does, or goes on as its second part does. -/
theorem run?_bind_eq_some_iff {α β : Type} {m : EvalM α} {k : α → EvalM β} {ρ : Env}
    {r : Except Ending (β × Env)} :
    (m >>= k).run? ρ = some r ↔ (∃ e, m.run? ρ = some (.error e) ∧ r = .error e) ∨
      ∃ x ρ', m.run? ρ = some (.ok (x, ρ')) ∧ (k x).run? ρ' = some r := by
  change (m.run? ρ).bind (ExceptT.bindCont fun x : α × Env => k x.1 x.2) = some r ↔ _
  rcases m.run? ρ with _ | e | ⟨x, ρ'⟩
  · simp
  · change some (.error e) = some r ↔ _
    simp [eq_comm]
  · change (k x).run? ρ' = some r ↔ _
    constructor
    · exact fun hk => .inr ⟨x, ρ', rfl, hk⟩
    · rintro (⟨e, he, _⟩ | ⟨x', ρ'', hx, hk⟩)
      · cases he
      · cases hx
        exact hk

end EvalM

/-- Gives the operand of an operator that counts up or down its new value, if it is a variable. -/
def storeBack (op : String) (arg : Expr) (w : Word) : EvalM Unit :=
  match arg with
  | .var name => if op = "++" ∨ op = "--" then EvalM.update (·.set? name w) else pure ()
  | _ => pure ()

/-- The function of a program with a name. -/
def Program.func? (p : Program) (name : String) : Option (Header × Expr) :=
  p.body.findSome? fun
    | .func h body => if h.name = name then some (h, body) else none
    | _ => none

mutual

/-- Evaluates an expression to a value or none, in a number of steps that bounds its depth. -/
def eval (p : Program) : Nat → Expr → EvalM (Option Word)
  | 0, _ => .stuck
  | n + 1, e =>
    match e with
    | .literal (.number v) => pure (some v.toBitVec)
    | .literal (.bool b) => pure (some (truth b))
    | .var name => do return some (← EvalM.lookup name)
    | .define name _ value => do
      let w ← EvalM.word (eval p n value)
      EvalM.update (·.bind? name w)
      return none
    | .assign name value => do
      let w ← EvalM.word (eval p n value)
      EvalM.update (·.set? name w)
      return none
    | .binary op left right => do
      let a ← EvalM.word (eval p n left)
      -- The right side is not evaluated where the left one decides.
      if op = "&&" ∧ a = 0 then return some 0
      else if op = "||" ∧ a ≠ 0 then return some 1
      else
        let b ← EvalM.word (eval p n right)
        if op = "&&" ∨ op = "||" then return some (truth (b ≠ 0))
        else return some (← EvalM.ofOption (binaryValue? op a b))
    | .unary op arg => do
      let a ← EvalM.word (eval p n arg)
      let w ← EvalM.ofOption (unaryValue? op a)
      storeBack op arg w
      return some w
    | .cond test yes no => do
      let a ← EvalM.word (eval p n test)
      if a ≠ 0 then
        let v ← eval p n yes
        return if no.isMissing then none else v
      else if no.isMissing then return none
      else eval p n no
    | .loop test body => do
      let a ← EvalM.word (eval p n test)
      if a = 0 then return none
      else
        let _ ← eval p n body
        eval p n (.loop test body)
    | .block body => EvalM.inScope (evalStmts p n none body)
    | .call name args => do
      let ws ← evalItems p n args
      EvalM.ofCall (run p n name ws)
    | .ret value =>
      if value.isMissing then EvalM.finish (.returned none)
      else do EvalM.finish (.returned (← eval p n value))
    | .exit code =>
      if code.isMissing then EvalM.finish (.exited 0)
      else do EvalM.finish (.exited (← EvalM.word (eval p n code)))
    | _ => .stuck

/-- Evaluates the statements of a block to the value of the last one. -/
def evalStmts (p : Program) : Nat → Option Word → List Expr → EvalM (Option Word)
  | 0, _, _ => .stuck
  | _ + 1, last, [] => pure last
  | n + 1, _, e :: rest => do
    let v ← eval p n e
    evalStmts p n v rest

/-- Evaluates arguments to their values. -/
def evalItems (p : Program) : Nat → List Expr → EvalM (List Word)
  | 0, _ => .stuck
  | _ + 1, [] => pure []
  | n + 1, e :: rest => do
    let w ← EvalM.word (eval p n e)
    return w :: (← evalItems p n rest)

/-- Runs a function of the program on arguments. -/
def run (p : Program) : Nat → String → List Word → Option Ending
  | 0, _, _ => none
  | n + 1, name, args =>
    match p.func? name with
    | some (h, body) =>
      if h.isExternal ∨ args.length ≠ h.params.length then none
      else
        let params := h.params.map (·.name)
        match (eval p n body).run? [fun x => (params.zip args).lookup x] with
        | some (.ok (v, _)) => some (.returned v)
        | some (.error e) => some e
        | none => none
    | none => none

end

theorem eval_zero (p : Program) (e : Expr) : eval p 0 e = .stuck := by
  rw [eval]

end TreeCompiler.Tree
