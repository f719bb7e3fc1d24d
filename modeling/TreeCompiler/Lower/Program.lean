import TreeCompiler.Lower.Expr

namespace TreeCompiler.Lower

open TreeCompiler.Tree (Expr Header)

/-- Declares parameters in order and gives their variables. -/
def lowerParams : List Tree.Param → LowerM (List Code.Param)
  | [] => pure []
  | p :: rest => do
    let storage ← LowerM.within .param (LowerM.declare p.name (lowerTy p.ty))
    return ⟨some (.var storage), lowerTy p.ty⟩ :: (← lowerParams rest)

/-- Lowers a function. -/
def lowerFunc (sigs : Signatures) (h : Header) (body : Expr) : LowerM Code.Func := do
  LowerM.enter
  let params ← lowerParams h.params
  let code ←
    if h.isExternal then pure []
    else if body.isMissing then LowerM.fail .noBody
    else do
      let result ← LowerM.within .body (lowerExpr sigs body)
      .emit .ret none (some (.temp result)) none
      pure (← get).code.toList
  LowerM.within .paramsScope LowerM.leave
  return { name := h.name, params, code, ret := lowerTy h.ret, isPublic := h.isPublic,
           isExternal := h.isExternal }

/-- The headers of the functions among the items of a program. -/
def collect (sigs : Signatures) : List Expr → Except Error Signatures
  | [] => .ok sigs
  | .func h _ :: rest =>
    if (sigs.lookup h.name).isSome then .error (.bare (.duplicateFunc h.name))
    else collect ((h.name, h) :: sigs) rest
  | _ :: rest => collect sigs rest

/-- What lowering has produced so far: functions, pooled literals, and the functions
    that may be called. -/
structure Session where
  funcs : Array Code.Func := #[]
  pool : Array Code.Const := #[]
  sigs : Signatures := []

namespace Session

/-- Lowers one item of a program, the one at `index`. -/
def item (s : Session) (index : Nat) : Expr → Except Error Session
  | .func h body => do
    let (f, c) ← Located.within (.func h.name) (lowerFunc s.sigs h body { pool := s.pool })
    return { s with funcs := s.funcs.push f, pool := c.pool }
  | .literal l =>
    match const? l with
    | some k => .ok { s with pool := s.pool.push k }
    | none => .error (Located.under (.item index) (.bare (.globalKind l.kind)))
  | e => .error (.bare (.topLevel index e.className))

/-- Lowers the items of a program in order, counted from `index`. -/
def items (s : Session) (index : Nat) : List Expr → Except Error Unit × Session
  | [] => (.ok (), s)
  | e :: rest =>
    match s.item index e with
    | .ok s => s.items (index + 1) rest
    | .error e => (.error e, s)

/-- Lowers a program. -/
def compile (s : Session) (p : Tree.Program) : Except Error Code.Program × Session :=
  match collect [] p.body with
  | .error e => (.error e, { s with funcs := #[], pool := #[], sigs := [] })
  | .ok sigs =>
    match Session.items { s with funcs := #[], pool := #[], sigs } 0 p.body with
    | (.error e, s) => (.error e, s)
    | (.ok (), s) => (.ok { consts := s.pool.toList, funcs := s.funcs.toList }, s)

/-- Lowers programs one after another. -/
def compileAll (s : Session) : List Tree.Program → List (Except Error Code.Program)
  | [] => []
  | p :: rest => (s.compile p).1 :: (s.compile p).2.compileAll rest

end Session

/-- Lowers a program in a fresh session. -/
def lowerProgram (p : Tree.Program) : Except Error Code.Program :=
  (Session.compile {} p).1

end TreeCompiler.Lower
