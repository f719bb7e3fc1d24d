import TreeCompiler.Proofs.Code.Renaming
import TreeCompiler.Proofs.Lower.Steps
import TreeCompiler.Proofs.Tree.Nodes
import TreeCompiler.Proofs.Tree.Rendition
import TreeCompiler.Proofs.Tree.Renaming

/-!
What all steps of lowering keep, lowering keeps. The expression is followed once, for any relation
between computations: that both agree, that one does what the other one does under other names, or
what the one fails for.
-/

namespace TreeCompiler.Lower

open Code
open TreeCompiler.Tree (Expr Literal Header WellFormedAll nodesAll renameAll)

/-- Whether a failure is about the shape of the tree: something is missing in it, or it has a literal
    of no known kind. -/
def Cause.isMalformed : Cause → Bool
  | .missingExpr => true
  | .noBody => true
  | .literalKind _ => true
  | .globalKind kind => kind ≠ Literal.void.kind
  | .topLevel _ className => className = Expr.missing.className
  | _ => false

/-- Puts the value of a variable into a temporary. -/
def loadVar (name : String) : LowerM Temp := do
  let s ← LowerM.lookup name
  let t ← LowerM.temp s.ty
  .emit .load (some (.temp t)) (some (.var s.storage)) none
  return t

/-- Gives a variable the value of a temporary. -/
def storeVar (name : String) (v : Temp) : LowerM Unit := do
  let s ← LowerM.lookup name
  .emit .store (some (.var s.storage)) (some (.temp v)) none

/-- Declares a variable with the value of a temporary. -/
def defineVar (name : String) (ty : Code.Ty) (v : Temp) : LowerM Unit := do
  let storage ← LowerM.declare name ty
  .emit .store (some (.var storage)) (some (.temp v)) none

/-- The steps of lowering keep a relation between computations, where variables have the names that
    `r` gives them on the right side. -/
structure LowerM.Congruence (r : String → String) (R : (α : Type) → LowerM α → LowerM α → Prop) : Prop where
  pure {α : Type} (a : α) : R α (Pure.pure a) (Pure.pure a)
  bind {α β : Type} {m m' : LowerM α} {k k' : α → LowerM β} (hm : R α m m') (hk : ∀ a, R β (k a) (k' a)) :
    R β (m >>= k) (m' >>= k')
  within {α : Type} {m m' : LowerM α} {place place' : Place} (hm : R α m m') :
    R α (LowerM.within place m) (LowerM.within place' m')
  fail {cause : Cause} (hcause : cause.isMalformed = false) (m' : LowerM Temp) : R Temp (LowerM.fail cause) m'
  temp (ty : Code.Ty) : R Temp (LowerM.temp ty) (LowerM.temp ty)
  label : R String LowerM.label LowerM.label
  pool (k : Const) : R Unit (LowerM.pool k) (LowerM.pool k)
  enter : R Unit LowerM.enter LowerM.enter
  leave : R Unit LowerM.leave LowerM.leave
  emit {op : Op} {dst src1 src2 : Option Operand}
    (hx : ∀ φ, (⟨op, dst, src1, src2⟩ : Instr).rename φ = ⟨op, dst, src1, src2⟩) :
    R Unit (LowerM.emit op dst src1 src2) (LowerM.emit op dst src1 src2)
  load (name : String) : R Temp (loadVar name) (loadVar (r name))
  store (name : String) (v : Temp) : R Unit (storeVar name v) (storeVar (r name) v)
  define (name : String) (ty : Code.Ty) (v : Temp) : R Unit (defineVar name ty v) (defineVar (r name) ty v)

variable {r : String → String} {R : (α : Type) → LowerM α → LowerM α → Prop} {sigs sigs' : Signatures}

/-- Lowering is followed on both sides. -/
structure Followed (R : (α : Type) → LowerM α → LowerM α → Prop) (sigs sigs' : Signatures) (shape : Prop)
    (nodes : List Expr) : Prop where
  shape : (∀ (cause : Cause) (m' : LowerM Temp), R Temp (.fail cause) m') ∨ shape
  calls : ∀ name args h, .call name args ∈ nodes → sigs.lookup name = some h →
    match sigs'.lookup name with
    | some h' => h'.params.length = h.params.length ∧ h'.ret = h.ret
    | none => ∀ m : LowerM Temp, R Temp m (.fail (.undefinedFunc name))

theorem Followed.part {shape shape' : Prop} {xs ys : List Expr} (h : Followed R sigs sigs' shape xs)
    (hshape : shape → shape') (hsub : ∀ y ∈ ys, y ∈ xs := by intro y hy; simp [Expr.nodes, nodesAll, hy]) :
    Followed R sigs sigs' shape' ys :=
  ⟨h.shape.imp_right hshape, fun name args f hmem => h.calls name args f (hsub _ hmem)⟩

theorem updated?_rename (op : Code.UnaryOp) (e : Expr) : updated? op (e.rename r) = (updated? op e).map r := by
  cases op <;> cases e <;> simp [updated?, Expr.rename]

namespace LowerM.Congruence

theorem emitArgs (hR : Congruence r R) (index : Nat) (ts : List Temp) :
    R Unit (emitArgs index ts) (emitArgs index ts) := by
  induction ts generalizing index with
  | nil => exact hR.pure _
  | cons t ts ih => exact hR.bind (hR.emit fun _ => rfl) fun _ => ih (index + 1)

theorem emitting (hR : Congruence r R) {op : Op} {dst src1 src2 : Option Operand} {k k' : LowerM Temp}
    (hk : R Temp k k') (hx : ∀ φ, (⟨op, dst, src1, src2⟩ : Instr).rename φ =
      ⟨op, dst, src1, src2⟩ := by intro; rfl) :
    R Temp (LowerM.emit op dst src1 src2 >>= fun _ => k) (LowerM.emit op dst src1 src2 >>= fun _ => k') :=
  hR.bind (hR.emit hx) fun _ => hk

theorem storing (hR : Congruence r R) (name : String) (v : Temp) {k k' : LowerM Temp} (hk : R Temp k k') :
    R Temp
      (LowerM.lookup name >>= fun s => LowerM.emit .store (some (.var s.storage)) (some (.temp v)) none >>= fun _ => k)
      (LowerM.lookup (r name) >>= fun s =>
        LowerM.emit .store (some (.var s.storage)) (some (.temp v)) none >>= fun _ => k') := by
  simpa only [storeVar, bind_assoc] using hR.bind (hR.store name v) fun _ => hk

end LowerM.Congruence

open LowerM (Congruence)

theorem lowerLiteral_related (hR : Congruence r R) {l : Literal} {nodes : List Expr}
    (h : Followed R sigs sigs' l.WellFormed nodes) :
    R Temp (lowerLiteral l) (lowerLiteral l) := by
  unfold lowerLiteral
  split
  · next k hk =>
    exact hR.bind (hR.temp k.ty) fun t => hR.bind (hR.pool k) fun _ => hR.emitting (hR.pure t)
  · split
    · rcases h.shape with hfail | hl
      · exact hfail _ _
      · cases hl
    · exact hR.temp .void

mutual

/-- An expression is lowered to related computations. -/
theorem lowerExpr_related (hR : Congruence r R) : (e : Expr) → Followed R sigs sigs' e.WellFormed e.nodes →
    R Temp (lowerExpr sigs e) (lowerExpr sigs' (e.rename r))
  | .missing, h => by
    simp only [Expr.rename, lowerExpr]
    rcases h.shape with hfail | hshape
    · exact hfail _ _
    · cases hshape.isMissing
  | .literal l, h => by
    simp only [Expr.rename, lowerExpr]
    exact lowerLiteral_related hR h
  | .define name ty value, h => by
    have hvalue := lowerExpr_related hR value (h.part (·.2.2))
    simp only [Expr.rename, lowerExpr]
    refine hR.bind (hR.within hvalue) fun v => ?_
    simpa only [defineVar, bind_assoc] using hR.bind (hR.define name (lowerTy ty) v) fun _ => hR.temp .void
  | .var name, _ => by
    simp only [Expr.rename, lowerExpr]
    exact hR.load name
  | .block body, h => by
    have hbody := lowerStmts_related hR body (h.part id) 0 none
    simp only [Expr.rename, lowerExpr]
    refine hR.bind hR.enter fun _ => hR.bind hbody fun last => ?_
    cases last with
    | none => exact hR.bind (hR.temp .void) fun t => hR.bind hR.leave fun _ => hR.pure t
    | some t => exact hR.bind (hR.pure t) fun t => hR.bind hR.leave fun _ => hR.pure t
  | .array elems, h => by
    have helems := lowerItems_related hR elems (h.part id) 0
    simp only [Expr.rename, lowerExpr]
    refine hR.bind (hR.within helems) fun ts => hR.bind (hR.emitArgs 0 ts) fun _ => ?_
    exact hR.bind (hR.temp .array) fun t => hR.emitting (hR.pure t)
  | .assign name value, h => by
    have hvalue := lowerExpr_related hR value (h.part (·.2))
    simp only [Expr.rename, lowerExpr]
    exact hR.bind (hR.within hvalue) fun v => hR.storing name v (hR.temp .void)
  | .binary op left right, h => by
    have hleft := lowerExpr_related hR left (h.part (·.2.1))
    have hright := lowerExpr_related hR right (h.part (·.2.2))
    simp only [Expr.rename, lowerExpr]
    split
    · refine hR.bind (hR.temp .bool) fun result => hR.bind hR.label fun done => hR.bind (hR.within hleft) fun l => ?_
      refine hR.emitting ?_
      split
      · exact hR.emitting (hR.bind (hR.within hright) fun t => hR.emitting (hR.emitting (hR.pure _)))
      · refine hR.bind hR.label fun other => hR.emitting (hR.emitting (hR.emitting ?_))
        exact hR.bind (hR.within hright) fun t => hR.emitting (hR.emitting (hR.pure _))
    · split
      · exact hR.fail rfl _
      · next code hcode =>
        refine hR.bind (hR.within hleft) fun l => hR.bind (hR.within hright) fun t => ?_
        exact hR.bind (hR.temp (resultTy code)) fun t => hR.emitting (hR.pure t)
  | .unary op arg, h => by
    have harg := lowerExpr_related hR arg (h.part (·.2))
    simp only [Expr.rename, lowerExpr, updated?_rename]
    split
    · exact hR.fail rfl _
    · next code hcode =>
      refine hR.bind (hR.within harg) fun a => hR.bind (hR.temp (resultTy (.unary code))) fun t => hR.emitting ?_
      cases updated? code arg with
      | none => exact hR.pure t
      | some name => exact hR.storing name t (hR.pure t)
  | .cond test yes no, h => by
    have htest := lowerExpr_related hR test (h.part (·.1))
    have hyes := lowerExpr_related hR yes (h.part (·.2.1))
    simp only [Expr.rename, lowerExpr, Expr.isMissing_rename]
    refine hR.bind (hR.within htest) fun t => hR.bind hR.label fun otherwise => hR.emitting ?_
    split
    · exact hR.bind (hR.within hyes) fun _ => hR.emitting (hR.temp .void)
    · next hpresent =>
      have hno := lowerExpr_related hR no (h.part (·.2.2.resolve_left hpresent))
      refine hR.bind hR.label fun done => hR.bind (hR.within hyes) fun y => hR.bind (hR.temp y.ty) fun result => ?_
      refine hR.emitting (hR.emitting (hR.emitting ?_))
      exact hR.bind (hR.within hno) fun n => hR.emitting (hR.emitting (hR.pure result))
  | .loop test body, h => by
    have htest := lowerExpr_related hR test (h.part (·.1))
    have hbody := lowerExpr_related hR body (h.part (·.2))
    simp only [Expr.rename, lowerExpr]
    refine hR.bind hR.label fun top => hR.bind hR.label fun done => hR.emitting ?_
    refine hR.bind (hR.within htest) fun t => hR.emitting ?_
    exact hR.bind (hR.within hbody) fun _ => hR.emitting (hR.emitting (hR.temp .void))
  | .call name args, h => by
    have hargs := lowerItems_related hR args (h.part (·.2)) 0
    simp only [Expr.rename, lowerExpr]
    cases hheader : sigs.lookup name with
    | none => exact hR.fail rfl _
    | some f =>
      have hsame := h.calls name args f (by simp [Expr.nodes]) hheader
      cases hheader' : sigs'.lookup name with
      | none =>
        rw [hheader'] at hsame
        exact hsame _
      | some f' =>
        rw [hheader'] at hsame
        simp only [hsame.1, hsame.2, Tree.length_renameAll]
        split
        · exact hR.fail rfl _
        · refine hR.bind (hR.within hargs) fun ts => hR.bind (hR.emitArgs 0 ts) fun _ => ?_
          exact hR.bind (hR.temp (lowerTy f.ret)) fun t => hR.emitting (hR.pure t)
  | .ret value, h => by
    simp only [Expr.rename, lowerExpr, Expr.isMissing_rename]
    split
    · exact hR.bind (hR.temp .void) fun v => hR.emitting (hR.temp .void)
    · next hpresent =>
      have hvalue := lowerExpr_related hR value (h.part (·.resolve_left hpresent |>.2))
      exact hR.bind (hR.within hvalue) fun v => hR.emitting (hR.temp .void)
  | .index target position, h => by
    have htarget := lowerExpr_related hR target (h.part (·.1))
    have hposition := lowerExpr_related hR position (h.part (·.2))
    simp only [Expr.rename, lowerExpr]
    refine hR.bind (hR.within htarget) fun a => hR.bind (hR.within hposition) fun i => ?_
    exact hR.bind (hR.temp .number) fun t => hR.emitting (hR.pure t)
  | .setIndex target position value, h => by
    have htarget := lowerExpr_related hR target (h.part (·.1))
    have hposition := lowerExpr_related hR position (h.part (·.2.1))
    have hvalue := lowerExpr_related hR value (h.part (·.2.2))
    simp only [Expr.rename, lowerExpr]
    refine hR.bind (hR.within htarget) fun a => hR.bind (hR.within hposition) fun i => ?_
    exact hR.bind (hR.within hvalue) fun v => hR.emitting (hR.temp .void)
  | .label name, _ | .goto name, _ => by
    simp only [Expr.rename, lowerExpr]
    exact hR.emitting (hR.temp .void)
  | .exit code, h => by
    simp only [Expr.rename, lowerExpr, Expr.isMissing_rename]
    split
    · exact hR.emitting (hR.temp .void)
    · next hpresent =>
      have hcode := lowerExpr_related hR code (h.part (·.resolve_left hpresent |>.2))
      exact hR.bind (hR.within hcode) fun c => hR.emitting (hR.temp .void)
  | .func _ _, _ | .out _, _ | .input _, _ => by
    rw [lowerExpr]
    exact hR.fail rfl _

theorem lowerStmts_related (hR : Congruence r R) : (es : List Expr) →
    Followed R sigs sigs' (WellFormedAll es) (nodesAll es) → (index : Nat) → (last : Option Temp) →
      R (Option Temp) (lowerStmts sigs index last es) (lowerStmts sigs' index last (renameAll r es))
  | [], _, _, last => by
    simp only [renameAll, lowerStmts]
    exact hR.pure last
  | e :: es, h, index, _ => by
    have he := lowerExpr_related hR e (h.part (·.1))
    have hes := lowerStmts_related hR es (h.part (·.2))
    simp only [renameAll, lowerStmts]
    exact hR.bind (hR.within he) fun t => hes (index + 1) (some t)

theorem lowerItems_related (hR : Congruence r R) : (es : List Expr) →
    Followed R sigs sigs' (WellFormedAll es) (nodesAll es) → (index : Nat) →
      R (List Temp) (lowerItems sigs index es) (lowerItems sigs' index (renameAll r es))
  | [], _, _ => by
    simp only [renameAll, lowerItems]
    exact hR.pure []
  | e :: es, h, index => by
    have he := lowerExpr_related hR e (h.part (·.1))
    have hes := lowerItems_related hR es (h.part (·.2))
    simp only [renameAll, lowerItems]
    exact hR.bind (hR.within he) fun t => hR.bind (hes (index + 1)) fun ts => hR.pure _

end

end TreeCompiler.Lower
