import TreeCompiler.Proofs.Lower.Congruence
import TreeCompiler.Proofs.Lower.Scoping
import TreeCompiler.Proofs.Tree.Decoding
import TreeCompiler.Proofs.Tree.Spelling

/-!
Why lowering fails. Trees that were decoded have the shape that printing and lowering ask for: they
are printed, and if they are not lowered it is not because something is missing in them.
-/

namespace TreeCompiler.Lower

open Code
open TreeCompiler.Tree (Expr Literal Header WellFormedAll wellFormedAll_of_ofNode)

/-- A computation fails for some causes only. -/
def LowerM.Fails {α : Type} (m : LowerM α) (P : Cause → Prop) : Prop :=
  ∀ c err, m c = .error err → P err.cause

namespace LowerM.Fails

variable {α β : Type} {m : LowerM α} {P : Cause → Prop}

theorem bind {f : α → LowerM β} (hm : m.Fails P) (hf : ∀ a, (f a).Fails P) : (m >>= f).Fails P := by
  intro c err hrun
  rcases bind_eq_error_iff.mp hrun with hma | ⟨⟨a, c₁⟩, _, hfa⟩
  · exact hm c err hma
  · exact hf a c₁ err hfa

theorem within {place : Place} (hm : m.Fails P) : (LowerM.within place m).Fails P := by
  intro c err hrun
  obtain ⟨err', hrun', rfl⟩ := mapError_eq_error_iff.mp hrun
  exact hm c err' hrun'

theorem fail {cause : Cause} (hcause : P cause) : (LowerM.fail cause : LowerM α).Fails P := by
  intro c err hrun
  cases hrun
  exact hcause

theorem pure {a : α} : (Pure.pure a : LowerM α).Fails P := nofun

theorem get : (MonadState.get : LowerM Context).Fails P := nofun

theorem temp {ty : Code.Ty} : (LowerM.temp ty).Fails P := nofun

theorem label : LowerM.label.Fails P := nofun

theorem emit {op : Op} {dst src1 src2 : Option Operand} : (LowerM.emit op dst src1 src2).Fails P := nofun

theorem pool {k : Const} : (LowerM.pool k).Fails P := nofun

theorem enter : LowerM.enter.Fails P := nofun

section Scopes

variable (hscope : ∀ e, P (.scope e))
include hscope

theorem leave : LowerM.leave.Fails P := by
  intro c err hrun
  unfold LowerM.leave at hrun
  split at hrun <;> cases hrun
  exact hscope _

theorem declare {name : String} {ty : Code.Ty} : (LowerM.declare name ty).Fails P := by
  intro c err hrun
  unfold LowerM.declare at hrun
  split at hrun <;> cases hrun
  exact hscope _

theorem lookup {name : String} : (LowerM.lookup name).Fails P := by
  intro c err hrun
  unfold LowerM.lookup at hrun
  split at hrun <;> cases hrun
  exact hscope _

end Scopes

end LowerM.Fails

open LowerM (Fails)

/-- A computation fails for other reasons than the shape of the tree. -/
abbrev LowerM.Fits {α : Type} (m : LowerM α) : Prop :=
  m.Fails fun cause => cause.isMalformed = false

theorem isMalformed_scope (e : ScopeTable.Error) : (Cause.scope e).isMalformed = false := rfl

/-- Whatever is asked of failures only is kept by all steps of lowering. -/
theorem LowerM.Fits.congruence : LowerM.Congruence id fun _ m _ => m.Fits where
  pure _ := .pure
  bind := .bind
  within hm := .within hm
  fail hcause _ := .fail hcause
  temp _ := .temp
  label := .label
  pool _ := .pool
  enter := .enter
  leave := .leave isMalformed_scope
  emit _ := .emit
  load _ := (Fails.lookup isMalformed_scope).bind fun _ => Fails.temp.bind fun _ => Fails.emit.bind fun _ => .pure
  store _ _ := (Fails.lookup isMalformed_scope).bind fun _ => .emit
  define _ _ _ := (Fails.declare isMalformed_scope).bind fun _ => .emit

/-- Lowering takes a well-formed expression for what it is, wherever something is left out in it. -/
theorem lowerExpr_fits (sigs : Signatures) {x : Expr} (hx : x.WellFormed) : (lowerExpr sigs x).Fits := by
  have hfollowed : Followed (fun _ m _ => m.Fits) sigs sigs x.WellFormed x.nodes := by
    refine ⟨.inr hx, fun name args h _ hheader => ?_⟩
    rw [hheader]
    exact ⟨rfl, rfl⟩
  exact lowerExpr_related LowerM.Fits.congruence x hfollowed

theorem lowerParams_fits (ps : List Tree.Param) : (lowerParams ps).Fits := by
  induction ps with
  | nil => exact .pure
  | cons p ps ih =>
    exact (Fails.declare isMalformed_scope).within.bind fun storage => ih.bind fun qs => .pure

theorem lowerFunc_fits (sigs : Signatures) {h : Header} {body : Expr} (hfunc : (Expr.func h body).WellFormed) :
    (lowerFunc sigs h body).Fits := by
  obtain ⟨_, hbody⟩ := hfunc
  have hleave : ∀ code params, LowerM.Fits (do
      LowerM.within .paramsScope LowerM.leave
      return ({ name := h.name, params, code, ret := lowerTy h.ret, isPublic := h.isPublic,
                isExternal := h.isExternal } : Code.Func)) :=
    fun code params => (Fails.leave isMalformed_scope).within.bind fun _ => .pure
  refine Fails.enter.bind fun _ => (lowerParams_fits h.params).bind fun params => ?_
  split at hbody
  · next hexternal =>
    rw [if_pos hexternal]
    exact Fails.pure.bind fun code => hleave code params
  · next hinternal =>
    rw [if_neg hinternal, if_neg (by simp [hbody.isMissing])]
    exact (lowerExpr_fits sigs hbody).within.bind fun result => Fails.emit.bind fun _ => Fails.get.bind fun c =>
      Fails.pure.bind fun code => hleave code params

namespace Session

theorem item_fits {s : Session} {index : Nat} {x : Expr} {err : Error} (hx : x.WellFormed)
    (hitem : s.item index x = .error err) : err.cause.isMalformed = false := by
  cases x with
  | func h body =>
    rcases bind_eq_error_iff.mp hitem with hfunc | ⟨r, _, hpure⟩
    · obtain ⟨err', hfunc', rfl⟩ := mapError_eq_error_iff.mp hfunc
      exact lowerFunc_fits s.sigs hx _ err' hfunc'
    · cases hpure
  | literal l =>
    cases l with
    | unknown kind => cases hx
    | void =>
      cases hitem
      rfl
    | _ => cases hitem
  | missing => cases hx.isMissing
  | _ =>
    cases hitem
    simp [Cause.isMalformed, Located.bare, Expr.className]

end Session

/-- Programs of well-formed items fail to be lowered for other reasons than their shape. -/
theorem lowerProgram_fits {prog : Tree.Program} {err : Error} (hprog : WellFormedAll prog.body)
    (hlower : lowerProgram prog = .error err) : err.cause.isMalformed = false := by
  rcases lowerProgram_error hlower with ⟨name, rfl⟩ | ⟨s, index, x, hx, hitem⟩
  · rfl
  · exact Session.item_fits (Tree.mem_wellFormedAll hprog hx) hitem

/-- An expression that omits something is lowered if its parts are. -/
theorem lowerExpr_omits (sigs : Signatures) {x : Expr} {parts : List Expr} (homits : x.Omits parts)
    (hfunc : ∀ h body, x ≠ .func h body) : (lowerExpr sigs x).Fails fun cause =>
      ∃ y ∈ parts, ∃ c err, lowerExpr sigs y c = .error err ∧ err.cause = cause := by
  have hpart : ∀ y ∈ parts, (lowerExpr sigs y).Fails fun cause =>
      ∃ y ∈ parts, ∃ c err, lowerExpr sigs y c = .error err ∧ err.cause = cause :=
    fun y hy c err hrun => ⟨y, hy, c, err, hrun, rfl⟩
  cases homits with
  | ret =>
    rw [lowerExpr]
    exact Fails.temp.bind fun v => Fails.emit.bind fun _ => .temp
  | exit =>
    rw [lowerExpr]
    exact Fails.emit.bind fun _ => .temp
  | cond test yes =>
    rw [lowerExpr]
    exact (hpart test (by simp)).within.bind fun t => Fails.label.bind fun otherwise => Fails.emit.bind fun _ =>
      (hpart yes (by simp)).within.bind fun _ => Fails.emit.bind fun _ => .temp
  | func => exact absurd rfl (hfunc _ _)

/-- External functions are lowered without a body, unless two of their parameters share a name. -/
theorem lowerFunc_external (sigs : Signatures) {h : Header} (hexternal : h.isExternal = true) (pool : Array Const) :
    (∃ r, lowerFunc sigs h .missing { pool } = .ok r) ↔ (h.params.map (·.name)).Nodup := by
  rw [(lowerFunc_accepts sigs h .missing).succeeds { pool } rfl]
  simp [FuncScoped, hexternal]

/-- What was decoded is printed, and fails to be lowered for other reasons than its shape. -/
theorem decoded_printed_and_fits {root : Yaml.Node} {p : Tree.Program} (hread : Tree.Program.ofNode root = .ok p) :
    (∃ text, p.source = .ok text) ∧
      (∀ err, lowerProgram p = .error err → err.cause.isMalformed = false) ∧
        (.missing ∉ p.body ∧ ∀ x ∈ Tree.nodesAll p.body, .missing ∈ x.children →
          ∃ parts, x.Omits parts) ∧
          (∀ (x : Expr) parts, x.Omits parts → ∀ depth, (∀ y ∈ parts, ∃ s, y.sourceAt depth = .ok s) →
            ∃ s, x.sourceAt depth = .ok s) ∧
            (∀ sigs (x : Expr) parts, x.Omits parts → (∀ h body, x ≠ .func h body) →
              (lowerExpr sigs x).Fails fun cause =>
              ∃ y ∈ parts, ∃ c err, lowerExpr sigs y c = .error err ∧ err.cause = cause) ∧
              ∀ sigs (h : Header) pool, h.isExternal = true →
                ((∃ r, lowerFunc sigs h .missing { pool } = .ok r) ↔ (h.params.map (·.name)).Nodup) := by
  have hwell := wellFormedAll_of_ofNode hread
  refine ⟨⟨_, Tree.Program.source_eq hwell⟩, fun err => lowerProgram_fits hwell, ⟨fun hmem => ?_, ?_⟩,
    fun x parts homits depth => homits.exists_source, fun sigs x parts => lowerExpr_omits sigs,
    fun sigs h pool hexternal => lowerFunc_external sigs hexternal pool⟩
  · exact (Tree.mem_wellFormedAll hwell hmem).ne_missing rfl
  · intro x hx hlacks
    obtain ⟨y, hy, hx⟩ := Tree.mem_nodesAll_iff.mp hx
    have hnode := (Tree.mem_wellFormedAll hwell hy).of_mem_nodes hx
    rcases hnode.child hlacks with hmissing | ⟨_, homits⟩
    · exact absurd rfl hmissing.ne_missing
    · exact homits

/-- A program that lacks something in all four places. -/
theorem sparse_printed_and_fits :
    let body : Expr := .block [.cond (.literal (.bool true)) (.ret .missing) .missing, .exit .missing, .call "h" []]
    let p : Tree.Program := ⟨[.func ⟨"g", [], .void, false, true⟩ .missing,
        .func ⟨"f", [], .void, true, false⟩ body]⟩
    Tree.Program.ofNode (.sequence 1 (Tree.toNodes 1 p.body)) = .ok p ∧ (∃ text, p.source = .ok text) ∧
      ∃ err, lowerProgram p = .error err ∧ err.cause.isMalformed = false := by
  intro body p
  have hwell : WellFormedAll p.body := by
    simp [p, body, Expr.WellFormed, WellFormedAll, Header.WellFormed, Literal.WellFormed, Tree.Ty.all, Expr.isMissing]
  have hread : Tree.Program.ofNode (.sequence 1 (Tree.toNodes 1 p.body)) = .ok p := by
    rw [Tree.Program.ofNode, Expr.ofNodes_toNodes 1 p.body hwell]
    rfl
  obtain ⟨hsource, hlower, _⟩ := decoded_printed_and_fits hread
  refine ⟨hread, hsource, ?_⟩
  cases hrun : lowerProgram p with
  | error err => exact ⟨err, rfl, hlower err hrun⟩
  | ok q =>
    have hnone : (lowerProgram p).toOption.isNone = true := by decide +kernel
    rw [hrun] at hnone
    cases hnone

end TreeCompiler.Lower
