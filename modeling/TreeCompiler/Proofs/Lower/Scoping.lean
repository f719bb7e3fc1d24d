import Mathlib.Tactic.Common
import TreeCompiler.Proofs.Lower.Program
import TreeCompiler.Proofs.Lower.Scopes
import TreeCompiler.Proofs.Tree.Scoping

namespace TreeCompiler

namespace ScopeTable

variable {t : ScopeTable} {name : String}

theorem lookup_isOk_iff : (∃ s, t.lookup name = .ok s) ↔ t.names.Binds name := by
  have hfind : (t.scopes.findSome? (find? · name)).isSome = true ↔ t.names.Binds name := by
    simp only [List.findSome?_isSome_iff, find?_isSome_iff, names, Tree.Names.Binds, List.mem_map,
      exists_exists_and_eq_and]
  rw [← hfind, lookup]
  cases t.scopes.findSome? (find? · name) <;> simp

theorem declare_isOk_iff {ty : Code.Ty} (hopen : t.names ≠ []) :
    (∃ r, t.declare name ty = .ok r) ↔ ¬ t.names.BindsInside name := by
  obtain ⟨scopes, taken⟩ := t
  cases scopes with
  | nil => exact absurd rfl hopen
  | cons scope outer =>
    have hbinds : Tree.Names.BindsInside (names ⟨scope :: outer, taken⟩) name ↔
        (find? scope name).isSome = true := by
      rw [find?_isSome_iff]
      simp [names, Tree.Names.BindsInside]
    rw [hbinds, declare]
    dsimp only
    cases (find? scope name).isSome <;> simp

end ScopeTable

namespace Lower

open Code
open TreeCompiler.Tree (Expr Literal Header Names ScopedAll declaredAll)

/-- Where some names are declared, a computation succeeds exactly under a condition, and other names
    are declared behind it. -/
structure LowerM.Accepts {α : Type} (m : LowerM α) (names : Names) (P : Prop) (names' : Names) : Prop where
  succeeds : ∀ c, c.scopes.names = names → ((∃ r, m c = .ok r) ↔ P)
  behind : ∀ c a c', c.scopes.names = names → m c = .ok (a, c') → c'.scopes.names = names'
  fails : ∀ c e, c.scopes.names = names → m c = .error e → e.cause.kind ≠ .scopeUnderflow

namespace LowerM.Accepts

variable {α β : Type} {m : LowerM α} {names names₁ names' : Names} {P Q : Prop}

theorem congr (hm : Accepts m names P names₁) (hP : P ↔ Q) (hnames : names₁ = names') :
    Accepts m names Q names' := by
  subst hnames
  exact ⟨fun c hc => (hm.succeeds c hc).trans hP, hm.behind, hm.fails⟩

variable {f : α → LowerM β} {ty : Code.Ty} {name : String}

theorem bind (hm : Accepts m names P names₁)
    (hf : ∀ a, Accepts (f a) names₁ Q names') : Accepts (m >>= f) names (P ∧ Q) names' := by
  refine ⟨fun c hc => ⟨?_, ?_⟩, fun c b c' hc hrun => ?_, fun c e hc hrun => ?_⟩
  · rintro ⟨r, hrun⟩
    obtain ⟨a, c₁, hma, hfa⟩ := LowerM.bind_eq_ok_iff.mp hrun
    exact ⟨(hm.succeeds c hc).mp ⟨_, hma⟩, ((hf a).succeeds c₁ (hm.behind c a c₁ hc hma)).mp ⟨_, hfa⟩⟩
  · rintro ⟨hP, hQ⟩
    obtain ⟨⟨a, c₁⟩, hma⟩ := (hm.succeeds c hc).mpr hP
    obtain ⟨r, hfa⟩ := ((hf a).succeeds c₁ (hm.behind c a c₁ hc hma)).mpr hQ
    exact ⟨r, LowerM.bind_eq_ok_iff.mpr ⟨a, c₁, hma, hfa⟩⟩
  · obtain ⟨a, c₁, hma, hfa⟩ := LowerM.bind_eq_ok_iff.mp hrun
    exact (hf a).behind c₁ b c' (hm.behind c a c₁ hc hma) hfa
  · rcases bind_eq_error_iff.mp hrun with hma | ⟨⟨a, c₁⟩, hma, hfa⟩
    · exact hm.fails c e hc hma
    · exact (hf a).fails c₁ e (hm.behind c a c₁ hc hma) hfa

/-- What comes first has no condition. -/
theorem step (hm : Accepts m names True names₁)
    (hf : ∀ a, Accepts (f a) names₁ Q names') : Accepts (m >>= f) names Q names' :=
  (hm.bind hf).congr (iff_of_eq (true_and Q)) rfl

/-- What comes last has no condition. -/
theorem last (hm : Accepts m names P names₁)
    (hf : ∀ a, Accepts (f a) names₁ True names') : Accepts (m >>= f) names P names' :=
  (hm.bind hf).congr (iff_of_eq (and_true P)) rfl

/-- A computation that always succeeds and leaves the scopes alone. -/
theorem of_ok (hm : ∀ c, ∃ a c', m c = .ok (a, c') ∧ c'.scopes = c.scopes) : Accepts m names True names := by
  refine ⟨fun c _ => ?_, fun c a c' hc hrun => ?_, fun c e _ hrun => ?_⟩
  · obtain ⟨a, c', hrun, _⟩ := hm c
    exact iff_of_true ⟨_, hrun⟩ trivial
  · obtain ⟨a', c'', hrun', hscopes⟩ := hm c
    cases hrun.symm.trans hrun'
    rw [hscopes, hc]
  · obtain ⟨a, c', hrun', _⟩ := hm c
    cases hrun.symm.trans hrun'

theorem pure {a : α} : Accepts (Pure.pure a) names True names :=
  of_ok fun c => ⟨a, c, rfl, rfl⟩

theorem get : Accepts (MonadState.get : LowerM Context) names True names :=
  of_ok fun _ => ⟨_, _, rfl, rfl⟩

theorem temp : Accepts (LowerM.temp ty) names True names :=
  of_ok fun _ => ⟨_, _, rfl, rfl⟩

theorem label : Accepts LowerM.label names True names :=
  of_ok fun _ => ⟨_, _, rfl, rfl⟩

theorem emit {op : Op} {dst src1 src2 : Option Operand} :
    Accepts (LowerM.emit op dst src1 src2) names True names :=
  of_ok fun _ => ⟨_, _, rfl, rfl⟩

theorem pool {k : Const} : Accepts (LowerM.pool k) names True names :=
  of_ok fun _ => ⟨_, _, rfl, rfl⟩

theorem emitArgs {index : Nat} {ts : List Temp} : Accepts (emitArgs index ts) names True names :=
  of_ok fun _ => ⟨(), _, emitArgs_eq_ok_iff.mpr rfl, rfl⟩

theorem fail {cause : Cause} (hcause : cause.kind ≠ .scopeUnderflow) (hP : ¬ P) :
    Accepts (LowerM.fail cause : LowerM α) names P names' := by
  refine ⟨fun c _ => ?_, fun c a c' _ hrun => (LowerM.fail_ne_ok c hrun).elim, fun c e _ hrun => ?_⟩
  · exact iff_of_false (fun ⟨_, hrun⟩ => LowerM.fail_ne_ok c hrun) hP
  · cases hrun
    exact hcause

theorem within {place : Place} (hm : Accepts m names P names') :
    Accepts (LowerM.within place m) names P names' := by
  refine ⟨fun c hc => ?_, fun c a c' hc hrun => ?_, fun c e hc hrun => ?_⟩
  · simp only [LowerM.within_eq_ok_iff]
    exact hm.succeeds c hc
  · exact hm.behind c a c' hc (LowerM.within_eq_ok_iff.mp hrun)
  · obtain ⟨e', hrun', rfl⟩ := mapError_eq_error_iff.mp hrun
    exact hm.fails c e' hc hrun'

theorem enter : Accepts LowerM.enter names True ([] :: names) := by
  refine ⟨fun c _ => iff_of_true ⟨_, rfl⟩ trivial, fun c a c' hc hrun => ?_, fun c e _ hrun => ?_⟩
  · obtain rfl := LowerM.enter_eq_ok_iff.mp hrun
    rw [← hc]
    rfl
  · cases hrun

theorem leave {scope : List String} : Accepts LowerM.leave (scope :: names) True names := by
  have hleave : ∀ c : Context, c.scopes.names = scope :: names →
      ∃ scopes, c.scopes.leave = .ok scopes ∧ scopes.names = names := by
    intro c hc
    obtain ⟨⟨scopes, taken⟩, _⟩ := c
    cases scopes with
    | nil => cases hc
    | cons inner outer => exact ⟨_, rfl, (List.cons.inj hc).2⟩
  refine ⟨fun c hc => ?_, fun c a c' hc hrun => ?_, fun c e hc hrun => ?_⟩
  · obtain ⟨scopes, hscopes, _⟩ := hleave c hc
    exact iff_of_true ⟨((), _), LowerM.leave_eq_ok_iff.mpr ⟨scopes, hscopes, rfl⟩⟩ trivial
  · obtain ⟨scopes, hscopes, hnames⟩ := hleave c hc
    obtain ⟨scopes', hscopes', rfl⟩ := LowerM.leave_eq_ok_iff.mp hrun
    cases hscopes.symm.trans hscopes'
    exact hnames
  · obtain ⟨scopes, hscopes, _⟩ := hleave c hc
    simp [LowerM.leave, hscopes] at hrun

theorem declare (hopen : names ≠ []) :
    Accepts (LowerM.declare name ty) names (¬ names.BindsInside name) (names.with [name]) := by
  refine ⟨fun c hc => ?_, fun c a c' hc hrun => ?_, fun c e hc hrun => ?_⟩
  · rw [← hc, ← ScopeTable.declare_isOk_iff (hc ▸ hopen)]
    constructor
    · rintro ⟨⟨storage, c'⟩, hrun⟩
      obtain ⟨scopes, hdeclare, _⟩ := LowerM.declare_eq_ok_iff.mp hrun
      exact ⟨_, hdeclare⟩
    · rintro ⟨⟨storage, scopes⟩, hdeclare⟩
      exact ⟨_, LowerM.declare_eq_ok_iff.mpr ⟨scopes, hdeclare, rfl⟩⟩
  · obtain ⟨scopes, hdeclare, rfl⟩ := LowerM.declare_eq_ok_iff.mp hrun
    rw [← hc]
    exact (ScopeTable.Grows.declare hdeclare).names
  · obtain ⟨⟨scopes, taken⟩, _⟩ := c
    cases scopes with
    | nil => exact absurd hc.symm hopen
    | cons scope outer =>
      simp only [LowerM.declare, ScopeTable.declare] at hrun
      split at hrun
      · cases hrun
      · next he =>
        split at he
        · cases he
          cases hrun
          exact nofun
        · cases he

theorem lookup : Accepts (LowerM.lookup name) names (names.Binds name) names := by
  refine ⟨fun c hc => ?_, fun c a c' hc hrun => ?_, fun c e _ hrun => ?_⟩
  · rw [← hc, ← ScopeTable.lookup_isOk_iff]
    constructor
    · rintro ⟨⟨s, c'⟩, hrun⟩
      exact ⟨s, (LowerM.lookup_eq_ok_iff.mp hrun).1⟩
    · rintro ⟨s, hs⟩
      exact ⟨(s, c), LowerM.lookup_eq_ok_iff.mpr ⟨hs, rfl⟩⟩
  · rw [(LowerM.lookup_eq_ok_iff.mp hrun).2, hc]
  · simp only [LowerM.lookup, ScopeTable.lookup] at hrun
    split at hrun
    · cases hrun
    · next he =>
      split at he
      · cases he
      · cases he
        cases hrun
        exact nofun

end LowerM.Accepts

open LowerM (Accepts)

variable {op : String} {prog : Tree.Program}

theorem binaryOp?_isSome_iff (hop : ¬ (op = "&&" ∨ op = "||")) :
    (binaryOp? op).isSome = true ↔ op ∈ Tree.binaryOperators := by
  rw [not_or] at hop
  simp [binaryOp?, List.lookup_isSome_iff, Tree.binaryOperators, hop]

theorem unaryOp?_isSome_iff : (unaryOp? op).isSome = true ↔ op ∈ Tree.unaryOperators := by
  simp [unaryOp?, List.lookup_isSome_iff, Tree.unaryOperators]

theorem lowerLiteral_accepts {names : Names} (l : Literal) :
    Accepts (lowerLiteral l) names (∀ kind, l ≠ .unknown kind) names := by
  have hconst : ∀ k : Const, Accepts (do
      let t ← LowerM.temp k.ty
      LowerM.pool k
      LowerM.emit .move (some (.temp t)) (some (.const k)) none
      return t) names True names := fun k =>
    Accepts.temp.step fun t => Accepts.pool.step fun _ =>
      Accepts.emit.step fun _ => .pure
  unfold lowerLiteral
  cases l with
  | unknown kind => exact .fail nofun (by simp)
  | void => exact Accepts.temp.congr (by simp) rfl
  | number v => exact (hconst (.int v)).congr (by simp) rfl
  | bool b => exact (hconst (.bool b)).congr (by simp) rfl
  | str s => exact (hconst (.str s)).congr (by simp) rfl

mutual

/-- An expression is lowered exactly if it is scoped. -/
theorem lowerExpr_accepts (sigs : Signatures) : (e : Expr) → {names : Names} → names ≠ [] →
    Accepts (lowerExpr sigs e) names (e.Scoped sigs.arity names) (names.with e.declared)
  | .missing, names, _ => by
    rw [lowerExpr]
    exact .fail nofun not_false
  | .literal l, names, _ => by
    rw [lowerExpr]
    exact (lowerLiteral_accepts l).congr Iff.rfl (Names.with_nil names).symm
  | .define name ty value, names, hopen => by
    rw [lowerExpr]
    have hvalue := lowerExpr_accepts sigs value hopen
    exact (hvalue.within.bind fun v => (Accepts.declare (Names.with_ne_nil hopen _)).last fun _ =>
      Accepts.emit.step fun _ => .temp).congr Iff.rfl (Names.with_with ..)
  | .var name, names, _ => by
    rw [lowerExpr]
    exact (Accepts.lookup.last fun symbol => Accepts.temp.step fun t =>
      Accepts.emit.step fun _ => .pure).congr Iff.rfl (Names.with_nil names).symm
  | .block body, names, hopen => by
    rw [lowerExpr]
    have hbody := lowerStmts_accepts sigs body 0 none (List.cons_ne_nil [] names)
    refine (Accepts.enter.step fun _ => hbody.last fun last => ?_).congr Iff.rfl
      (Names.with_nil names).symm
    cases last with
    | none => exact Accepts.temp.step fun t => Accepts.leave.step fun _ => .pure
    | some t => exact Accepts.pure.step fun t => Accepts.leave.step fun _ => .pure
  | .array elems, names, hopen => by
    rw [lowerExpr]
    have helems := lowerItems_accepts sigs elems 0 hopen
    exact helems.within.last fun ts => Accepts.emitArgs.step fun _ => Accepts.temp.step fun t =>
      Accepts.emit.step fun _ => .pure
  | .assign name value, names, hopen => by
    rw [lowerExpr]
    have hvalue := lowerExpr_accepts sigs value hopen
    exact hvalue.within.bind fun v => Accepts.lookup.last fun symbol =>
      Accepts.emit.step fun _ => .temp
  | .binary op left right, names, hopen => by
    have hleft := lowerExpr_accepts sigs left hopen
    have hright := lowerExpr_accepts sigs right (Names.with_ne_nil hopen left.declared)
    have hnames : (names.with left.declared).with right.declared = names.with (right.declared ++ left.declared) :=
      Names.with_with ..
    rw [hnames] at hright
    rw [lowerExpr]
    split
    · next hop =>
      have hknown : op ∈ Tree.binaryOperators := by
        rcases hop with rfl | rfl <;> decide
      refine Accepts.congr (P := left.Scoped sigs.arity names ∧
        right.Scoped sigs.arity (names.with left.declared)) ?_ (by simp [Expr.Scoped, hknown]) rfl
      refine Accepts.temp.step fun result => Accepts.label.step fun done =>
        hleft.within.bind fun l => Accepts.emit.step fun _ => ?_
      dsimp only
      split
      · exact Accepts.emit.step fun _ => hright.within.last fun r => Accepts.emit.step fun _ =>
          Accepts.emit.step fun _ => .pure
      · exact Accepts.label.step fun other => Accepts.emit.step fun _ =>
          Accepts.emit.step fun _ => Accepts.emit.step fun _ => hright.within.last fun r =>
            Accepts.emit.step fun _ => Accepts.emit.step fun _ => .pure
    · next hop =>
      have hknown := binaryOp?_isSome_iff hop
      split
      · next hnone =>
        rw [hnone] at hknown
        exact .fail nofun (by simp [Expr.Scoped, ← hknown])
      · next code hsome =>
        rw [hsome] at hknown
        refine (hleft.within.bind fun l => hright.within.last fun r => Accepts.temp.step fun t =>
          Accepts.emit.step fun _ => .pure).congr ?_ rfl
        simp [Expr.Scoped, ← hknown]
  | .unary op arg, names, hopen => by
    have harg := lowerExpr_accepts sigs arg hopen
    have hknown : (unaryOp? op).isSome = true ↔ _ := unaryOp?_isSome_iff
    rw [lowerExpr]
    split
    · next hnone =>
      rw [hnone] at hknown
      exact .fail nofun (by simp [Expr.Scoped, ← hknown])
    · next code hsome =>
      rw [hsome] at hknown
      refine Accepts.congr (P := arg.Scoped sigs.arity names) ?_ (by simp [Expr.Scoped, ← hknown]) rfl
      -- The variable that is changed was read before, so that it is declared.
      cases hname : updated? code arg with
      | none =>
        exact harg.within.last fun a => Accepts.temp.step fun t => Accepts.emit.step fun _ => .pure
      | some name =>
        have hvar : arg = .var name := updated?_eq_some hname
        subst hvar
        refine (harg.within.bind fun a => Accepts.temp.step fun t => Accepts.emit.step fun _ =>
          Accepts.lookup.last fun symbol => Accepts.emit.step fun _ => .pure).congr ?_ rfl
        simp [Expr.Scoped, Expr.declared, Names.with_nil]
  | .cond test yes no, names, hopen => by
    have htest := lowerExpr_accepts sigs test hopen
    have hyes := lowerExpr_accepts sigs yes (Names.with_ne_nil hopen test.declared)
    rw [Names.with_with] at hyes
    rw [lowerExpr]
    cases hno : no.isMissing with
    | true =>
      refine (htest.within.bind fun t => Accepts.label.step fun otherwise =>
        Accepts.emit.step fun _ => hyes.within.last fun _ => Accepts.emit.step fun _ =>
          .temp).congr ?_ ?_
      · simp [Expr.Scoped, hno]
      · rw [Expr.declared, Expr.declared_of_isMissing hno, List.nil_append]
    | false =>
      have hno' := lowerExpr_accepts sigs no (Names.with_ne_nil hopen (yes.declared ++ test.declared))
      refine (htest.within.bind fun t => Accepts.label.step fun otherwise =>
        Accepts.emit.step fun _ => Accepts.label.step fun done => hyes.within.bind fun y =>
          Accepts.temp.step fun result => Accepts.emit.step fun _ =>
            Accepts.emit.step fun _ => Accepts.emit.step fun _ => hno'.within.last fun n =>
              Accepts.emit.step fun _ => Accepts.emit.step fun _ => .pure).congr ?_
                (Names.with_with ..)
      simp [Expr.Scoped, hno]
  | .loop test body, names, hopen => by
    have htest := lowerExpr_accepts sigs test hopen
    have hbody := lowerExpr_accepts sigs body (Names.with_ne_nil hopen test.declared)
    rw [lowerExpr]
    exact (Accepts.label.step fun top => Accepts.label.step fun done =>
      Accepts.emit.step fun _ => htest.within.bind fun t => Accepts.emit.step fun _ =>
        hbody.within.last fun _ => Accepts.emit.step fun _ =>
          Accepts.emit.step fun _ => .temp).congr Iff.rfl (Names.with_with ..)
  | .call name args, names, hopen => by
    have hargs := lowerItems_accepts sigs args 0 hopen
    rw [lowerExpr]
    split
    · next hnone =>
      exact .fail nofun (by simp [Expr.Scoped, Signatures.arity, hnone])
    · next header hsome =>
      split
      · next hlength =>
        exact .fail nofun (by simp [Expr.Scoped, Signatures.arity, hsome, Ne.symm hlength])
      · next hlength =>
        refine (hargs.within.last fun ts => Accepts.emitArgs.step fun _ =>
          Accepts.temp.step fun t => Accepts.emit.step fun _ => .pure).congr ?_ rfl
        simp [Expr.Scoped, Signatures.arity, hsome, (Decidable.not_not.mp hlength).symm]
  | .ret value, names, hopen => by
    rw [lowerExpr]
    cases hmissing : value.isMissing with
    | true =>
      refine (Accepts.temp.step fun v => Accepts.emit.step fun _ => .temp).congr ?_ ?_
      · simp [Expr.Scoped, hmissing]
      · rw [Expr.declared, Expr.declared_of_isMissing hmissing, Names.with_nil]
    | false =>
      have hvalue := lowerExpr_accepts sigs value hopen
      refine (hvalue.within.last fun v => Accepts.emit.step fun _ => .temp).congr ?_ rfl
      simp [Expr.Scoped, hmissing]
  | .index target position, names, hopen => by
    have htarget := lowerExpr_accepts sigs target hopen
    have hposition := lowerExpr_accepts sigs position (Names.with_ne_nil hopen target.declared)
    rw [lowerExpr]
    exact (htarget.within.bind fun a => hposition.within.last fun i => Accepts.temp.step fun t =>
      Accepts.emit.step fun _ => .pure).congr Iff.rfl (Names.with_with ..)
  | .setIndex target position value, names, hopen => by
    have htarget := lowerExpr_accepts sigs target hopen
    have hposition := lowerExpr_accepts sigs position (Names.with_ne_nil hopen target.declared)
    rw [Names.with_with] at hposition
    have hvalue := lowerExpr_accepts sigs value (Names.with_ne_nil hopen (position.declared ++ target.declared))
    rw [lowerExpr]
    exact (htarget.within.bind fun a => hposition.within.bind fun i => hvalue.within.last fun v =>
      Accepts.emit.step fun _ => .temp).congr Iff.rfl (Names.with_with ..)
  | .label name, names, _ => by
    rw [lowerExpr]
    exact (Accepts.emit.step fun _ => .temp).congr Iff.rfl (Names.with_nil names).symm
  | .goto name, names, _ => by
    rw [lowerExpr]
    exact (Accepts.emit.step fun _ => .temp).congr Iff.rfl (Names.with_nil names).symm
  | .exit code, names, hopen => by
    rw [lowerExpr]
    cases hmissing : code.isMissing with
    | true =>
      refine (Accepts.emit.step fun _ => .temp).congr ?_ ?_
      · simp [Expr.Scoped, hmissing]
      · rw [Expr.declared, Expr.declared_of_isMissing hmissing, Names.with_nil]
    | false =>
      have hcode := lowerExpr_accepts sigs code hopen
      refine (hcode.within.last fun c => Accepts.emit.step fun _ => .temp).congr ?_ rfl
      simp [Expr.Scoped, hmissing]
  | .func header body, names, _ => by
    rw [lowerExpr]
    exact .fail nofun not_false
  | .out value, names, _ => by
    rw [lowerExpr]
    exact .fail nofun not_false
  | .input name, names, _ => by
    rw [lowerExpr]
    exact .fail nofun not_false

theorem lowerStmts_accepts (sigs : Signatures) : (es : List Expr) → (index : Nat) → (last : Option Temp) →
    {names : Names} → names ≠ [] → Accepts (lowerStmts sigs index last es) names
      (ScopedAll sigs.arity names es) (names.with (declaredAll es))
  | [], index, last, names, _ => by
    rw [lowerStmts]
    exact Accepts.pure.congr Iff.rfl (Names.with_nil names).symm
  | e :: es, index, last, names, hopen => by
    rw [lowerStmts]
    have he := lowerExpr_accepts sigs e hopen
    exact (he.within.bind fun t => lowerStmts_accepts sigs es (index + 1) (some t)
      (Names.with_ne_nil hopen e.declared)).congr Iff.rfl (Names.with_with ..)

theorem lowerItems_accepts (sigs : Signatures) : (es : List Expr) → (index : Nat) →
    {names : Names} → names ≠ [] → Accepts (lowerItems sigs index es) names
      (ScopedAll sigs.arity names es) (names.with (declaredAll es))
  | [], index, names, _ => by
    rw [lowerItems]
    exact Accepts.pure.congr Iff.rfl (Names.with_nil names).symm
  | e :: es, index, names, hopen => by
    rw [lowerItems]
    have he := lowerExpr_accepts sigs e hopen
    exact (he.within.bind fun t => (lowerItems_accepts sigs es (index + 1)
      (Names.with_ne_nil hopen e.declared)).last fun ts => .pure).congr Iff.rfl (Names.with_with ..)

end

/-- Parameters are declared exactly if they differ from each other and from what is declared. -/
theorem lowerParams_accepts : (ps : List Tree.Param) → {scope : List String} →
    Accepts (lowerParams ps) [scope]
      ((ps.map (·.name)).Nodup ∧ ∀ p ∈ ps, p.name ∉ scope) [(ps.map (·.name)).reverse ++ scope]
  | [], scope => by
    rw [lowerParams]
    exact Accepts.pure.congr (by simp) rfl
  | p :: ps, scope => by
    rw [lowerParams]
    have hdeclare : Accepts (LowerM.declare p.name (lowerTy p.ty)) [scope] _ [p.name :: scope] :=
      .declare (List.cons_ne_nil scope [])
    refine (hdeclare.within.bind fun storage => (lowerParams_accepts ps).last fun qs => .pure).congr ?_ (by simp)
    simp only [Names.BindsInside, List.head?_cons, Option.mem_some_iff, exists_eq_left', List.map_cons,
      List.nodup_cons, List.mem_map, List.mem_cons, not_or, forall_eq_or_imp]
    constructor
    · rintro ⟨hnew, hnodup, hps⟩
      have hother : ¬ ∃ q ∈ ps, q.name = p.name := by
        rintro ⟨q, hq, heq⟩
        exact (hps q hq).1 heq
      exact ⟨⟨hother, hnodup⟩, hnew, fun q hq => (hps q hq).2⟩
    · rintro ⟨⟨hother, hnodup⟩, hnew, hps⟩
      exact ⟨hnew, hnodup, fun q hq => ⟨fun heq => hother ⟨q, hq, heq⟩, hps q hq⟩⟩

/-- A function is scoped if its parameters differ and its body is scoped, if it has one. -/
def FuncScoped (arity : String → Option Nat) (h : Header) (body : Expr) : Prop :=
  (h.params.map (·.name)).Nodup ∧
    (h.isExternal = true ∨ body.Scoped arity [(h.params.map (·.name)).reverse])

/-- A function is lowered exactly if it is scoped, and all scopes that it opens are left. -/
theorem lowerFunc_accepts (sigs : Signatures) (h : Header) (body : Expr) :
    Accepts (lowerFunc sigs h body) [] (FuncScoped sigs.arity h body) [] := by
  have hparams : Accepts (lowerParams h.params) [[]] _ [(h.params.map (·.name)).reverse] :=
    (lowerParams_accepts h.params).congr Iff.rfl (by simp)
  rw [lowerFunc]
  cases hexternal : h.isExternal with
  | true =>
    refine (Accepts.enter.step fun _ => hparams.last fun params => Accepts.pure.step fun code =>
      Accepts.leave.within.step fun _ => .pure).congr ?_ rfl
    simp [FuncScoped, hexternal]
  | false =>
    cases hmissing : body.isMissing with
    | true =>
      have hnone : ¬ body.Scoped sigs.arity [(h.params.map (·.name)).reverse] := by
        cases body <;> first | exact not_false | cases hmissing
      have hfail : Accepts (LowerM.fail .noBody : LowerM (List Instr))
          [(h.params.map (·.name)).reverse] (body.Scoped sigs.arity [(h.params.map (·.name)).reverse]) [[]] :=
        .fail FailureKind.noConfusion hnone
      refine (Accepts.enter.step fun _ => hparams.bind fun params => hfail.last fun code =>
        Accepts.leave.within.step fun _ => .pure).congr ?_ rfl
      simp [FuncScoped, hexternal]
    | false =>
      have hbody := lowerExpr_accepts sigs body (List.cons_ne_nil (h.params.map (·.name)).reverse [])
      refine (Accepts.enter.step fun _ => hparams.bind fun params =>
        hbody.within.last fun result => Accepts.emit.step fun _ => Accepts.get.step fun c =>
          Accepts.pure.step fun code => Accepts.leave.within.step fun _ => .pure).congr ?_ rfl
      simp [FuncScoped, hexternal]

namespace Session

/-- The items that may stand at the top of a program. -/
def ItemScoped (arity : String → Option Nat) : Expr → Prop
  | .func h body => FuncScoped arity h body
  | .literal l => (const? l).isSome = true
  | _ => False

variable {s : Session} {index : Nat}

theorem item_isOk_iff (e : Expr) : (∃ s', s.item index e = .ok s') ↔ ItemScoped s.sigs.arity e := by
  cases e with
  | func h body =>
    rw [ItemScoped, ← (lowerFunc_accepts s.sigs h body).succeeds { pool := s.pool } rfl]
    simp only [item, bind_eq_ok_iff, Located.within, mapError_eq_ok_iff]
    constructor
    · rintro ⟨_, r, hr, _⟩
      exact ⟨r, hr⟩
    · rintro ⟨r, hr⟩
      exact ⟨_, r, hr, rfl⟩
  | literal l =>
    simp only [item, ItemScoped]
    cases const? l <;> simp
  | _ =>
    refine iff_of_false ?_ not_false
    rintro ⟨_, hitem⟩
    cases hitem

theorem kind_of_item {e : Expr} {err : Error} (hitem : s.item index e = .error err) :
    err.cause.kind ≠ .scopeUnderflow := by
  cases e with
  | func h body =>
    rcases bind_eq_error_iff.mp hitem with hfunc | ⟨r, _, hpure⟩
    · obtain ⟨err', hfunc', rfl⟩ := mapError_eq_error_iff.mp hfunc
      exact (lowerFunc_accepts s.sigs h body).fails _ err' rfl hfunc'
    · cases hpure
  | literal l =>
    simp only [item] at hitem
    split at hitem
    · cases hitem
    · cases hitem
      exact FailureKind.noConfusion
  | _ =>
    cases hitem
    exact FailureKind.noConfusion

/-- Items are lowered exactly if each of them may stand at the top. -/
theorem items_isOk_iff (es : List Expr) :
    (∃ s', s.items index es = (.ok (), s')) ↔ ∀ e ∈ es, ItemScoped s.sigs.arity e := by
  induction es generalizing s index with
  | nil => simp [items]
  | cons e es ih =>
    have hhead : (∃ s', s.item index e = .ok s') ↔ _ := item_isOk_iff e
    rw [List.forall_mem_cons, ← hhead]
    simp only [items]
    cases hitem : s.item index e with
    | error err => simp
    | ok s₁ =>
      rw [← (item_ok hitem).1]
      simpa using ih

end Session

/-- Collected signatures count the parameters of the functions of the program. -/
theorem arity_of_collect {sigs : Signatures} (hcollect : collect [] prog.body = .ok sigs) :
    sigs.arity = prog.arity := by
  obtain ⟨_, hnew, hall⟩ := collect_ok hcollect
  -- Each of the two finds a function of the name, and the signatures have no other one of it.
  have hfound : ∀ name n, prog.arity name = some n → sigs.arity name = some n := by
    intro name n harity
    obtain ⟨e, he, hfunc⟩ := List.exists_of_findSome?_eq_some harity
    split at hfunc
    · next h body =>
      rw [Option.ite_none_right_eq_some] at hfunc
      obtain ⟨rfl, hn⟩ := hfunc
      rw [Signatures.arity, hnew h body (mem_funcItems.mpr he), Option.map_some]
      exact hn
    · cases hfunc
  funext name
  cases hlookup : sigs.arity name with
  | none =>
    cases harity : prog.arity name with
    | none => rfl
    | some n => rw [hfound name n harity] at hlookup; cases hlookup
  | some n =>
    rw [Signatures.arity, Option.map_eq_some_iff] at hlookup
    obtain ⟨h, hh, _⟩ := hlookup
    obtain ⟨rfl, body, hmem⟩ := (hall name h hh).resolve_left (by simp)
    have hsome : (prog.arity h.name).isSome = true := by
      rw [Tree.Program.arity, List.findSome?_isSome_iff]
      exact ⟨_, mem_funcItems.mp hmem, by simp⟩
    obtain ⟨n', hn'⟩ := Option.isSome_iff_exists.mp hsome
    have harity := hfound _ _ hn'
    rw [Signatures.arity, hh, Option.map_some] at harity
    simp_all

theorem funcNames_eq (es : List Expr) :
    (es.filterMap fun | .func h _ => some h.name | _ => none) = (funcItems es).map (·.1.name) := by
  rw [funcItems, List.map_filterMap]
  congr 1
  funext e
  cases e <;> rfl

/-- Well-scoped programs have functions of different names, and items that may stand at the top. -/
theorem wellScoped_iff (prog : Tree.Program) : prog.WellScoped ↔
    ((funcItems prog.body).map (·.1.name)).Nodup ∧ ∀ e ∈ prog.body, Session.ItemScoped prog.arity e := by
  rw [← funcNames_eq]
  constructor
  · rintro ⟨hitems, hfuncs, hparams, hbodies⟩
    refine ⟨hfuncs, fun e he => ?_⟩
    rcases hitems e he with ⟨h, body, rfl⟩ | ⟨v, rfl⟩ | ⟨b, rfl⟩ | ⟨s, rfl⟩
    · refine ⟨hparams h body he, ?_⟩
      cases hexternal : h.isExternal with
      | true => exact .inl rfl
      | false => exact .inr (hbodies h body he hexternal)
    · exact rfl
    · exact rfl
    · exact rfl
  · rintro ⟨hfuncs, hitems⟩
    refine ⟨fun e he => ?_, hfuncs, fun h body he => (hitems _ he).1, fun h body he hinternal => ?_⟩
    · have hitem := hitems e he
      cases e with
      | func h body => exact .inl ⟨h, body, rfl⟩
      | literal l =>
        cases l with
        | number v => exact .inr (.inl ⟨v, rfl⟩)
        | bool b => exact .inr (.inr (.inl ⟨b, rfl⟩))
        | str s => exact .inr (.inr (.inr ⟨s, rfl⟩))
        | void => cases hitem
        | unknown kind => cases hitem
      | _ => exact hitem.elim
    · exact (hitems _ he).2.resolve_left (by simp [hinternal])

theorem lowerProgram_isOk_iff (prog : Tree.Program) :
    (∃ p, lowerProgram prog = .ok p) ↔ prog.WellScoped := by
  have hitems : ∀ {sigs}, collect [] prog.body = .ok sigs →
      ((∃ s', Session.items { sigs } 0 prog.body = (.ok (), s')) ↔
        ∀ e ∈ prog.body, Session.ItemScoped prog.arity e) :=
    fun hcollect => arity_of_collect hcollect ▸ Session.items_isOk_iff prog.body
  simp only [wellScoped_iff, lowerProgram_eq_ok_iff]
  constructor
  · rintro ⟨_, sigs, s, hcollect, hrun, _⟩
    exact ⟨collect_nodup hcollect, (hitems hcollect).mp ⟨s, hrun⟩⟩
  · rintro ⟨hnodup, hscoped⟩
    obtain ⟨sigs, hcollect⟩ : ∃ sigs, collect [] prog.body = .ok sigs :=
      ⟨_, collect_eq_ok_iff.mpr ⟨hnodup, by simp, rfl⟩⟩
    obtain ⟨s, hrun⟩ := (hitems hcollect).mpr hscoped
    exact ⟨_, sigs, s, hcollect, hrun, rfl⟩

theorem kind_of_lowerProgram {err : Error} (hlower : lowerProgram prog = .error err) :
    err.cause.kind ≠ .scopeUnderflow := by
  rcases lowerProgram_error hlower with ⟨name, rfl⟩ | ⟨s, index, e, _, hitem⟩
  · exact FailureKind.noConfusion
  · exact Session.kind_of_item hitem

/-- Lowering accepts exactly the well-scoped programs. -/
theorem lowerProgram_accepts (prog : Tree.Program) :
    ((∃ p, lowerProgram prog = .ok p) ↔ prog.WellScoped) ∧
      (∀ err, lowerProgram prog = .error err → err.cause.kind ≠ .scopeUnderflow) ∧
        ∀ sigs h body pool f c, lowerFunc sigs h body { pool } = .ok (f, c) → c.scopes.depth = 0 := by
  refine ⟨lowerProgram_isOk_iff prog, fun err hlower => kind_of_lowerProgram hlower, ?_⟩
  intro sigs h body pool f c hlower
  have hnames := (lowerFunc_accepts sigs h body).behind _ f c rfl hlower
  rw [ScopeTable.depth, ← List.length_map (f := fun scope => scope.map Symbol.name)]
  exact congrArg List.length hnames

end Lower

end TreeCompiler
