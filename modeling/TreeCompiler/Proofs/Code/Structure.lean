import TreeCompiler.Proofs.Code.Acceptance

/-!
Which programs pass the check: exactly those of sound structure, as it is said here without
regard to the order in which the check looks at them.
-/

namespace TreeCompiler.Code

namespace Operand

/-- Places that can be written to. -/
inductive Storage : Option Operand → Prop where
  | temp (t : Temp) : Storage (some (.temp t))
  | var (name : String) : Storage (some (.var name))

/-- Values that can be read. -/
inductive Value : Option Operand → Prop where
  | temp (t : Temp) : Value (some (.temp t))
  | var (name : String) : Value (some (.var name))
  | const (c : Const) : Value (some (.const c))

/-- Numbers that count something. -/
inductive Count : Option Operand → Prop where
  | int {v : Int64} (hv : 0 ≤ v) : Count (some (.const (.int v)))

theorem isStorage_iff {o : Option Operand} : isStorage o = true ↔ Storage o := by
  constructor
  · intro ho
    unfold isStorage at ho
    split at ho
    · exact .temp _
    · exact .var _
    · cases ho
  · rintro (_ | _) <;> rfl

theorem isValue_iff {o : Option Operand} : isValue o = true ↔ Value o := by
  constructor
  · intro ho
    unfold isValue at ho
    split at ho
    · exact .temp _
    · exact .var _
    · exact .const _
    · cases ho
  · rintro (_ | _ | _) <;> rfl

theorem isCount_iff {o : Option Operand} : isCount o = true ↔ Count o := by
  constructor
  · intro ho
    unfold isCount at ho
    split at ho
    · exact .int (of_decide_eq_true ho)
    · cases ho
  · rintro ⟨hv⟩
    exact decide_eq_true hv

end Operand

open Operand (Storage Value Count)

/-- The operands of an instruction are of the kinds that its operation requires. -/
inductive Instr.Fitting : Instr → Prop where
  | nop {dst src1 src2} : Fitting ⟨.nop, dst, src1, src2⟩
  | binary {op dst src1 src2} (hdst : Storage dst) (hsrc1 : Value src1) (hsrc2 : Value src2) :
      Fitting ⟨.binary op, dst, src1, src2⟩
  | compare {op dst src1 src2} (hdst : Storage dst) (hsrc1 : Value src1) (hsrc2 : Value src2) :
      Fitting ⟨.compare op, dst, src1, src2⟩
  | unary {op dst src1 src2} (hdst : Storage dst) (hsrc1 : Value src1) : Fitting ⟨.unary op, dst, src1, src2⟩
  | move {dst src1 src2} (hdst : Storage dst) (hsrc1 : Value src1) : Fitting ⟨.move, dst, src1, src2⟩
  | load {dst name src2} (hdst : Storage dst) : Fitting ⟨.load, dst, some (.var name), src2⟩
  | store {name src1 src2} (hsrc1 : Value src1) : Fitting ⟨.store, some (.var name), src1, src2⟩
  | index {dst src1 src2} (hdst : Storage dst) (hsrc1 : Value src1) (hsrc2 : Value src2) :
      Fitting ⟨.index, dst, src1, src2⟩
  | setIndex {dst src1 src2} (hdst : Value dst) (hsrc1 : Value src1) (hsrc2 : Value src2) :
      Fitting ⟨.setIndex, dst, src1, src2⟩
  | array {dst src1 src2} (hdst : Storage dst) (hsrc1 : Count src1) : Fitting ⟨.array, dst, src1, src2⟩
  | arg {dst src1 src2} (hsrc1 : Value src1) (hsrc2 : Count src2) : Fitting ⟨.arg, dst, src1, src2⟩
  | call {dst name src2} (hdst : dst = none ∨ Storage dst) (hsrc2 : Count src2) :
      Fitting ⟨.call, dst, some (.func name), src2⟩
  | label {name src1 src2} : Fitting ⟨.label, some (.label name), src1, src2⟩
  | jump {name src1 src2} : Fitting ⟨.jump, some (.label name), src1, src2⟩
  | jumpIfFalse {name src1 src2} (hsrc1 : Value src1) : Fitting ⟨.jumpIfFalse, some (.label name), src1, src2⟩
  | ret {dst src1 src2} (hsrc1 : src1 = none ∨ Value src1) : Fitting ⟨.ret, dst, src1, src2⟩
  | exit {dst src1 src2} (hsrc1 : src1 = none ∨ Value src1) : Fitting ⟨.exit, dst, src1, src2⟩

/-- A function with code is sound: its parameters are variables, a temporary has one type wherever it
    stands, each operation gets what it works on, no label is placed twice, and jumps go to labels
    that are placed, be it before them or behind them. -/
structure Func.Sound (f : Func) : Prop where
  params : ∀ p ∈ f.params, ∃ name, p.operand = some (.var name)
  temps : ∀ x ∈ f.code, ∀ y ∈ f.code, ∀ t t', some (.temp t) ∈ x.operands →
    some (.temp t') ∈ y.operands →
    t.id = t'.id → t.ty = t'.ty
  fitting : ∀ x ∈ f.code, x.Fitting
  labels : (Code.labels f.code).Nodup
  targets : ∀ x ∈ f.code, ∀ name, x.target? = some name → name ∈ Code.labels f.code

/-- A program is sound: its functions have different names, external ones have no code, and the
    others are sound. -/
structure Program.Sound (p : Program) : Prop where
  names : (p.funcs.map (·.name)).Nodup
  external : ∀ f ∈ p.funcs, f.isExternal = true → f.code = []
  internal : ∀ f ∈ p.funcs, f.isExternal = false → f.Sound

namespace Demand

variable {role : String} {o : Option Operand}

@[simp] theorem isMet_storage_iff : (storage role o).isMet = true ↔ Storage o :=
  Operand.isStorage_iff

@[simp] theorem isMet_value_iff : (value role o).isMet = true ↔ Value o :=
  Operand.isValue_iff

@[simp] theorem isMet_count_iff : (count role o).isMet = true ↔ Count o :=
  Operand.isCount_iff

@[simp] theorem isMet_var_iff : (var role o).isMet = true ↔ ∃ name, o = some (.var name) := by
  refine ⟨Validity.isMet_var, ?_⟩
  rintro ⟨name, rfl⟩
  rfl

@[simp] theorem isMet_target_iff : (target o).isMet = true ↔ ∃ name, o = some (.label name) := by
  refine ⟨Validity.isMet_target, ?_⟩
  rintro ⟨name, rfl⟩
  rfl

@[simp] theorem isMet_callee_iff : (callee o).isMet = true ↔ ∃ name, o = some (.func name) := by
  constructor
  · intro hmet
    simp only [callee] at hmet
    split at hmet
    · next name => exact ⟨name, rfl⟩
    · cases hmet
  · rintro ⟨name, rfl⟩
    rfl

@[simp] theorem isMet_orAbsent_iff {d : Demand} : d.orAbsent.isMet = true ↔ d.operand = none ∨ d.isMet = true := by
  simp [orAbsent]

end Demand

namespace Validity

/-- The demands of an instruction are met exactly if its operands fit its operation. -/
theorem checkDemands_eq_ok_iff_fitting {x : Instr} : checkDemands x = .ok () ↔ x.Fitting := by
  rw [checkDemands_eq_ok_iff]
  constructor
  · rintro ⟨ds, hdemands, hmet⟩
    obtain ⟨op, dst, src1, src2⟩ := x
    cases op <;> simp only [Instr.demands?, Option.some.injEq, reduceCtorEq] at hdemands <;>
      subst hdemands <;> simp only [List.forall_mem_cons, List.not_mem_nil, false_imp_iff, implies_true, and_true,
        Demand.isMet_storage_iff, Demand.isMet_value_iff, Demand.isMet_count_iff, Demand.isMet_var_iff,
        Demand.isMet_target_iff, Demand.isMet_callee_iff, Demand.isMet_orAbsent_iff] at hmet
    case nop => exact .nop
    case binary => exact .binary hmet.1 hmet.2.1 hmet.2.2
    case compare => exact .compare hmet.1 hmet.2.1 hmet.2.2
    case unary => exact .unary hmet.1 hmet.2
    case move => exact .move hmet.1 hmet.2
    case load =>
      obtain ⟨⟨name, rfl⟩, hdst⟩ := hmet
      exact .load hdst
    case store =>
      obtain ⟨⟨name, rfl⟩, hsrc1⟩ := hmet
      exact .store hsrc1
    case index => exact .index hmet.1 hmet.2.1 hmet.2.2
    case setIndex => exact .setIndex hmet.1 hmet.2.1 hmet.2.2
    case array => exact .array hmet.1 hmet.2
    case arg => exact .arg hmet.1 hmet.2
    case call =>
      obtain ⟨⟨name, rfl⟩, hsrc2, hdst⟩ := hmet
      exact .call hdst hsrc2
    case label =>
      obtain ⟨name, rfl⟩ := hmet
      exact .label
    case jump =>
      obtain ⟨name, rfl⟩ := hmet
      exact .jump
    case jumpIfFalse =>
      obtain ⟨⟨name, rfl⟩, hsrc1⟩ := hmet
      exact .jumpIfFalse hsrc1
    case ret => exact .ret hmet
    case exit => exact .exit hmet
  · intro hfitting
    cases hfitting <;> refine ⟨_, rfl, ?_⟩ <;> simp [*]
    all_goals assumption

theorem accepted_iff_sound {f : Func} : f.Accepted ↔ f.Sound := by
  constructor
  · intro hf
    refine ⟨hf.params, ?_, fun x hx => checkDemands_eq_ok_iff_fitting.mp (hf.demands x hx), hf.labels, hf.targets⟩
    intro x hx y hy t t' ht ht' hid
    rw [hf.temps t t' (List.mem_flatMap.mpr ⟨x, hx, ht⟩) (List.mem_flatMap.mpr ⟨y, hy, ht'⟩) hid]
  · intro hf
    refine ⟨hf.params, fun x hx => checkDemands_eq_ok_iff_fitting.mpr (hf.fitting x hx), ?_, hf.labels, hf.targets⟩
    intro t t' ht ht' hid
    obtain ⟨x, hx, ht⟩ := List.mem_flatMap.mp ht
    obtain ⟨y, hy, ht'⟩ := List.mem_flatMap.mp ht'
    have hty := hf.temps x hx y hy t t' ht ht' hid
    cases t
    cases t'
    exact congrArg₂ Temp.mk hid hty

theorem checkFunc_eq_ok_iff_of_external {f : Func} (hexternal : f.isExternal = true) :
    checkFunc f = .ok () ↔ f.code = [] := by
  simp only [checkFunc, hexternal, if_true]
  cases f.code <;> simp

/-- The kinds of failure that the check reports. -/
def kinds : List FailureKind :=
  [.duplicateDeclaration, .undefinedVariable, .unsupportedConstruct, .invalidOperandKind]

theorem Cause.kind_mem_kinds (c : Cause) : c.kind ∈ kinds := by
  cases c <;> simp [kind, kinds]

end Validity

/-- The check accepts the sound programs and no others, and what it refuses it reports as one of four
    kinds of failure. -/
theorem Program.validate_accepts_sound (p : Program) :
    (p.validate = .ok () ↔ p.Sound) ∧ ∀ e, p.validate = .error e → e.cause.kind ∈ Validity.kinds := by
  refine ⟨?_, fun e _ => e.cause.kind_mem_kinds⟩
  unfold validate
  rw [Validity.checkFuncs_eq_ok_iff]
  constructor
  · rintro ⟨_, hnames, hfuncs⟩
    refine ⟨hnames, fun f hf hexternal => ?_, fun f hf hinternal => ?_⟩
    · exact (Validity.checkFunc_eq_ok_iff_of_external hexternal).mp (hfuncs f hf)
    · exact Validity.accepted_iff_sound.mp ((Validity.checkFunc_eq_ok_iff hinternal).mp (hfuncs f hf))
  · intro hp
    refine ⟨by simp, hp.names, fun f hf => ?_⟩
    cases hexternal : f.isExternal with
    | true => exact (Validity.checkFunc_eq_ok_iff_of_external hexternal).mpr (hp.external f hf hexternal)
    | false =>
      exact (Validity.checkFunc_eq_ok_iff hexternal).mpr
        (Validity.accepted_iff_sound.mpr (hp.internal f hf hexternal))

/-- A jump to a label that is placed behind it, and one to a label that is placed nowhere. -/
theorem Program.validate_accepts_forward :
    let program (target : String) : Program :=
      ⟨[], [⟨"f", [⟨some (.var "n"), .number⟩],
        [⟨.load, some (.temp ⟨0, .number⟩), some (.var "n"), none⟩,
          ⟨.jumpIfFalse, some (.label target), some (.temp ⟨0, .number⟩), none⟩,
          ⟨.unary .inc, some (.temp ⟨0, .number⟩), some (.temp ⟨0, .number⟩), none⟩,
          ⟨.label, some (.label "L0"), none, none⟩, ⟨.ret, none, some (.temp ⟨0, .number⟩), none⟩],
        .number, true, false⟩]⟩
    (program "L0").Sound ∧
      ∃ e, (program "L1").validate = .error e ∧ e.cause.kind ∈ Validity.kinds ∧ ¬ (program "L1").Sound := by
  intro program
  have hforward : (program "L0").validate = .ok () := rfl
  have hnowhere : (program "L1").validate =
      .error ⟨[.func "f"], .undefinedLabel "L1"⟩ := rfl
  refine ⟨(validate_accepts_sound _).1.mp hforward, _, hnowhere, (validate_accepts_sound _).2 _ hnowhere, ?_⟩
  intro hsound
  rw [(validate_accepts_sound _).1.mpr hsound] at hnowhere
  cases hnowhere

end TreeCompiler.Code
