import Mathlib.Data.List.Forall2
import Mathlib.Logic.Function.Basic
import TreeCompiler.Proofs.Code.Acceptance

namespace TreeCompiler.Code

/-- Gives variables other names. -/
def Operand.rename (φ : String → String) : Operand → Operand
  | .var name => .var (φ name)
  | o => o

/-- Gives the variables of an instruction other names. -/
def Instr.rename (φ : String → String) (x : Instr) : Instr :=
  ⟨x.op, x.dst.map (·.rename φ), x.src1.map (·.rename φ), x.src2.map (·.rename φ)⟩

/-- Gives the variable of a parameter another name. -/
def Param.rename (φ : String → String) (p : Param) : Param :=
  { p with operand := p.operand.map (·.rename φ) }

/-- Gives the variables of a function other names. -/
def Func.rename (φ : String → String) (f : Func) : Func :=
  { f with params := f.params.map (·.rename φ), code := f.code.map (·.rename φ) }

variable {φ : String → String}

namespace Operand

variable {o : Option Operand}

@[simp] theorem rename_const (c : Const) : (Operand.const c).rename φ = .const c := rfl

@[simp] theorem rename_label (name : String) : (Operand.label name).rename φ = .label name := rfl

@[simp] theorem rename_func (name : String) : (Operand.func name).rename φ = .func name := rfl

theorem rename_injective (hφ : φ.Injective) : (Operand.rename φ).Injective := by
  intro o o' heq
  cases o <;> cases o' <;> simp_all [rename, hφ.eq_iff]

@[simp] theorem isStorage_rename : isStorage (o.map (·.rename φ)) = isStorage o := by
  rcases o with _ | o
  · rfl
  · cases o <;> rfl

@[simp] theorem isValue_rename : isValue (o.map (·.rename φ)) = isValue o := by
  rcases o with _ | o
  · rfl
  · cases o <;> rfl

@[simp] theorem isCount_rename : isCount (o.map (·.rename φ)) = isCount o := by
  rcases o with _ | o
  · rfl
  · cases o <;> rfl

@[simp] theorem isLength_rename {n : Nat} : isLength (o.map (·.rename φ)) n = isLength o n := by
  rcases o with _ | o
  · rfl
  · cases o <;> simp [isLength, rename]

end Operand

namespace Instr

variable {x : Instr}

@[simp] theorem rename_op : (x.rename φ).op = x.op := rfl

@[simp] theorem rename_dst : (x.rename φ).dst = x.dst.map (·.rename φ) := rfl

@[simp] theorem rename_src1 : (x.rename φ).src1 = x.src1.map (·.rename φ) := rfl

@[simp] theorem rename_src2 : (x.rename φ).src2 = x.src2.map (·.rename φ) := rfl

/-- An operand that is no variable is the same under all names. -/
theorem rename_eq_label_iff {o : Option Operand} {name : String} :
    o.map (·.rename φ) = some (.label name) ↔ o = some (.label name) := by
  rcases o with _ | o
  · simp
  · cases o <;> simp [Operand.rename]

theorem label?_rename : (x.rename φ).label? = x.label? := by
  apply Option.ext
  intro name
  rw [label?_eq_some_iff, label?_eq_some_iff, rename_op, rename_dst, rename_eq_label_iff]

theorem target?_rename : (x.rename φ).target? = x.target? := by
  obtain ⟨op, dst, src1, src2⟩ := x
  rcases dst with _ | dst
  · rfl
  · cases dst <;> cases op <;> rfl

/-- Demands are met under all names or under none. -/
theorem demands?_rename :
    (x.rename φ).demands?.map (·.map Demand.isMet) = x.demands?.map (·.map Demand.isMet) := by
  obtain ⟨op, dst, src1, src2⟩ := x
  have hvar : ∀ (role : String) (o : Option Operand),
      (Demand.var role (o.map (·.rename φ))).isMet = (Demand.var role o).isMet := by
    intro role o
    rcases o with _ | o
    · rfl
    · cases o <;> rfl
  have htarget : ∀ o : Option Operand, (Demand.target (o.map (·.rename φ))).isMet = (Demand.target o).isMet := by
    intro o
    rcases o with _ | o
    · rfl
    · cases o <;> rfl
  have hcallee : ∀ o : Option Operand, (Demand.callee (o.map (·.rename φ))).isMet = (Demand.callee o).isMet := by
    intro o
    rcases o with _ | o
    · rfl
    · cases o <;> rfl
  cases op <;>
    simp [demands?, rename, hvar, htarget, hcallee, Demand.storage, Demand.value, Demand.count, Demand.orAbsent]

end Instr

theorem labels_rename (code : List Instr) : labels (code.map (·.rename φ)) = labels code := by
  simp [labels, List.filterMap_map, Instr.label?_rename]

namespace Validity

theorem checkDemands_rename {x : Instr} (hcheck : checkDemands x = .ok ()) :
    checkDemands (x.rename φ) = .ok () := by
  obtain ⟨ds, hds, hmet⟩ := checkDemands_eq_ok_iff.mp hcheck
  have hrename : ((x.rename φ).demands?.map (·.map Demand.isMet)) = some (ds.map Demand.isMet) := by
    rw [Instr.demands?_rename, hds, Option.map_some]
  obtain ⟨ds', hds', hsame⟩ := Option.map_eq_some_iff.mp hrename
  refine checkDemands_eq_ok_iff.mpr ⟨ds', hds', ?_⟩
  have hall : ∀ b ∈ ds.map Demand.isMet, b = true := List.forall_mem_map.mpr hmet
  rw [← hsame] at hall
  exact List.forall_mem_map.mp hall

end Validity

/-- The temporaries of renamed code are those of the code. -/
theorem mem_operands_rename {code : List Instr} {t : Temp} :
    some (.temp t) ∈ (code.map (·.rename φ)).flatMap (·.operands) ↔
      some (.temp t) ∈ code.flatMap (·.operands) := by
  have hmap : (code.map (·.rename φ)).flatMap (·.operands) =
      (code.flatMap (·.operands)).map (Option.map (·.rename φ)) := by
    rw [List.flatMap_map, List.map_flatMap]
    rfl
  rw [hmap, List.mem_map]
  constructor
  · rintro ⟨o, ho, heq⟩
    rcases o with _ | o
    · cases heq
    · cases o <;> simp [Operand.rename] at heq
      rwa [heq] at ho
  · exact fun ht => ⟨_, ht, rfl⟩

/-- The check accepts a function under all names of its variables. -/
theorem Func.Accepted.rename {f : Func} (haccepted : f.Accepted) : (f.rename φ).Accepted where
  params p hp := by
    obtain ⟨q, hq, rfl⟩ := List.mem_map.mp hp
    obtain ⟨name, hname⟩ := haccepted.params q hq
    exact ⟨φ name, by simp [Param.rename, hname, Operand.rename]⟩
  demands x hx := by
    obtain ⟨y, hy, rfl⟩ := List.mem_map.mp hx
    exact Validity.checkDemands_rename (haccepted.demands y hy)
  temps t t' ht ht' := haccepted.temps t t' (mem_operands_rename.mp ht) (mem_operands_rename.mp ht')
  labels := by
    rw [Func.rename, labels_rename]
    exact haccepted.labels
  targets x hx name hname := by
    obtain ⟨y, hy, rfl⟩ := List.mem_map.mp hx
    rw [Instr.target?_rename] at hname
    rw [Func.rename, labels_rename]
    exact haccepted.targets y hy name hname

/-- Two functions are the same but for the names of their variables. -/
def Func.Variant (f f' : Func) : Prop :=
  ∃ φ : String → String, φ.Injective ∧ f' = f.rename φ

/-- Two programs are the same but for the names of the variables of each function. -/
structure Program.Variant (p p' : Program) : Prop where
  consts : p'.consts = p.consts
  funcs : List.Forall₂ Func.Variant p.funcs p'.funcs

theorem names_of_variants {fs fs' : List Func} (hvariants : List.Forall₂ Func.Variant fs fs') :
    fs'.map (·.name) = fs.map (·.name) := by
  induction hvariants with
  | nil => rfl
  | cons hf _ ih =>
    obtain ⟨φ, _, rfl⟩ := hf
    rw [List.map_cons, List.map_cons, ih]
    rfl

namespace Validity

theorem checkFunc_variant {f f' : Func} (hvariant : f.Variant f') (hcheck : checkFunc f = .ok ()) :
    checkFunc f' = .ok () := by
  obtain ⟨φ, _, rfl⟩ := hvariant
  cases hexternal : f.isExternal with
  | true =>
    have hempty : f.code = [] := (checkFunc_ok hcheck).1 hexternal
    have hexternal' : (f.rename φ).isExternal = true := hexternal
    have hempty' : (f.rename φ).code = [] := by rw [Func.rename, hempty, List.map_nil]
    rw [checkFunc, hexternal', hempty']
    rfl
  | false =>
    have hexternal' : (f.rename φ).isExternal = false := hexternal
    rw [checkFunc_eq_ok_iff hexternal] at hcheck
    rw [checkFunc_eq_ok_iff hexternal']
    exact hcheck.rename

theorem checkFunc_variants {fs fs' : List Func} (hvariants : List.Forall₂ Func.Variant fs fs')
    (hcheck : ∀ f ∈ fs, checkFunc f = .ok ()) : ∀ f' ∈ fs', checkFunc f' = .ok () := by
  induction hvariants with
  | nil => simp
  | cons hf _ ih =>
    rw [List.forall_mem_cons] at hcheck ⊢
    exact ⟨checkFunc_variant hf hcheck.1, ih hcheck.2⟩

end Validity

/-- The check accepts a program under all names of its variables. -/
theorem Program.Variant.validate {p p' : Program} (hvariant : p.Variant p') (hvalid : p.validate = .ok ()) :
    p'.validate = .ok () := by
  have hnames := names_of_variants hvariant.funcs
  rw [Program.validate, Validity.checkFuncs_eq_ok_iff] at hvalid ⊢
  obtain ⟨_, hnodup, hfuncs⟩ := hvalid
  exact ⟨by simp, hnames ▸ hnodup, Validity.checkFunc_variants hvariant.funcs hfuncs⟩

end TreeCompiler.Code
