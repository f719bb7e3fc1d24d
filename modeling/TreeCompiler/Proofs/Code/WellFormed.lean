import TreeCompiler.Proofs.Code.Validity

namespace TreeCompiler.Code

/-- The operations that hand over or take values. -/
def Op.passesArgs : Op → Bool
  | .arg | .call | .array => true
  | _ => false

/-- Values are handed over right before the call or array that takes them, in order and as many as
    it takes. -/
def ArgsFit (arity : String → Option Nat) : Nat → List Instr → Prop
  | pending, [] => pending = 0
  | pending, x :: xs =>
    match x.op with
    | .arg => Operand.isLength x.src2 pending = true ∧ ArgsFit arity (pending + 1) xs
    | .call => Operand.isLength x.src2 pending = true ∧
        (∃ name, x.src1 = some (.func name) ∧ arity name = some pending) ∧ ArgsFit arity 0 xs
    | .array => Operand.isLength x.src1 pending = true ∧ ArgsFit arity 0 xs
    | _ => pending = 0 ∧ ArgsFit arity 0 xs

namespace ArgsFit

variable {arity : String → Option Nat} {pending : Nat} {x : Instr} {xs ys : List Instr}

theorem of_op (hop : x.op.passesArgs = false) :
    ArgsFit arity pending (x :: xs) ↔ pending = 0 ∧ ArgsFit arity 0 xs := by
  cases hx : x.op <;> simp_all [ArgsFit, Op.passesArgs]

theorem append (hxs : ArgsFit arity pending xs) (hys : ArgsFit arity 0 ys) :
    ArgsFit arity pending (xs ++ ys) := by
  induction xs generalizing pending with
  | nil =>
    cases hxs
    exact hys
  | cons x xs ih =>
    by_cases hop : x.op.passesArgs = true
    · cases hx : x.op <;> simp only [hx, Op.passesArgs, Bool.false_eq_true] at hop <;>
        simp only [List.cons_append, ArgsFit, hx] at hxs ⊢
      case arg => exact ⟨hxs.1, ih hxs.2⟩
      case call => exact ⟨hxs.1, hxs.2.1, ih hxs.2.2⟩
      case array => exact ⟨hxs.1, ih hxs.2⟩
    · rw [Bool.not_eq_true] at hop
      rw [of_op hop] at hxs
      rw [List.cons_append, of_op hop]
      exact ⟨hxs.1, ih hxs.2⟩

theorem mono {arity' : String → Option Nat} (hfit : ArgsFit arity pending xs)
    (harity : ∀ name n, arity name = some n → arity' name = some n) : ArgsFit arity' pending xs := by
  induction xs generalizing pending with
  | nil => exact hfit
  | cons x xs ih =>
    by_cases hop : x.op.passesArgs = true
    · cases hx : x.op <;> simp only [hx, Op.passesArgs, Bool.false_eq_true] at hop <;>
        simp only [ArgsFit, hx] at hfit ⊢
      case arg => exact ⟨hfit.1, ih hfit.2⟩
      case call =>
        obtain ⟨hlength, ⟨name, hname, hn⟩, hrest⟩ := hfit
        exact ⟨hlength, ⟨name, hname, harity name _ hn⟩, ih hrest⟩
      case array => exact ⟨hfit.1, ih hfit.2⟩
    · rw [Bool.not_eq_true] at hop
      rw [of_op hop] at hfit ⊢
      exact ⟨hfit.1, ih hfit.2⟩

end ArgsFit

/-- Temporaries are counted from zero, literals are of a known kind, and labels are none of those
    that mark the ends of a function. -/
def Operand.Proper : Operand → Prop
  | .temp t => 0 ≤ t.id
  | .const c => ∀ kind, c ≠ .unknown kind
  | .label name => name ≠ "entry" ∧ name ≠ "exit"
  | .var _ => True
  | .func _ => True

/-- A piece of code in which values are handed over as they are taken and all operands are
    proper. -/
structure Fragment (arity : String → Option Nat) (code : List Instr) : Prop where
  args : ArgsFit arity 0 code
  proper : ∀ x ∈ code, ∀ o, some o ∈ x.operands → o.Proper

namespace Fragment

variable {arity : String → Option Nat} {x : Instr} {xs ys : List Instr}

theorem nil : Fragment arity [] :=
  ⟨rfl, fun x hx => by simp at hx⟩

theorem append (hxs : Fragment arity xs) (hys : Fragment arity ys) : Fragment arity (xs ++ ys) := by
  refine ⟨hxs.args.append hys.args, fun x hx => ?_⟩
  rcases List.mem_append.mp hx with hx | hx
  · exact hxs.proper x hx
  · exact hys.proper x hx

theorem mono {arity' : String → Option Nat} (hxs : Fragment arity xs)
    (harity : ∀ name n, arity name = some n → arity' name = some n) : Fragment arity' xs :=
  ⟨hxs.args.mono harity, hxs.proper⟩

theorem singleton (hop : x.op.passesArgs = false) (hproper : ∀ o, some o ∈ x.operands → o.Proper) :
    Fragment arity [x] := by
  refine ⟨(ArgsFit.of_op hop).mpr ⟨rfl, rfl⟩, fun y hy => ?_⟩
  rw [List.mem_singleton] at hy
  exact hy ▸ hproper

end Fragment

/-- The operands of a function: those of its parameters, then those of its code. -/
def Func.operands (f : Func) : List (Option Operand) :=
  f.params.map (·.operand) ++ f.code.flatMap (·.operands)

variable {f : Func} {x : Instr} {p : Program}

theorem Func.mem_operands_of_instr {o : Option Operand} (hx : x ∈ f.code)
    (ho : o ∈ x.operands) : o ∈ f.operands :=
  List.mem_append_right _ (List.mem_flatMap.mpr ⟨x, hx, ho⟩)

theorem Instr.dst_mem (hx : x ∈ f.code) : x.dst ∈ f.operands :=
  Func.mem_operands_of_instr hx (by simp [operands])

theorem Instr.src1_mem (hx : x ∈ f.code) : x.src1 ∈ f.operands :=
  Func.mem_operands_of_instr hx (by simp [operands])

theorem Instr.src2_mem (hx : x ∈ f.code) : x.src2 ∈ f.operands :=
  Func.mem_operands_of_instr hx (by simp [operands])

theorem Func.mem_operands_of_param {p : Param} (hp : p ∈ f.params) :
    p.operand ∈ f.operands :=
  List.mem_append_left _ (List.mem_map_of_mem hp)

/-- The number of parameters of a program's function. -/
def Program.arity (p : Program) (name : String) : Option Nat :=
  (p.func? name).map (·.params.length)

/-- A function as it comes from a tree: its code is a fragment that ends with a return, and its
    parameters are different places. -/
structure Func.Shaped (arity : String → Option Nat) (f : Func) : Prop where
  fragment : Fragment arity f.code
  params : (f.params.map (·.operand)).Nodup
  last : ∃ init x, f.code = init ++ [x] ∧ x.op = .ret

/-- What code generation relies on: the functions have different names, external ones have no
    code, and the others are valid and shaped as they come from a tree. -/
structure Program.WellFormed (p : Program) : Prop where
  names : (p.funcs.map (·.name)).Nodup
  external : ∀ f ∈ p.funcs, f.isExternal = true → f.code = []
  valid : ∀ f ∈ p.funcs, f.isExternal = false → f.Valid
  shaped : ∀ f ∈ p.funcs, f.isExternal = false → f.Shaped p.arity

/-- Parameters are variables. -/
theorem Func.Valid.var_of_param (hf : f.Valid) {o : Operand}
    (ho : some o ∈ f.params.map (·.operand)) : ∃ name, o = .var name := by
  obtain ⟨q, hq, heq⟩ := List.mem_map.mp ho
  obtain ⟨name, hname⟩ := hf.params q hq
  rw [hname] at heq
  cases heq
  exact ⟨name, rfl⟩

theorem Program.WellFormed.proper (hp : p.WellFormed) (hf : f ∈ p.funcs)
    (hexternal : f.isExternal = false) {o : Operand} (ho : some o ∈ f.operands) : o.Proper := by
  rcases List.mem_append.mp ho with ho | ho
  · obtain ⟨name, rfl⟩ := (hp.valid f hf hexternal).var_of_param ho
    trivial
  · obtain ⟨x, hx, ho⟩ := List.mem_flatMap.mp ho
    exact (hp.shaped f hf hexternal).fragment.proper x hx o ho

/-- With different names, a function is found by its name. -/
theorem Program.func?_of_mem (hnames : (p.funcs.map (·.name)).Nodup)
    (hf : f ∈ p.funcs) : p.func? f.name = some f := by
  unfold func?
  induction hfuncs : p.funcs generalizing p with
  | nil => simp [hfuncs] at hf
  | cons g funcs ih =>
    rw [hfuncs, List.map_cons, List.nodup_cons] at hnames
    rw [hfuncs] at hf
    rcases List.mem_cons.mp hf with rfl | hf
    · simp
    · have hne : g.name ≠ f.name := fun heq => hnames.1 (List.mem_map.mpr ⟨f, hf, heq.symm⟩)
      rw [List.find?_cons_of_neg (by simpa using hne)]
      exact ih (p := ⟨p.consts, funcs⟩) hnames.2 hf rfl

theorem Program.mem_of_func? {name : String} (hf : p.func? name = some f) :
    f ∈ p.funcs ∧ f.name = name := by
  unfold func? at hf
  exact ⟨List.mem_of_find?_eq_some hf, by simpa using List.find?_some hf⟩

end TreeCompiler.Code
