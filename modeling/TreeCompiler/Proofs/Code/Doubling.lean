import TreeCompiler.Proofs.Code.Steps
import TreeCompiler.Proofs.Code.WellFormed

namespace TreeCompiler.Code

/-- Sends the calls of one function to another. -/
def Instr.redirect (name other : String) (x : Instr) : Instr :=
  if x.op = .call ∧ x.src1 = some (.func name) then { x with src1 := some (.func other) } else x

/-- A function under another name that calls another function where it calls itself. -/
def Func.copy (f : Func) (name other : String) : Func :=
  { f with name, code := f.code.map (·.redirect f.name other) }

/-- A name that no function of a program has, made from the name of one. -/
def Program.second (p : Program) (name : String) : String :=
  name ++ String.ofList (List.replicate ((p.funcs.map (·.name.length)).max?.getD 0 + 1) '_')

/-- Each function with code gets a double, and the two call each other where the function calls
    itself. -/
def Program.doubled (p : Program) : Program :=
  { p with
    funcs := p.funcs.flatMap fun f => f.copy f.name (p.second f.name) ::
      if f.isExternal then [] else [f.copy (p.second f.name) f.name] }

namespace Instr

variable {name other : String} {x : Instr}

@[simp] theorem redirect_op : (x.redirect name other).op = x.op := by
  unfold redirect
  split <;> rfl

@[simp] theorem redirect_dst : (x.redirect name other).dst = x.dst := by
  unfold redirect
  split <;> rfl

@[simp] theorem redirect_src2 : (x.redirect name other).src2 = x.src2 := by
  unfold redirect
  split <;> rfl

/-- Only the callee of a call changes. -/
theorem redirect_src1 (hop : x.op ≠ .call) : (x.redirect name other).src1 = x.src1 := by
  rw [redirect, if_neg fun hcall => hop hcall.1]

theorem redirect_callee {callee : String} (hop : x.op = .call) (hcallee : x.src1 = some (.func callee)) :
    (x.redirect name other).src1 = some (.func (if callee = name then other else callee)) := by
  by_cases heq : callee = name
  · rw [redirect, if_pos ⟨hop, heq ▸ hcallee⟩, if_pos heq]
  · rw [redirect, if_neg, if_neg heq, hcallee]
    rintro ⟨_, hname⟩
    rw [hcallee] at hname
    cases hname
    exact heq rfl

theorem label?_redirect : (x.redirect name other).label? = x.label? := by
  simp [label?]

theorem target?_redirect : (x.redirect name other).target? = x.target? := by
  simp [target?]

theorem meets_redirect (hmeets : x.Meets) : (x.redirect name other).Meets := by
  by_cases hop : x.op = .call
  · simp only [Meets, redirect_op, hop, redirect_dst] at hmeets ⊢
    exact hmeets
  · simpa only [Meets, redirect_op, redirect_dst, redirect_src1 hop, redirect_src2] using hmeets

/-- The operands of an instruction are kept, names of functions apart. -/
theorem mem_operands_redirect {o : Operand} (ho : some o ∈ (x.redirect name other).operands) :
    some o ∈ x.operands ∨ o = .func other := by
  unfold redirect at ho
  split at ho
  · simp only [operands, List.mem_cons, Option.some.injEq, List.not_mem_nil, or_false] at ho ⊢
    rcases ho with ho | ho | ho
    · exact .inl (.inl ho)
    · exact .inr ho
    · exact .inl (.inr (.inr ho))
  · exact .inl ho

end Instr

theorem labels_redirect (name other : String) (code : List Instr) :
    labels (code.map (·.redirect name other)) = labels code := by
  rw [labels, List.filterMap_map]
  exact congrArg (List.filterMap · code) (funext fun _ => Instr.label?_redirect)

/-- A redirected call hands over to a function with as many parameters. -/
theorem ArgsFit.redirect {arity arity' : String → Option Nat} {name other : String} {pending : Nat}
    {code : List Instr} (hfit : ArgsFit arity pending code)
    (harity : ∀ callee n, arity callee = some n → arity' (if callee = name then other else callee) = some n) :
    ArgsFit arity' pending (code.map (·.redirect name other)) := by
  induction code generalizing pending with
  | nil => exact hfit
  | cons x code ih =>
    rw [List.map_cons]
    by_cases hpasses : x.op.passesArgs = true
    · cases hop : x.op with
      | arg =>
        simp only [ArgsFit, hop, Instr.redirect_op, Instr.redirect_src2] at hfit ⊢
        exact ⟨hfit.1, ih hfit.2⟩
      | array =>
        simp only [ArgsFit, hop, Instr.redirect_op] at hfit ⊢
        rw [Instr.redirect_src1 (by simp [hop])]
        exact ⟨hfit.1, ih hfit.2⟩
      | call =>
        simp only [ArgsFit, hop, Instr.redirect_op, Instr.redirect_src2] at hfit ⊢
        obtain ⟨hlength, ⟨callee, hcallee, hn⟩, hfit⟩ := hfit
        exact ⟨hlength, ⟨_, Instr.redirect_callee hop hcallee, harity callee _ hn⟩, ih hfit⟩
      | _ => simp [hop, Op.passesArgs] at hpasses
    · rw [Bool.not_eq_true] at hpasses
      obtain ⟨hzero, hfit⟩ := (ArgsFit.of_op hpasses).mp hfit
      exact (ArgsFit.of_op (by simpa using hpasses)).mpr ⟨hzero, ih hfit⟩

/-- The calls of a piece of code are of functions with a known number of parameters. -/
theorem ArgsFit.exists_arity {arity : String → Option Nat} {pending : Nat} {code : List Instr}
    (hfit : ArgsFit arity pending code) {x : Instr} (hx : x ∈ code) (hop : x.op = .call) :
    ∃ callee n, x.src1 = some (.func callee) ∧ arity callee = some n := by
  induction code generalizing pending with
  | nil => cases hx
  | cons y code ih =>
    rcases List.mem_cons.mp hx with rfl | hx
    · simp only [ArgsFit, hop] at hfit
      obtain ⟨_, ⟨callee, hcallee, hn⟩, _⟩ := hfit
      exact ⟨callee, _, hcallee, hn⟩
    · obtain ⟨pending', hfit⟩ : ∃ pending', ArgsFit arity pending' code := by
        simp only [ArgsFit] at hfit
        split at hfit
        · exact ⟨_, hfit.2⟩
        · exact ⟨_, hfit.2.2⟩
        · exact ⟨_, hfit.2⟩
        · exact ⟨_, hfit.2⟩
      exact ih hfit hx

namespace Func

variable {f : Func} {name other : String}

theorem Valid.copy (hf : f.Valid) : (f.copy name other).Valid where
  params := hf.params
  meets x hx := by
    obtain ⟨y, hy, rfl⟩ := List.mem_map.mp hx
    exact Instr.meets_redirect (hf.meets y hy)
  temps t t' ht ht' hid := by
    have hmem : ∀ t : Temp, some (.temp t) ∈ (f.copy name other).code.flatMap (·.operands) →
        some (.temp t) ∈ f.code.flatMap (·.operands) := by
      intro t ht
      obtain ⟨x, hx, ht⟩ := List.mem_flatMap.mp ht
      obtain ⟨y, hy, rfl⟩ := List.mem_map.mp hx
      rcases Instr.mem_operands_redirect ht with ht | ht
      · exact List.mem_flatMap.mpr ⟨y, hy, ht⟩
      · cases ht
    exact hf.temps t t' (hmem t ht) (hmem t' ht') hid
  labels := by
    rw [Func.copy, labels_redirect]
    exact hf.labels
  targets x hx target htarget := by
    obtain ⟨y, hy, rfl⟩ := List.mem_map.mp hx
    rw [Instr.target?_redirect] at htarget
    rw [Func.copy, labels_redirect]
    exact hf.targets y hy target htarget

theorem Shaped.copy {arity arity' : String → Option Nat} (hf : f.Shaped arity)
    (harity : ∀ callee n, arity callee = some n →
      arity' (if callee = f.name then other else callee) = some n) :
    (f.copy name other).Shaped arity' where
  fragment := by
    refine ⟨hf.fragment.args.redirect harity, fun x hx o ho => ?_⟩
    obtain ⟨y, hy, rfl⟩ := List.mem_map.mp hx
    rcases Instr.mem_operands_redirect ho with ho | rfl
    · exact hf.fragment.proper y hy o ho
    · trivial
  params := hf.params
  last := by
    obtain ⟨init, x, hcode, hret⟩ := hf.last
    exact ⟨init.map (·.redirect f.name other), x.redirect f.name other, by simp [Func.copy, hcode],
      by simpa using hret⟩

end Func

namespace Program

variable {p : Program} {f g : Func} {name name' : String}

theorem second_inj (hsecond : p.second name = p.second name') : name = name' := by
  unfold second at hsecond
  exact (String.append_left_inj _).mp hsecond

theorem second_ne (hf : f ∈ p.funcs) : p.second name ≠ f.name := by
  intro hsecond
  have hle : f.name.length ≤ (p.funcs.map (·.name.length)).max?.getD 0 :=
    List.le_max?_getD_of_mem (List.mem_map_of_mem hf)
  have hlength := congrArg String.length hsecond
  simp only [second, String.length_append, String.length_ofList, List.length_replicate] at hlength
  omega

theorem mem_doubled : g ∈ p.doubled.funcs ↔ ∃ f ∈ p.funcs, g = f.copy f.name (p.second f.name) ∨
    f.isExternal = false ∧ g = f.copy (p.second f.name) f.name := by
  simp only [doubled, List.mem_flatMap, List.mem_cons]
  refine exists_congr fun f => and_congr_right fun _ => or_congr_right ?_
  cases f.isExternal <;> simp

/-- The functions of a program and their doubles have different names. -/
theorem nodup_doubled (hnames : (p.funcs.map (·.name)).Nodup) : (p.doubled.funcs.map (·.name)).Nodup := by
  have hnames' : ∀ funcs : List Func, (∀ f ∈ funcs, f ∈ p.funcs) → (funcs.map (·.name)).Nodup →
      (funcs.flatMap fun f => f.name :: if f.isExternal then [] else [p.second f.name]).Nodup := by
    intro funcs hfuncs hnodup
    induction funcs with
    | nil => exact List.nodup_nil
    | cons f funcs ih =>
      rw [List.map_cons, List.nodup_cons] at hnodup
      have hf := hfuncs f List.mem_cons_self
      have hrest := fun g hg => hfuncs g (List.mem_cons_of_mem f hg)
      rw [List.flatMap_cons, List.nodup_append]
      refine ⟨?_, ih hrest hnodup.2, fun a ha b hb hab => ?_⟩
      · split
        · simp
        · simpa using (second_ne hf).symm
      · obtain ⟨g, hg, hb⟩ := List.mem_flatMap.mp hb
        have hne : f.name ≠ g.name := fun heq => hnodup.1 (List.mem_map.mpr ⟨g, hg, heq.symm⟩)
        have ha' : a = f.name ∨ a = p.second f.name := by
          split at ha <;> simp_all
        have hb' : b = g.name ∨ b = p.second g.name := by
          split at hb <;> simp_all
        rcases ha' with rfl | rfl <;> rcases hb' with rfl | rfl
        · exact hne hab
        · exact second_ne hf hab.symm
        · exact second_ne (hrest g hg) hab
        · exact hne (second_inj hab)
  have heq : p.doubled.funcs.map (·.name) =
      p.funcs.flatMap fun f => f.name :: if f.isExternal then [] else [p.second f.name] := by
    simp only [doubled, List.map_flatMap]
    congr 1
    funext f
    cases f.isExternal <;> rfl
  rw [heq]
  exact hnames' p.funcs (fun _ hf => hf) hnames

/-- A function that is called has a copy under the name that is called instead. -/
theorem func?_doubled (hnames : (p.funcs.map (·.name)).Nodup) (hf : f ∈ p.funcs) :
    p.doubled.func? f.name = some (f.copy f.name (p.second f.name)) :=
  func?_of_mem (nodup_doubled hnames) (mem_doubled.mpr ⟨f, hf, .inl rfl⟩)

theorem func?_doubled_second (hnames : (p.funcs.map (·.name)).Nodup) (hf : f ∈ p.funcs)
    (hinternal : f.isExternal = false) :
    p.doubled.func? (p.second f.name) = some (f.copy (p.second f.name) f.name) :=
  func?_of_mem (nodup_doubled hnames) (mem_doubled.mpr ⟨f, hf, .inr ⟨hinternal, rfl⟩⟩)

theorem WellFormed.doubled (hp : p.WellFormed) : p.doubled.WellFormed := by
  have harity : ∀ f ∈ p.funcs, f.isExternal = false → ∀ other, other = f.name ∨ other = p.second f.name →
      ∀ callee n, p.arity callee = some n →
        p.doubled.arity (if callee = f.name then other else callee) = some n := by
    intro f hf hinternal other hother callee n hn
    obtain ⟨g, hg, hlength⟩ := Option.map_eq_some_iff.mp hn
    obtain ⟨hmem, rfl⟩ := mem_of_func? hg
    split
    · next heq =>
      obtain rfl : g = f := by
        have hfound := func?_of_mem hp.names hf
        rw [← heq, func?_of_mem hp.names hmem] at hfound
        exact Option.some.inj hfound
      rcases hother with rfl | rfl
      · rw [arity, func?_doubled hp.names hf]
        exact congrArg some hlength
      · rw [arity, func?_doubled_second hp.names hf hinternal]
        exact congrArg some hlength
    · rw [arity, func?_doubled hp.names hmem]
      exact congrArg some hlength
  refine ⟨nodup_doubled hp.names, fun g hg hexternal => ?_, fun g hg hinternal => ?_,
    fun g hg hinternal => ?_⟩ <;> obtain ⟨f, hf, rfl | ⟨hdouble, rfl⟩⟩ := mem_doubled.mp hg
  · simp [Func.copy, hp.external f hf hexternal]
  · cases hexternal.symm.trans hdouble
  · exact (hp.valid f hf hinternal).copy
  · exact (hp.valid f hf hinternal).copy
  · exact (hp.shaped f hf hinternal).copy (harity f hf hinternal _ (.inr rfl))
  · exact (hp.shaped f hf hinternal).copy (harity f hf hinternal _ (.inl rfl))

end Program

/-- What happens next, with the calls of one function sent to another. -/
def Next.redirect (name other : String) : Next → Next
  | .call callee args dst => .call (if callee = name then other else callee) args dst
  | n => n

section Runs

variable {address : Bytes → Word} {p : Program} {f g : Func} {a : Activation} {o : Outcome} {heap : Heap}

theorem labelIndex?_copy (name other label : String) :
    (f.copy name other).labelIndex? label = f.labelIndex? label := by
  simp [Func.labelIndex?, Func.copy, List.findIdx?_map, Function.comp_def]

/-- A copy does what the function does, calls of itself apart. -/
theorem Activation.next?_copy (name other : String) :
    a.next? address (f.copy name other) = (a.next? address f).map (Next.redirect f.name other) := by
  cases hx : f.code[a.index]? with
  | none => simp [Activation.next?, Func.copy, hx]
  | some x =>
    have hx' : (f.copy name other).code[a.index]? = some (x.redirect f.name other) := by
      simp [Func.copy, hx]
    by_cases hcall : x.op = .call
    · cases hsrc : x.src1 with
      | none =>
        have hsame : x.redirect f.name other = x := if_neg fun hop => by simp [hsrc] at hop
        simp [Activation.next?, hx, hx', hsame, hcall, hsrc]
      | some callee =>
        cases callee with
        | func callee =>
          simp only [Activation.next?, hx, hx', Option.bind_eq_bind, Option.bind_some, Instr.redirect_op,
            Instr.redirect_dst, Instr.redirect_src2, hcall, Instr.redirect_callee hcall hsrc, hsrc]
          split <;> rfl
        | _ =>
          have hsame : x.redirect f.name other = x := if_neg fun hop => by simp [hsrc] at hop
          simp [Activation.next?, hx, hx', hsame, hcall, hsrc]
    · have hsame : x.redirect f.name other = x := if_neg fun hop => hcall hop.1
      have hnext : a.next? address (f.copy name other) = a.next? address f := by
        simp only [Activation.next?, labelIndex?_copy, hx, hx', hsame]
      rw [hnext]
      cases hn : a.next? address f with
      | none => rfl
      | some n =>
        obtain ⟨y, hy, hdoes⟩ := Activation.next?_eq_some_iff.mp hn
        cases hx.symm.trans hy
        cases hdoes with
        | call => exact (hcall rfl).elim
        | _ => rfl

/-- A function of the doubled program that stands for one of the program. -/
def Program.Copies (p : Program) (f g : Func) : Prop :=
  f ∈ p.funcs ∧ f.isExternal = false ∧
    (g = f.copy f.name (p.second f.name) ∨ g = f.copy (p.second f.name) f.name)

/-- What a copy calls stands for what the function calls. -/
theorem Program.Copies.callee (hp : p.WellFormed) (hcopies : p.Copies f g) {name : String} {args : List Word}
    {dst : Option Operand} (hnext : a.next? address g = some (.call name args dst)) {callee : Func}
    (hfunc : p.doubled.func? name = some callee) (hinternal : callee.isExternal = false) :
    ∃ name' callee', a.next? address f = some (.call name' args dst) ∧
      p.func? name' = some callee' ∧ p.Copies callee' callee := by
  obtain ⟨hf, hfinternal, hg⟩ := hcopies
  obtain ⟨own, other, rfl, hother, hback⟩ : ∃ own other, g = f.copy own other ∧
      p.doubled.func? other = some (f.copy other own) ∧ p.Copies f (f.copy other own) := by
    rcases hg with rfl | rfl
    · exact ⟨_, _, rfl, func?_doubled_second hp.names hf hfinternal, hf, hfinternal, .inr rfl⟩
    · exact ⟨_, _, rfl, func?_doubled hp.names hf, hf, hfinternal, .inl rfl⟩
  rw [Activation.next?_copy] at hnext
  obtain ⟨n, hn, hredirect⟩ := Option.map_eq_some_iff.mp hnext
  cases n with
  | call name' args' dst' =>
    obtain ⟨rfl, rfl, rfl⟩ := Next.call.inj hredirect
    obtain ⟨x, hx, hop, hsrc⟩ := Activation.next?_follows hn
    obtain ⟨_, _, hsrc', harity⟩ := (hp.shaped f hf hfinternal).fragment.args.exists_arity hx hop
    cases hsrc.symm.trans hsrc'
    obtain ⟨f', hf', _⟩ := Option.map_eq_some_iff.mp harity
    obtain ⟨hmem, rfl⟩ := mem_of_func? hf'
    refine ⟨f'.name, f', hn, hf', ?_⟩
    by_cases hself : f'.name = f.name
    · obtain rfl : f' = f := by
        rw [hself, func?_of_mem hp.names hf] at hf'
        exact (Option.some.inj hf').symm
      rw [if_pos rfl, hother] at hfunc
      cases hfunc
      exact hback
    · rw [if_neg hself, func?_doubled hp.names hmem] at hfunc
      cases hfunc
      exact ⟨hmem, hinternal, .inl rfl⟩
  | _ => cases hredirect

theorem Program.Copies.start (hcopies : p.Copies f g) (args : List Word) (junk : Store) (heap : Heap) :
    g.start args junk heap = f.start args junk heap := by
  obtain ⟨_, _, rfl | rfl⟩ := hcopies <;> rfl

theorem Program.Copies.params (hcopies : p.Copies f g) : g.params = f.params := by
  obtain ⟨_, _, rfl | rfl⟩ := hcopies <;> rfl

theorem Program.Copies.next? (hcopies : p.Copies f g) :
    ∃ other, a.next? address g = (a.next? address f).map (Next.redirect f.name other) := by
  obtain ⟨_, _, rfl | rfl⟩ := hcopies <;> exact ⟨_, Activation.next?_copy _ _⟩

/-- What a copy does is what the function does, calls apart. -/
theorem Program.Copies.next?_eq (hcopies : p.Copies f g) {n : Next} (hnext : a.next? address g = some n)
    (hn : ∀ name args dst, n ≠ .call name args dst) : a.next? address f = some n := by
  obtain ⟨other, heq⟩ := hcopies.next? 
  rw [heq] at hnext
  obtain ⟨n', hn', rfl⟩ := Option.map_eq_some_iff.mp hnext
  cases n' with
  | call name args dst => exact (hn _ _ _ rfl).elim
  | _ => exact hn'

/-- The runs of a copy are runs of the function. -/
theorem Run.of_doubled (hp : p.WellFormed) (hcopies : p.Copies f g)
    (hrun : Run address (fun _ _ => false) p.doubled g a o heap) :
    Run address (fun _ _ => false) p f a o heap := by
  induction hrun generalizing f with
  | goto hnext _ ih => exact .goto (hcopies.next?_eq hnext (by simp)) (ih hcopies)
  | build base hnext hfresh _ ih => exact .build base (hcopies.next?_eq hnext (by simp)) hfresh (ih hcopies)
  | ret v hnext hv => exact .ret v (hcopies.next?_eq hnext (by simp)) hv
  | halt hnext => exact .halt (hcopies.next?_eq hnext (by simp))
  | stuck hnext =>
    obtain ⟨other, heq⟩ := hcopies.next?
    rw [heq, Option.map_eq_none_iff] at hnext
    exact .stuck hnext
  | call junk hnext hfunc hcode hlength _ _ ihcallee ih =>
    obtain ⟨name, callee, hnext', hfunc', hcallee⟩ := hcopies.callee hp hnext hfunc hcode
    have hrun := ihcallee hcallee
    rw [hcallee.start] at hrun
    exact .call junk hnext' hfunc' hcallee.2.1 (hcallee.params ▸ hlength) hrun (ih hcopies)
  | callHalt junk hnext hfunc hcode hlength hhalt _ ih =>
    obtain ⟨name, callee, hnext', hfunc', hcallee⟩ := hcopies.callee hp hnext hfunc hcode
    have hrun := ih hcallee
    rw [hcallee.start] at hrun
    exact .callHalt junk hnext' hfunc' hcallee.2.1 (hcallee.params ▸ hlength) hhalt hrun

/-- Doubling changes nothing that a function can do. -/
theorem Program.CanEnd.of_doubled (hp : p.WellFormed) (hf : f ∈ p.funcs) (hinternal : f.isExternal = false)
    {args : List Word} (hends : p.doubled.CanEnd address (f.copy f.name (p.second f.name)) args o) :
    p.CanEnd address f args o := by
  obtain ⟨junk, heap, hrun⟩ := hends
  exact ⟨junk, heap, hrun.of_doubled hp ⟨hf, hinternal, .inl rfl⟩⟩

end Runs

end TreeCompiler.Code
