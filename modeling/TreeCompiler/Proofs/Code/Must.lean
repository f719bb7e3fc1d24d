import TreeCompiler.Proofs.Code.Steps

namespace TreeCompiler.Code

/-- Every run of a function from an activation ends, and before that it passes through an activation
    with the property `post` or it ends with an outcome and arrays of which `Q` holds. -/
inductive Must (address : Bytes → Word) (frees : Func → Nat → Bool) (p : Program) :
    Func → Activation → (Activation → Prop) → (Outcome → Heap → Prop) → Prop where
  | here {f : Func} {a : Activation} {post : Activation → Prop} {Q : Outcome → Heap → Prop}
      (hpost : post a) : Must address frees p f a post Q
  | goto {f : Func} {a a' : Activation} {post : Activation → Prop} {Q : Outcome → Heap → Prop}
      (hnext : a.next? address f = some (.goto a')) (hrest : Must address frees p f a' post Q) :
      Must address frees p f a post Q
  | build {f : Func} {a : Activation} {post : Activation → Prop} {Q : Outcome → Heap → Prop}
      {d : Operand} {elems : List Word} (hnext : a.next? address f = some (.build d elems))
      (hroom : ∃ base, a.heap base = none)
      (hrest : ∀ base, a.heap base = none → Must address frees p f (a.stepBuild d base elems) post Q) :
      Must address frees p f a post Q
  | ret {f : Func} {a : Activation} {post : Activation → Prop} {Q : Outcome → Heap → Prop}
      {given : Option Word} (hnext : a.next? address f = some (.ret given))
      (hQ : ∀ v, (∀ w, given = some w → v = w) → Q (.returned v) (a.heap.free a.arrays)) :
      Must address frees p f a post Q
  | halt {f : Func} {a : Activation} {post : Activation → Prop} {Q : Outcome → Heap → Prop} {o : Outcome}
      (hnext : a.next? address f = some (.halt o)) (hQ : Q o a.heap) : Must address frees p f a post Q
  | call {f g : Func} {a : Activation} {post : Activation → Prop} {Q R : Outcome → Heap → Prop}
      {name : String} {args : List Word} {dst : Option Operand}
      (hnext : a.next? address f = some (.call name args dst)) (hfunc : p.func? name = some g)
      (hcode : g.isExternal = false) (hlength : args.length = g.params.length)
      (hcallee : ∀ junk, Must address frees p g (g.start args junk (a.release (frees f a.index)).heap)
        (fun _ => False) R)
      (hrest : ∀ v heap, R (.returned v) heap →
        Must address frees p f ((a.release (frees f a.index)).resume dst v heap) post Q)
      (hhalt : ∀ o heap, o.isHalt = true → R o heap → Q o heap) : Must address frees p f a post Q

namespace Run

variable {address : Bytes → Word} {frees : Func → Nat → Bool} {p : Program} {f : Func} {a : Activation}
  {o : Outcome} {heap : Heap}

section Forward

variable (hrun : Run address frees p f a o heap)
include hrun

theorem of_goto {a' : Activation} (hnext : a.next? address f = some (.goto a')) : Run address frees p f a' o heap := by
  cases hrun with
  | goto hnext' hrest =>
    cases hnext.symm.trans hnext'
    exact hrest
  | _ => simp_all

theorem of_build {d : Operand} {elems : List Word} (hnext : a.next? address f = some (.build d elems)) :
    ∃ base, a.heap base = none ∧ Run address frees p f (a.stepBuild d base elems) o heap := by
  cases hrun with
  | build base hnext' hfresh hrest =>
    cases hnext.symm.trans hnext'
    exact ⟨base, hfresh, hrest⟩
  | _ => simp_all

theorem of_ret {given : Option Word} (hnext : a.next? address f = some (.ret given)) :
    ∃ v, (∀ w, given = some w → v = w) ∧ o = .returned v ∧ heap = a.heap.free a.arrays := by
  cases hrun with
  | ret v hnext' hv =>
    cases hnext.symm.trans hnext'
    exact ⟨v, hv, rfl, rfl⟩
  | _ => simp_all

theorem of_halt {o' : Outcome} (hnext : a.next? address f = some (.halt o')) : o = o' ∧ heap = a.heap := by
  cases hrun <;> simp_all

theorem of_call {g : Func} {name : String} {args : List Word} {dst : Option Operand}
    (hnext : a.next? address f = some (.call name args dst)) (hfunc : p.func? name = some g) :
    ∃ junk, (∃ v heap', Run address frees p g (g.start args junk (a.release (frees f a.index)).heap)
        (.returned v) heap' ∧
          Run address frees p f ((a.release (frees f a.index)).resume dst v heap') o heap) ∨
      o.isHalt = true ∧
        Run address frees p g (g.start args junk (a.release (frees f a.index)).heap) o heap := by
  cases hrun with
  | call junk hnext' hfunc' _ _ hcallee hrest =>
    cases hnext.symm.trans hnext'
    cases hfunc.symm.trans hfunc'
    exact ⟨junk, .inl ⟨_, _, hcallee, hrest⟩⟩
  | callHalt junk hnext' hfunc' _ _ hhalt hcallee =>
    cases hnext.symm.trans hnext'
    cases hfunc.symm.trans hfunc'
    exact ⟨junk, .inr ⟨hhalt, hcallee⟩⟩
  | _ => simp_all

end Forward

end Run

namespace Must

variable {address : Bytes → Word} {frees : Func → Nat → Bool} {p : Program} {f : Func} {a : Activation}
  {post post' : Activation → Prop} {Q Q' : Outcome → Heap → Prop}

/-- What holds from every activation passed through holds from the start. -/
theorem bind (hmust : Must address frees p f a post Q)
    (hpost : ∀ a', post a' → Must address frees p f a' post' Q') (hQ : ∀ o heap, Q o heap → Q' o heap) :
    Must address frees p f a post' Q' := by
  induction hmust with
  | here ha => exact hpost _ ha
  | goto hnext _ ih => exact .goto hnext (ih hpost hQ)
  | build hnext hroom _ ih => exact .build hnext hroom fun base hfresh => ih base hfresh hpost hQ
  | ret hnext hret => exact .ret hnext fun v hv => hQ _ _ (hret v hv)
  | halt hnext hend => exact .halt hnext (hQ _ _ hend)
  | call hnext hfunc hcode hlength hcallee _ hhalt _ ih =>
    exact .call hnext hfunc hcode hlength hcallee (fun v heap hv => ih v heap hv hpost hQ)
      fun o heap ho hend => hQ _ _ (hhalt o heap ho hend)

/-- A function that returns what it calls ends as the called one does. -/
theorem tailCall {g : Func} {name : String} {args : List Word} {t : Temp} {Q : Outcome → Prop}
    (hnext : a.next? address f = some (.call name args (some (.temp t)))) (hfunc : p.func? name = some g)
    (hcode : g.isExternal = false) (hlength : args.length = g.params.length)
    (hret : f.code[a.index + 1]? = some ⟨.ret, none, some (.temp t), none⟩)
    (hcallee : ∀ junk, Must address frees p g (g.start args junk (a.release (frees f a.index)).heap)
      (fun _ => False) fun o _ => Q o) : Must address frees p f a post fun o _ => Q o := by
  refine .call hnext hfunc hcode hlength hcallee (fun v heap hv => ?_) fun _ _ _ ho => ho
  have hindex : ((a.release (frees f a.index)).resume (some (.temp t)) v heap).index = a.index + 1 := by
    cases frees f a.index <;> rfl
  refine .ret (Activation.Does.next? (hindex ▸ hret) .ret) fun w hw => ?_
  have hw : w = v := (hw _ rfl).trans (Store.put_same ..)
  exact hw ▸ hv

/-- There is a run, and all runs end as they must. -/
theorem run (hmust : Must address frees p f a (fun _ => False) Q) :
    (∃ o heap, Run address frees p f a o heap) ∧ ∀ o heap, Run address frees p f a o heap → Q o heap := by
  generalize hnever : (fun _ : Activation => False) = never at hmust
  induction hmust with
  | here ha =>
    subst hnever
    exact ha.elim
  | goto hnext _ ih =>
    obtain ⟨⟨o, heap, hrun⟩, hall⟩ := ih hnever
    exact ⟨⟨o, heap, .goto hnext hrun⟩, fun o heap hrun => hall o heap (hrun.of_goto hnext)⟩
  | build hnext hroom _ ih =>
    obtain ⟨base, hfresh⟩ := hroom
    obtain ⟨⟨o, heap, hrun⟩, _⟩ := ih base hfresh hnever
    refine ⟨⟨o, heap, .build base hnext hfresh hrun⟩, fun o heap hrun => ?_⟩
    obtain ⟨base, hfresh, hrest⟩ := hrun.of_build hnext
    exact (ih base hfresh hnever).2 o heap hrest
  | @ret f a _ _ given hnext hret =>
    refine ⟨⟨_, _, .ret (given.getD 0) hnext (by rintro w rfl; rfl)⟩, fun o heap hrun => ?_⟩
    obtain ⟨v, hv, rfl, rfl⟩ := hrun.of_ret hnext
    exact hret v hv
  | halt hnext hend =>
    refine ⟨⟨_, _, .halt hnext⟩, fun o heap hrun => ?_⟩
    obtain ⟨rfl, rfl⟩ := hrun.of_halt hnext
    exact hend
  | @call f g a post Q R name args dst hnext hfunc hcode hlength _ _ hhalt ihcallee ihrest =>
    refine ⟨?_, fun o heap hrun => ?_⟩
    · obtain ⟨⟨o, heap, hrun⟩, hall⟩ := ihcallee (fun _ => 0) rfl
      cases o with
      | returned v =>
        obtain ⟨⟨o', heap', hrun'⟩, _⟩ := ihrest v heap (hall _ _ hrun) hnever
        exact ⟨o', heap', .call _ hnext hfunc hcode hlength hrun hrun'⟩
      | _ => exact ⟨_, heap, .callHalt _ hnext hfunc hcode hlength rfl hrun⟩
    · obtain ⟨junk, hend⟩ := hrun.of_call hnext hfunc
      rcases hend with ⟨v, heap', hcallee, hrest⟩ | ⟨ho, hcallee⟩
      · have hR := (ihcallee junk rfl).2 _ _ hcallee
        exact (ihrest v heap' hR hnever).2 o heap hrest
      · exact hhalt o heap ho ((ihcallee junk rfl).2 o heap hcallee)

end Must

end TreeCompiler.Code
