import TreeCompiler.Proofs.Code.Steps

namespace TreeCompiler.Code

variable {address : Bytes → Word} {p : Program} {f : Func} {a b : Activation}
  {o : Outcome} {heap : Heap}

/-- An activation like another one that knows some of its arrays only. -/
structure Activation.Below (b a : Activation) : Prop where
  index : b.index = a.index
  store : b.store = a.store
  args : b.args = a.args
  heap : b.heap.Within a.heap
  arrays : ∀ base ∈ a.arrays, b.heap base ≠ none → base ∈ b.arrays

/-- The same happens next, with the arrays of each activation. -/
def Next.Below : Next → Next → Prop
  | .goto b, .goto a => b.Below a
  | n', n => n' = n

section Below

variable (hbelow : b.Below a)
include hbelow

theorem Activation.Below.step : b.step.Below a.step :=
  ⟨congrArg (· + 1) hbelow.index, hbelow.store, hbelow.args, hbelow.heap, hbelow.arrays⟩

theorem Activation.Below.stepPut (d : Option Operand) (v : Word) : (b.stepPut d v).Below (a.stepPut d v) :=
  ⟨congrArg (· + 1) hbelow.index, congrArg (·.put? d v) hbelow.store, hbelow.args, hbelow.heap, hbelow.arrays⟩

theorem Activation.Below.jump (i : Nat) : Below { b with index := i } { a with index := i } :=
  ⟨rfl, hbelow.store, hbelow.args, hbelow.heap, hbelow.arrays⟩

theorem Activation.Below.setIndex {base position v : Word} {heap : Heap}
    (hset : b.heap.set? base position v = some heap) :
    ∃ heap', a.heap.set? base position v = some heap' ∧ Below { b.step with heap } { a.step with heap := heap' } := by
  obtain ⟨heap', hset', hwithin⟩ := hbelow.heap.set? hset
  refine ⟨heap', hset', hbelow.step.index, hbelow.store, hbelow.args, hwithin, fun base hbase hsome => ?_⟩
  refine hbelow.arrays base hbase fun hnone => hsome ?_
  simpa [hnone] using Heap.SameShape.of_set? hset base

/-- What an activation that knows fewer arrays can do, the other one can do too. -/
theorem Activation.Below.does {x : Instr} {n' : Next} (hdoes : b.Does address f x n') :
    ∃ n, a.Does address f x n ∧ n'.Below n := by
  have hword : b.word address = a.word address := congrArg (Store.word address) hbelow.store
  have hargs := hbelow.args
  cases hdoes with
  | nop => exact ⟨_, .nop, hbelow.step⟩
  | binary hv => exact ⟨_, .binary (hword ▸ hv), hbelow.stepPut _ _⟩
  | trap hnone => exact ⟨_, .trap (hword ▸ hnone), rfl⟩
  | compare => exact ⟨_, .compare, hword ▸ hbelow.stepPut _ _⟩
  | unary hv => exact ⟨_, .unary (UnaryOp.eval_of_within hbelow.heap (hword ▸ hv)), hbelow.stepPut _ _⟩
  | move => exact ⟨_, .move, hword ▸ hbelow.stepPut _ _⟩
  | load => exact ⟨_, .load, hword ▸ hbelow.stepPut _ _⟩
  | store => exact ⟨_, .store, hword ▸ hbelow.stepPut _ _⟩
  | index hv => exact ⟨_, .index (hbelow.heap.get? (hword ▸ hv)), hbelow.stepPut _ _⟩
  | setIndex hset =>
    obtain ⟨heap', hset', hbelow'⟩ := hbelow.setIndex hset
    exact ⟨_, .setIndex (hword ▸ hset'), hbelow'⟩
  | array hn => exact ⟨_, .array (hargs ▸ hn), hargs ▸ rfl⟩
  | arg hn =>
    refine ⟨_, .arg (hargs ▸ hn), hbelow.step.index, hbelow.store, ?_, hbelow.heap, hbelow.arrays⟩
    rw [hargs, hword]
  | call hn => exact ⟨_, .call (hargs ▸ hn), hargs ▸ rfl⟩
  | label => exact ⟨_, .label, hbelow.step⟩
  | jump hi => exact ⟨_, .jump hi, hbelow.jump _⟩
  | taken hzero hi => exact ⟨_, .taken (hword ▸ hzero) hi, hbelow.jump _⟩
  | passed hne => exact ⟨_, .passed (hword ▸ hne), hbelow.step⟩
  | ret => exact ⟨_, .ret, hword ▸ rfl⟩
  | exit => exact ⟨_, .exit, hword ▸ rfl⟩
  | exitZero => exact ⟨_, .exitZero, rfl⟩

theorem Activation.Below.next? {n' : Next} (hnext : b.next? address f = some n') :
    ∃ n, a.next? address f = some n ∧ n'.Below n := by
  obtain ⟨x, hx, hdoes⟩ := next?_eq_some_iff.mp hnext
  obtain ⟨n, hdoes', hnbelow⟩ := hbelow.does hdoes
  exact ⟨n, hdoes'.next? (hbelow.index ▸ hx), hnbelow⟩

theorem Activation.Below.next?_of_some {n : Next} (hnext : a.next? address f = some n) :
    b.next? address f = none ∨ ∃ n', b.next? address f = some n' ∧ n'.Below n := by
  cases hb : b.next? address f with
  | none => exact .inl rfl
  | some n' =>
    obtain ⟨_, hn, hnbelow⟩ := hbelow.next? hb
    cases hnext.symm.trans hn
    exact .inr ⟨n', rfl, hnbelow⟩

theorem Activation.Below.next?_eq {n : Next} (hnext : a.next? address f = some n) (hn : ∀ a', n ≠ .goto a') :
    b.next? address f = none ∨ b.next? address f = some n := by
  rcases hbelow.next?_of_some hnext with hnone | ⟨n', hnext', hnbelow⟩
  · exact .inl hnone
  · have heq : n' = n := by
      cases n with
      | goto a' => exact (hn a' rfl).elim
      | _ => cases n' <;> exact hnbelow
    exact .inr (heq ▸ hnext')

/-- Fewer arrays are left when a function that knows fewer arrays returns. -/
theorem Activation.Below.free : (b.heap.free b.arrays).Within (a.heap.free a.arrays) := by
  intro base ws hbase
  obtain ⟨hout, hsome⟩ := Heap.free_eq_some_iff.mp hbase
  refine Heap.free_eq_some_iff.mpr ⟨fun hown => hout (hbelow.arrays base hown ?_), hbelow.heap base ws hsome⟩
  simp [hsome]

theorem Activation.Below.build (d : Operand) (base : Word) (elems : List Word) :
    (b.stepBuild d base elems).Below (a.stepBuild d base elems) := by
  refine ⟨(hbelow.stepPut d base).index, (hbelow.stepPut d base).store, rfl, hbelow.heap.build base elems,
    fun base' hbase hsome => ?_⟩
  by_cases heq : base' = base
  · exact heq ▸ List.mem_cons_self
  · refine List.mem_cons_of_mem _ (hbelow.arrays base' ((List.mem_cons.mp hbase).resolve_left heq) ?_)
    simpa [stepBuild, Heap.build, heq] using hsome

/-- A function called by one that knows fewer arrays knows fewer arrays. -/
theorem Activation.Below.start (frees : Bool) (args : List Word) (junk : Store) :
    (f.start args junk (b.release frees).heap).Below (f.start args junk a.heap) := by
  refine ⟨rfl, rfl, rfl, ?_, fun base hbase _ => by cases hbase⟩
  cases frees with
  | true => exact hbelow.heap.free_left b.arrays
  | false => exact hbelow.heap

/-- After the call, too. -/
theorem Activation.Below.resume {frees : Bool} {heap heap' : Heap} (hshape : heap'.SameShape (b.release frees).heap)
    (hwithin : heap'.Within heap) (dst : Option Operand) (v : Word) :
    ((b.release frees).resume dst v heap').Below (a.resume dst v heap) := by
  have hindex : (b.release frees).index = a.index := by
    cases frees <;> exact hbelow.index
  have hstore : (b.release frees).store = a.store := by
    cases frees <;> exact hbelow.store
  refine ⟨congrArg (· + 1) hindex, congrArg (·.put? dst v) hstore, rfl, hwithin, fun base hbase hsome => ?_⟩
  have hreleased : (b.release frees).heap base ≠ none := fun hnone => hsome (by
    simpa [Activation.resume, hnone] using hshape base)
  cases frees with
  | true =>
    obtain ⟨ws, hws⟩ := Option.ne_none_iff_exists'.mp hreleased
    obtain ⟨hout, hws⟩ := Heap.free_eq_some_iff.mp hws
    exact (hout (hbelow.arrays base hbase (by simp [hws]))).elim
  | false => exact hbelow.arrays base hbase hreleased

end Below

/-- A run without early ends of arrays can be followed with them, as long as no array is used that
    is gone. -/
theorem Run.freeing (hrun : Run address (fun _ _ => false) p f a o heap) (hbelow : b.Below a)
    (frees : Func → Nat → Bool) :
    ∃ o' heap', Run address frees p f b o' heap' ∧ (o' = .stuck ∨ o' = o ∧ heap'.Within heap) := by
  induction hrun generalizing b with
  | goto hnext _ ih =>
    rcases hbelow.next?_of_some hnext with hnone | ⟨n', hnext', hnbelow⟩
    · exact ⟨.stuck, b.heap, .stuck hnone, .inl rfl⟩
    · cases n' with
      | goto b' =>
        obtain ⟨o', heap', hrest, hend⟩ := ih hnbelow
        exact ⟨o', heap', .goto hnext' hrest, hend⟩
      | _ => cases hnbelow
  | @build f a d elems o heap base hnext hfresh _ ih =>
    rcases hbelow.next?_eq hnext (by simp) with hnone | hnext'
    · exact ⟨.stuck, b.heap, .stuck hnone, .inl rfl⟩
    · obtain ⟨o', heap', hrest, hend⟩ := ih (hbelow.build d base elems)
      exact ⟨o', heap', .build base hnext' (hbelow.heap.none hfresh) hrest, hend⟩
  | @ret f a given v hnext hv =>
    rcases hbelow.next?_eq hnext (by simp) with hnone | hnext'
    · exact ⟨.stuck, b.heap, .stuck hnone, .inl rfl⟩
    · exact ⟨.returned v, _, .ret v hnext' hv, .inr ⟨rfl, hbelow.free⟩⟩
  | @halt f a o hnext =>
    rcases hbelow.next?_eq hnext (by simp) with hnone | hnext'
    · exact ⟨.stuck, b.heap, .stuck hnone, .inl rfl⟩
    · exact ⟨o, _, .halt hnext', .inr ⟨rfl, hbelow.heap⟩⟩
  | stuck hnext =>
    cases hb : b.next? address _ with
    | none => exact ⟨.stuck, b.heap, .stuck hb, .inl rfl⟩
    | some n' =>
      obtain ⟨_, hn, _⟩ := hbelow.next? hb
      cases hnext.symm.trans hn
  | @call f g a name args dst v heap o heap' junk hnext hfunc hcode hlength _ _ ihcallee ih =>
    rcases hbelow.next?_eq hnext (by simp) with hnone | hnext'
    · exact ⟨.stuck, b.heap, .stuck hnone, .inl rfl⟩
    · obtain ⟨o₁, heap₁, hcallee, rfl | ⟨rfl, hwithin⟩⟩ :=
        ihcallee (hbelow.start (frees f b.index) args junk)
      · exact ⟨.stuck, heap₁, .callHalt junk hnext' hfunc hcode hlength rfl hcallee, .inl rfl⟩
      · have hshape := hcallee.sameShape
        rw [Func.start, Heap.free_nil] at hshape
        obtain ⟨o₂, heap₂, hrest, hend⟩ := ih (hbelow.resume hshape hwithin dst v)
        exact ⟨o₂, heap₂, .call junk hnext' hfunc hcode hlength hcallee hrest, hend⟩
  | @callHalt f g a name args dst o heap junk hnext hfunc hcode hlength hhalt _ ih =>
    rcases hbelow.next?_eq hnext (by simp) with hnone | hnext'
    · exact ⟨.stuck, b.heap, .stuck hnone, .inl rfl⟩
    · obtain ⟨o₁, heap₁, hcallee, hend⟩ := ih (hbelow.start (frees f b.index) args junk)
      have hhalt₁ : o₁.isHalt = true := by
        rcases hend with rfl | ⟨rfl, _⟩
        · rfl
        · exact hhalt
      exact ⟨o₁, heap₁, .callHalt junk hnext' hfunc hcode hlength hhalt₁ hcallee, hend⟩

/-- An outcome of a function is also one with early ends of arrays, unless those get it stuck. -/
theorem Program.CanEnd.freeing {args : List Word} (hends : p.CanEnd address f args o)
    (frees : Func → Nat → Bool) :
    p.CanEndFreeing address frees f args o ∨ p.CanEndFreeing address frees f args .stuck := by
  obtain ⟨junk, heap, hrun⟩ := hends
  have hbelow : (f.start args junk .empty).Below (f.start args junk .empty) :=
    ⟨rfl, rfl, rfl, fun _ _ hb => hb, fun _ hbase _ => hbase⟩
  obtain ⟨o', heap', hrun', rfl | ⟨rfl, _⟩⟩ := hrun.freeing hbelow frees
  · exact .inr ⟨junk, heap', hrun'⟩
  · exact .inl ⟨junk, heap', hrun'⟩

end TreeCompiler.Code
