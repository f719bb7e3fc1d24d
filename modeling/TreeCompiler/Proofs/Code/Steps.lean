import TreeCompiler.Proofs.Code.Heap
import TreeCompiler.Proofs.Code.Run

namespace TreeCompiler.Code

variable {address : Bytes → Word} {frees : Func → Nat → Bool} {p : Program} {f : Func} {a : Activation}
  {o : Outcome} {heap : Heap}

/-- What can happen next to an activation. -/
def Next.Follows (f : Func) (a : Activation) : Next → Prop
  | .goto a' => a'.arrays = a.arrays ∧ a'.heap.SameShape a.heap
  | .call name _ _ => ∃ x ∈ f.code, x.op = .call ∧ x.src1 = some (.func name)
  | .halt o => o.isHalt = true
  | _ => True

namespace Activation

/-- What each instruction makes an activation do. -/
inductive Does (address : Bytes → Word) (f : Func) (a : Activation) : Instr → Next → Prop where
  | nop {d l r : Option Operand} : Does address f a ⟨.nop, d, l, r⟩ (.goto a.step)
  | binary {op : BinaryOp} {d l r : Operand} {v : Word}
      (hv : op.eval (a.word address l) (a.word address r) = some v) :
      Does address f a ⟨.binary op, some d, some l, some r⟩ (.goto (a.stepPut d v))
  | trap {op : BinaryOp} {d l r : Operand} (hnone : op.eval (a.word address l) (a.word address r) = none) :
      Does address f a ⟨.binary op, some d, some l, some r⟩ (.halt .trapped)
  | compare {op : CompareOp} {d l r : Operand} : Does address f a ⟨.compare op, some d, some l, some r⟩
      (.goto (a.stepPut d (truth (op.holds (a.word address l) (a.word address r)))))
  | unary {op : UnaryOp} {d s : Operand} {r : Option Operand} {v : Word}
      (hv : op.eval a.heap (a.word address s) = some v) :
      Does address f a ⟨.unary op, some d, some s, r⟩ (.goto (a.stepPut d v))
  | move {d s : Operand} {r : Option Operand} :
      Does address f a ⟨.move, some d, some s, r⟩ (.goto (a.stepPut d (a.word address s)))
  | load {d s : Operand} {r : Option Operand} :
      Does address f a ⟨.load, some d, some s, r⟩ (.goto (a.stepPut d (a.word address s)))
  | store {d s : Operand} {r : Option Operand} :
      Does address f a ⟨.store, some d, some s, r⟩ (.goto (a.stepPut d (a.word address s)))
  | index {d l r : Operand} {v : Word} (hv : a.heap.get? (a.word address l) (a.word address r) = some v) :
      Does address f a ⟨.index, some d, some l, some r⟩ (.goto (a.stepPut d v))
  | setIndex {d l r : Operand} {heap : Heap}
      (hset : a.heap.set? (a.word address d) (a.word address l) (a.word address r) = some heap) :
      Does address f a ⟨.setIndex, some d, some l, some r⟩ (.goto { a.step with heap })
  | array {d : Operand} {n r : Option Operand} (hn : Operand.isLength n a.args.length = true) :
      Does address f a ⟨.array, some d, n, r⟩ (.build d a.args)
  | arg {s : Operand} {d n : Option Operand} (hn : Operand.isLength n a.args.length = true) :
      Does address f a ⟨.arg, d, some s, n⟩ (.goto { a.step with args := a.args ++ [a.word address s] })
  | call {name : String} {d n : Option Operand} (hn : Operand.isLength n a.args.length = true) :
      Does address f a ⟨.call, d, some (.func name), n⟩ (.call name a.args d)
  | label {d l r : Option Operand} : Does address f a ⟨.label, d, l, r⟩ (.goto a.step)
  | jump {name : String} {l r : Option Operand} {i : Nat} (hi : f.labelIndex? name = some i) :
      Does address f a ⟨.jump, some (.label name), l, r⟩ (.goto { a with index := i })
  | taken {name : String} {s : Operand} {r : Option Operand} {i : Nat} (hzero : a.word address s = 0)
      (hi : f.labelIndex? name = some i) :
      Does address f a ⟨.jumpIfFalse, some (.label name), some s, r⟩ (.goto { a with index := i })
  | passed {name : String} {s : Operand} {r : Option Operand} (hne : a.word address s ≠ 0) :
      Does address f a ⟨.jumpIfFalse, some (.label name), some s, r⟩ (.goto a.step)
  | ret {d s r : Option Operand} : Does address f a ⟨.ret, d, s, r⟩ (.ret (s.map (a.word address)))
  | exit {s : Operand} {d r : Option Operand} :
      Does address f a ⟨.exit, d, some s, r⟩ (.halt (.exited (a.word address s)))
  | exitZero {d r : Option Operand} : Does address f a ⟨.exit, d, none, r⟩ (.halt (.exited 0))

/-- `Does` lists what the code can do next: one rule for each case of `next?`. -/
theorem next?_eq_some_iff {n : Next} :
    a.next? address f = some n ↔ ∃ x, f.code[a.index]? = some x ∧ a.Does address f x n := by
  rw [next?, Option.bind_eq_bind, Option.bind_eq_some_iff]
  refine exists_congr fun x => and_congr_right fun _ => ⟨fun hnext => ?_, fun hdoes => ?_⟩
  · obtain ⟨op, dst, src1, src2⟩ := x
    dsimp only at hnext
    split at hnext
    · cases hnext
      exact .nop
    · split at hnext
      · next hv =>
        cases hnext
        exact .binary hv
      · next hnone =>
        cases hnext
        exact .trap hnone
    · cases hnext
      exact .compare
    · obtain ⟨v, hv, rfl⟩ := Option.map_eq_some_iff.mp hnext
      exact .unary hv
    · cases hnext
      exact .move
    · cases hnext
      exact .load
    · cases hnext
      exact .store
    · obtain ⟨v, hv, rfl⟩ := Option.map_eq_some_iff.mp hnext
      exact .index hv
    · obtain ⟨heap, hset, rfl⟩ := Option.map_eq_some_iff.mp hnext
      exact .setIndex hset
    · obtain ⟨hn, hnext⟩ := Option.ite_none_right_eq_some.mp hnext
      cases hnext
      exact .array hn
    · obtain ⟨hn, hnext⟩ := Option.ite_none_right_eq_some.mp hnext
      cases hnext
      exact .arg hn
    · obtain ⟨hn, hnext⟩ := Option.ite_none_right_eq_some.mp hnext
      cases hnext
      exact .call hn
    · cases hnext
      exact .label
    · obtain ⟨i, hi, rfl⟩ := Option.map_eq_some_iff.mp hnext
      exact .jump hi
    · split at hnext
      · next hzero =>
        obtain ⟨i, hi, rfl⟩ := Option.map_eq_some_iff.mp hnext
        exact .taken hzero hi
      · next hne =>
        cases hnext
        exact .passed hne
    · cases hnext
      exact .ret
    · cases hnext
      exact .exit
    · cases hnext
      exact .exitZero
    · cases hnext
  · cases hdoes with
    | passed hne => exact if_neg hne
    | _ => simp [*]

theorem Does.next? {x : Instr} {n : Next} (hx : f.code[a.index]? = some x) (hdoes : a.Does address f x n) :
    a.next? address f = some n :=
  next?_eq_some_iff.mpr ⟨x, hx, hdoes⟩

theorem next?_follows {n : Next} (hnext : a.next? address f = some n) : n.Follows f a := by
  obtain ⟨x, hx, hdoes⟩ := next?_eq_some_iff.mp hnext
  cases hdoes with
  | setIndex hset => exact ⟨rfl, .of_set? hset⟩
  | call => exact ⟨_, List.mem_of_getElem? hx, rfl, rfl⟩
  | trap | exit | exitZero => rfl
  | array | ret => trivial
  | _ => exact ⟨rfl, .refl _⟩

@[simp] theorem stepPut_store (a : Activation) (o : Operand) (v : Word) :
    (a.stepPut (some o) v).store = a.store.put o v := rfl

end Activation

/-- What a function built ends with it, and what else exists keeps its shape. -/
theorem Run.sameShape {v : Word} (hrun : Run address frees p f a (.returned v) heap) :
    heap.SameShape (a.heap.free a.arrays) := by
  generalize ho : Outcome.returned v = o at hrun
  induction hrun generalizing v with
  | @goto f a a' o heap hnext _ ih =>
    obtain ⟨harrays, hshape⟩ := Activation.next?_follows hnext
    exact harrays ▸ (ih ho).trans (hshape.free a'.arrays)
  | build base _ hfresh _ ih =>
    rw [← Heap.free_build hfresh]
    exact ih ho
  | ret => exact .refl _
  | halt hnext =>
    subst ho
    cases Activation.next?_follows hnext
  | stuck => cases ho
  | @call f g a _ _ dst v heap o heap' _ _ _ _ _ _ _ ihcallee ih =>
    have hcallee := ihcallee rfl
    rw [Func.start, Heap.free_nil] at hcallee
    have hrest := ih ho
    have hreleased : ((a.release (frees f a.index)).heap.free (a.release (frees f a.index)).arrays) =
        a.heap.free a.arrays := by
      cases frees f a.index with
      | true => exact Heap.free_nil _
      | false => rfl
    rw [← hreleased]
    exact hrest.trans (hcallee.free _)
  | callHalt _ _ _ _ _ hhalt =>
    subst ho
    cases hhalt

end TreeCompiler.Code
