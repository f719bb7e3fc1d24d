import TreeCompiler.Proofs.Code.Meaning

namespace TreeCompiler.Code

namespace Heap

variable {heap heap' heap'' : Heap} {b base : Word} {ws elems : List Word} {bases : List Word}

theorem SameShape.refl (heap : Heap) : heap.SameShape heap :=
  fun _ => rfl

theorem SameShape.symm (hshape : heap.SameShape heap') : heap'.SameShape heap :=
  fun b => (hshape b).symm

theorem SameShape.trans (hshape : heap.SameShape heap') (hshape' : heap'.SameShape heap'') :
    heap.SameShape heap'' :=
  fun b => (hshape b).trans (hshape' b)

theorem SameShape.free (hshape : heap.SameShape heap') (bases : List Word) :
    (heap.free bases).SameShape (heap'.free bases) := by
  intro b
  simp only [Heap.free]
  split
  · rfl
  · exact hshape b

theorem SameShape.exists_some (hshape : heap.SameShape heap') (hb : heap b = some ws) :
    ∃ ws', heap' b = some ws' ∧ ws'.length = ws.length := by
  have hlength := hshape b
  rw [hb] at hlength
  cases hb' : heap' b with
  | none => simp [hb'] at hlength
  | some ws' => exact ⟨ws', rfl, by simpa [hb'] using hlength.symm⟩

@[simp] theorem free_nil (heap : Heap) : heap.free [] = heap := by
  funext b
  simp [free]

theorem free_eq_some_iff : heap.free bases b = some ws ↔ b ∉ bases ∧ heap b = some ws := by
  simp only [free]
  split <;> simp_all

theorem build_eq_some (hb : heap.build base elems b = some ws) :
    b = base ∧ ws = elems ∨ b ≠ base ∧ heap b = some ws := by
  simp only [build] at hb
  split at hb
  · next heq => exact .inl ⟨heq, (Option.some.inj hb).symm⟩
  · next hne => exact .inr ⟨hne, hb⟩

/-- An array that is built and given up again leaves nothing behind. -/
theorem free_build (hfresh : heap base = none) :
    (heap.build base elems).free (base :: bases) = heap.free bases := by
  funext b
  simp only [free, build, List.mem_cons]
  by_cases hb : b = base
  · simp [hb, hfresh]
  · simp [hb]

theorem set?_eq_some_iff {position v : Word} : heap.set? base position v = some heap' ↔
    ∃ ws, heap base = some ws ∧ position.toNat < ws.length ∧
      heap' = heap.build base (ws.set position.toNat v) := by
  simp only [set?, Option.bind_eq_some_iff]
  constructor
  · rintro ⟨ws, hws, hset⟩
    split at hset
    · next hlt => exact ⟨ws, hws, hlt, (Option.some.inj hset).symm⟩
    · cases hset
  · rintro ⟨ws, hws, hlt, rfl⟩
    exact ⟨ws, hws, by rw [if_pos hlt]⟩

theorem SameShape.of_set? {position v : Word} (hset : heap.set? base position v = some heap') :
    heap'.SameShape heap := by
  obtain ⟨ws, hws, _, rfl⟩ := set?_eq_some_iff.mp hset
  intro b
  by_cases hb : b = base
  · simp [build, hb, hws]
  · simp [build, hb]

/-- Each array of one heap is in the other, with the same elements. -/
def Within (heap heap' : Heap) : Prop :=
  ∀ b ws, heap b = some ws → heap' b = some ws

section Within

variable (hwithin : heap.Within heap')
include hwithin

theorem Within.none (hb : heap' b = none) : heap b = none := by
  cases hheap : heap b with
  | none => rfl
  | some ws =>
    rw [hwithin b ws hheap] at hb
    cases hb

theorem Within.build (base : Word) (elems : List Word) : (heap.build base elems).Within (heap'.build base elems) := by
  intro b ws hb
  rcases build_eq_some hb with ⟨rfl, rfl⟩ | ⟨hne, hb⟩
  · simp [Heap.build]
  · simpa [Heap.build, hne] using hwithin b ws hb

theorem Within.free_left (bases : List Word) : (heap.free bases).Within heap' :=
  fun b ws hb => hwithin b ws (free_eq_some_iff.mp hb).2

theorem Within.get? {position v : Word} (hget : heap.get? base position = some v) :
    heap'.get? base position = some v := by
  obtain ⟨ws, hws, hv⟩ := Option.bind_eq_some_iff.mp hget
  exact Option.bind_eq_some_iff.mpr ⟨ws, hwithin base ws hws, hv⟩

theorem Within.set? {position v : Word} (hset : heap.set? base position v = some heap'') :
    ∃ replaced, heap'.set? base position v = some replaced ∧ heap''.Within replaced := by
  obtain ⟨ws, hws, hlt, rfl⟩ := set?_eq_some_iff.mp hset
  exact ⟨_, set?_eq_some_iff.mpr ⟨ws, hwithin base ws hws, hlt, rfl⟩, hwithin.build _ _⟩

end Within

end Heap

theorem UnaryOp.eval_of_within {heap heap' : Heap} (hwithin : heap.Within heap') {op : UnaryOp} {a v : Word}
    (hvalue : op.eval heap a = some v) : op.eval heap' a = some v := by
  cases op with
  | len =>
    obtain ⟨ws, hws, rfl⟩ := Option.map_eq_some_iff.mp hvalue
    exact Option.map_eq_some_iff.mpr ⟨ws, hwithin a ws hws, rfl⟩
  | _ => exact hvalue

end TreeCompiler.Code
