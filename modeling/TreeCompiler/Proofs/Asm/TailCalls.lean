import TreeCompiler.Asm.Program
import TreeCompiler.Proofs.Code.Steps
import TreeCompiler.Proofs.Code.Validity

/-!
What runs do behind a call in tail position: they carry its result to a return.
-/

namespace TreeCompiler

open Code

/-- A label is found where it is placed. -/
theorem Code.Func.Valid.labelIndex?_eq {f : Func} (hf : f.Valid) {i : Nat} {x : Instr} {name : String}
    (hx : f.code[i]? = some x) (hlabel : x.label? = some name) : f.labelIndex? name = some i := by
  obtain ⟨hi, rfl⟩ := List.getElem?_eq_some_iff.mp hx
  refine List.findIdx?_eq_some_iff_getElem.mpr ⟨hi, ?_, fun j hj hplaced => ?_⟩
  · exact decide_eq_true (Instr.label?_eq_some_iff.mp hlabel)
  · refine not_mem_labels_take hf.labels hx hlabel (List.mem_filterMap.mpr ⟨f.code[j], ?_, ?_⟩)
    · rw [List.mem_take_iff_getElem]
      exact ⟨j, by omega, rfl⟩
    · exact Instr.label?_eq_some_iff.mpr (of_decide_eq_true hplaced)

/-- A label of valid code has a place. -/
theorem Code.exists_getElem?_of_mem_labels {code : List Instr} {name : String} (hname : name ∈ labels code) :
    ∃ (i : Nat) (x : Instr), code[i]? = some x ∧ x.label? = some name := by
  obtain ⟨x, hx, hlabel⟩ := List.mem_filterMap.mp hname
  obtain ⟨i, hi⟩ := List.mem_iff_getElem?.mp hx
  exact ⟨i, x, hi, hlabel⟩

namespace Code

/-- An instruction leaves the result of a call in its operand, or copies it to another one. -/
inductive Instr.Carries (x : Instr) : Operand → Operand → Prop where
  | stays {o : Operand} (hop : x.op = .nop ∨ x.op = .label) : x.Carries o o
  | jumps {o : Operand} {name : String} (hop : x.op = .jump) (hdst : x.dst = some (.label name)) : x.Carries o o
  | copies {o d : Operand} (hop : x.op = .move ∨ x.op = .load ∨ x.op = .store) (hsrc : x.src1 = some o)
      (hdst : x.dst = some d) : x.Carries o d

/-- A run executes the instructions at some positions, and each of them carries a result on: it is in
    one operand at first and in another one at last. -/
inductive Carried (address : Bytes → Word) (f : Func) :
    List Nat → Activation → Operand → Activation → Operand → Prop where
  | nil {a : Activation} {o : Operand} : Carried address f [] a o a o
  | cons {a a' b : Activation} {o o' d : Operand} {x : Instr} {path : List Nat} (hx : f.code[a.index]? = some x)
      (hcarries : x.Carries o o') (hnext : a.next? address f = some (.goto a'))
      (hrest : Carried address f path a' o' b d) : Carried address f (a.index :: path) a o b d

/-- At a position stands a return of an operand, or one without value. -/
def Func.ReturnsAt (f : Func) (position : Nat) (o : Operand) : Prop :=
  ∃ x, f.code[position]? = some x ∧ x.op = .ret ∧ (x.src1 = none ∨ x.src1 = some o)

variable {address : Bytes → Word} {frees : Func → Nat → Bool} {p : Program} {f : Func} {a a' b : Activation}
  {o o' d : Operand} {x : Instr} {path : List Nat}

/-- What a run does at a carrying instruction. -/
theorem Instr.Carries.goto_cases (hcarries : x.Carries o o') (hx : f.code[a.index]? = some x)
    (hnext : a.next? address f = some (.goto a')) :
    o' = o ∧ (x.op = .nop ∨ x.op = .label) ∧ a' = a.step ∨
    (∃ name i, o' = o ∧ x.op = .jump ∧ x.dst = some (.label name) ∧ f.labelIndex? name = some i ∧
      a' = { a with index := i }) ∨
    (x.op = .move ∨ x.op = .load ∨ x.op = .store) ∧ x.src1 = some o ∧ x.dst = some o' ∧
      a' = a.stepPut o' (a.word address o) := by
  simp only [Activation.next?, hx, Option.bind_eq_bind, Option.bind_some] at hnext
  cases hcarries with
  | stays hop =>
    refine .inl ⟨rfl, hop, ?_⟩
    rcases hop with hop | hop <;> simp only [hop] at hnext <;> cases hnext <;> rfl
  | @jumps name hop hdst =>
    simp only [hop, hdst] at hnext
    obtain ⟨i, hi, heq⟩ := Option.map_eq_some_iff.mp hnext
    cases heq
    exact .inr (.inl ⟨name, i, rfl, hop, hdst, hi, rfl⟩)
  | copies hop hsrc hdst =>
    refine .inr (.inr ⟨hop, hsrc, hdst, ?_⟩)
    rcases hop with hop | hop | hop <;> simp only [hop, hsrc, hdst] at hnext <;> cases hnext <;> rfl

namespace Carried

variable (hcarried : Carried address f path a o b d)
include hcarried

/-- What is carried on is the value that was there at first. -/
theorem word_eq (hvalid : f.Valid) : b.word address d = a.word address o := by
  induction hcarried with
  | nil => rfl
  | @cons a a' b o o' d x path hx hcarries hnext _ ih =>
    rcases hcarries.goto_cases hx hnext with ⟨rfl, _, rfl⟩ | ⟨_, _, rfl, _, _, _, rfl⟩ | ⟨hop, _, hdst, rfl⟩
    · exact ih
    · exact ih
    · have hstorage : Operand.isStorage (some o') = true := by
        rw [← hdst]
        have hmeets := hvalid.meets x (List.mem_of_getElem? hx)
        rcases hop with hop | hop | hop <;> exact (hmeets.parts hop rfl rfl rfl).1
      rw [ih]
      simp [Activation.word, Activation.stepPut, Store.word_of_isStorage _ _ hstorage, Store.put?]

/-- A run that carries a result to a return ends there. -/
theorem run {given : Option Word} {v : Word} (hnext : b.next? address f = some (.ret given))
    (hv : ∀ w, given = some w → v = w) : Run address frees p f a (.returned v) (a.heap.free a.arrays) := by
  induction hcarried with
  | nil => exact .ret v hnext hv
  | cons hx hcarries hgoto _ ih =>
    refine .goto hgoto ?_
    rcases hcarries.goto_cases hx hgoto with ⟨_, _, rfl⟩ | ⟨_, _, _, _, _, _, rfl⟩ | ⟨_, _, _, rfl⟩ <;>
      exact ih hnext

end Carried

end Code

namespace Asm

/-- The labels that are collected stand where they are said to. -/
theorem collectLabels_lookup {code : List Instr} {index : Nat} {labels labels' : List (String × Nat)}
    (hcollect : collectLabels index labels code = .ok labels') {name : String} {target : Nat}
    (hlookup : labels'.lookup name = some target) :
    labels.lookup name = some target ∨
      ∃ (i : Nat) (x : Instr), code[i]? = some x ∧ x.label? = some name ∧ target = index + i := by
  induction code generalizing index labels with
  | nil =>
    cases hcollect
    exact .inl hlookup
  | cons x code ih =>
    have hlater : ∀ (i : Nat) (y : Instr), code[i]? = some y → y.label? = some name →
        target = index + 1 + i → ∃ (i : Nat) (y : Instr), (x :: code)[i]? = some y ∧
          y.label? = some name ∧ target = index + i :=
      fun i y hy hlabel htarget => ⟨i + 1, y, hy, hlabel, by omega⟩
    unfold collectLabels at hcollect
    split at hcollect
    · next name' hop hdst =>
      rcases ih hcollect with hfound | ⟨i, y, hy, hlabel, htarget⟩
      · rw [List.lookup_cons] at hfound
        split at hfound
        · next heq =>
          rw [beq_iff_eq] at heq
          subst heq
          exact .inr ⟨0, x, rfl, Instr.label?_eq_some_iff.mpr ⟨hop, hdst⟩, (Option.some.inj hfound).symm⟩
        · exact .inl hfound
      · exact .inr (hlater i y hy hlabel htarget)
    · cases hcollect
    · rcases ih hcollect with hfound | ⟨i, y, hy, hlabel, htarget⟩
      · exact .inl hfound
      · exact .inr (hlater i y hy hlabel htarget)

variable {address : Bytes → Word} {frees : Func → Nat → Bool} {p : Code.Program} {site : Site} {a : Activation}

section Scan

variable (hvalid : site.func.Valid) (hlabels : collectLabels 0 [] site.func.code = .ok site.labels)
include hvalid hlabels

/-- If the scan says so, a run carries the result to a return, and to one without value if there is
    no result. -/
theorem exists_carried {o : Operand} {result : Option Operand} {steps : Nat}
    (hresult : ∀ r, result = some r → r = o) (hflow : flowsToReturn site steps a.index result = true) :
    ∃ path b d x, Carried address site.func path a o b d ∧ site.func.code[b.index]? = some x ∧ x.op = .ret ∧
      (x.src1 = none ∨ result ≠ none ∧ x.src1 = some d) := by
  induction steps generalizing a o result with
  | zero => cases hflow
  | succ steps ih =>
    unfold flowsToReturn at hflow
    cases hx : site.func.code[a.index]? with
    | none => simp [hx] at hflow
    | some x =>
      have hmeets := hvalid.meets x (List.mem_of_getElem? hx)
      have hstep : ∀ a' o' result', x.Carries o o' → a.next? address site.func = some (.goto a') →
          (result' ≠ none → result ≠ none) → (∀ r, result' = some r → r = o') →
            flowsToReturn site steps a'.index result' = true →
              ∃ path b d x, Carried address site.func path a o b d ∧ site.func.code[b.index]? = some x ∧
                x.op = .ret ∧ (x.src1 = none ∨ result ≠ none ∧ x.src1 = some d) := by
        intro a' o' result' hcarries hnext hnone hresult' hrest
        obtain ⟨path, b, d, y, hcarried, hy, hret, hsrc⟩ := ih hresult' hrest
        exact ⟨_, b, d, y, .cons hx hcarries hnext hcarried, hy, hret, hsrc.imp_right (.imp_left hnone)⟩
      obtain ⟨op, dst, src1, src2⟩ := x
      simp only [hx] at hflow
      cases op <;> simp only [Bool.false_eq_true] at hflow
      case nop => exact hstep _ o _ (.stays (.inl rfl)) (Activation.Does.next? hx .nop) id hresult hflow
      case label => exact hstep _ o _ (.stays (.inr rfl)) (Activation.Does.next? hx .label) id hresult hflow
      case jump =>
        obtain ⟨name, rfl⟩ : ∃ name, dst = some (.label name) := hmeets
        dsimp only at hflow
        split at hflow
        · next target hlookup =>
          rcases collectLabels_lookup hlabels hlookup with hnone | ⟨i, y, hy, hlabel, rfl⟩
          · cases hnone
          · rw [Nat.zero_add] at hflow
            exact hstep { a with index := i } o _ (.jumps rfl rfl)
              (Activation.Does.next? hx (.jump (hvalid.labelIndex?_eq hy hlabel))) id hresult hflow
        · cases hflow
      case ret =>
        refine ⟨[], a, o, _, .nil, hx, rfl, ?_⟩
        cases result with
        | none => exact .inl (by simpa using hflow)
        | some r =>
          obtain rfl := hresult r rfl
          simpa using hflow
      all_goals
        split at hflow
        · cases hflow
        · next hsame =>
          cases result with
          | none => simp at hsame
          | some r =>
            obtain rfl := hresult r rfl
            obtain rfl : src1 = some r := by simpa using hsame
            cases dst with
            | none => cases hmeets.1
            | some d =>
              refine hstep (a.stepPut d (a.word address r)) d _ (.copies (by simp) rfl rfl) ?_ (by simp)
                (fun _ h => (Option.some.inj h).symm) hflow
              exact Activation.Does.next? hx (by constructor)

/-- A value that flows to a return is what the function returns. -/
theorem run_of_flowsToReturn {steps position : Nat} {result : Option Operand}
    (hflow : flowsToReturn site steps position result = true) {v : Word} (hindex : a.index = position)
    (hresult : ∀ d, result = some d → a.word address d = v) :
    Run address frees p site.func a (.returned v) (a.heap.free a.arrays) := by
  subst hindex
  obtain ⟨o, ho⟩ : ∃ o, ∀ r, result = some r → r = o :=
    ⟨result.getD (.var ""), fun r hr => by rw [hr, Option.getD_some]⟩
  obtain ⟨path, b, d, ⟨op, dst, src1, src2⟩, hcarried, hx, rfl, hsrc⟩ := exists_carried hvalid hlabels ho hflow
  refine hcarried.run (Activation.Does.next? hx .ret) fun w hw => ?_
  rcases hsrc with rfl | ⟨hsome, rfl⟩
  · cases hw
  · obtain ⟨r, rfl⟩ := Option.ne_none_iff_exists'.mp hsome
    obtain rfl := ho r rfl
    rw [← hresult r rfl, ← hcarried.word_eq hvalid]
    exact Option.some.inj hw

end Scan

end Asm

end TreeCompiler
