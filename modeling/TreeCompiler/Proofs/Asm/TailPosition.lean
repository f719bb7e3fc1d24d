import Mathlib.Data.Finset.Card
import TreeCompiler.Proofs.Asm.Success
import TreeCompiler.Proofs.Asm.TailCalls

/-!
Which calls are in tail position. The scan that decides it follows the code and a limited number of
steps; here it is compared with runs, which follow no limit.
-/

namespace TreeCompiler

namespace Code

variable {address : Bytes → Word} {f : Func} {a a' b b' c c' : Activation} {o o' d d' : Operand} {x : Instr}
  {path path' : List Nat}

namespace Instr.Carries

theorem not_returnsAt {i : Nat} (hcarries : x.Carries o o') (hx : f.code[i]? = some x) : ¬ f.ReturnsAt i d := by
  rintro ⟨y, hy, hret, _⟩
  cases hx.symm.trans hy
  cases hcarries with
  | stays hop => rcases hop with hop | hop <;> simp [hop] at hret
  | jumps hop => simp [hop] at hret
  | copies hop => rcases hop with hop | hop | hop <;> simp [hop] at hret

/-- Where a carrying instruction goes does not depend on what the operands hold. -/
theorem index_eq {q q' : Operand} (hcarries : x.Carries o o') (hcarries' : x.Carries q q')
    (hx : f.code[a.index]? = some x) (hsame : a.index = c.index) (hnext : a.next? address f = some (.goto a'))
    (hnext' : c.next? address f = some (.goto c')) : a'.index = c'.index := by
  rcases hcarries.goto_cases hx hnext with ⟨_, hop, rfl⟩ | ⟨name, i, _, hop, hdst, hi, rfl⟩ |
      ⟨hop, _, _, rfl⟩ <;>
    rcases hcarries'.goto_cases (hsame ▸ hx) hnext' with
      ⟨_, hop', rfl⟩ | ⟨name', i', _, hop', hdst', hi', rfl⟩ | ⟨hop', _, _, rfl⟩ <;>
    simp_all [Activation.step, Activation.stepPut]

end Instr.Carries

namespace Carried

variable (hcarried : Carried address f path a o b d)
include hcarried

/-- A run that comes to a return does so by way of every place that can be reached from where it
    starts. -/
theorem exists_rest (hreturns : f.ReturnsAt b'.index d') (hcarried' : Carried address f path' c o' b' d')
    (hsame : a.index = c.index) :
    ∃ rest q e, path' = path ++ rest ∧ q.index = b.index ∧ Carried address f rest q e b' d' := by
  induction hcarried generalizing path' c o' with
  | nil => exact ⟨path', c, o', rfl, hsame.symm, hcarried'⟩
  | cons hx hcarries hnext _ ih =>
    cases hcarried' with
    | nil => exact absurd (hsame ▸ hreturns) (hcarries.not_returnsAt hx)
    | cons hx' hcarries' hnext' hrest' =>
      rw [← hsame, hx] at hx'
      cases hx'
      obtain ⟨rest, q, e, rfl, hq, hrest⟩ := ih hrest' (hcarries.index_eq hcarries' hx hsame hnext hnext')
      exact ⟨rest, q, e, by rw [hsame, List.cons_append], hq, hrest⟩

/-- From one position there is one way to a return. -/
theorem path_unique (hreturns : f.ReturnsAt b.index d) (hcarried' : Carried address f path' c o' b' d')
    (hreturns' : f.ReturnsAt b'.index d') (hsame : a.index = c.index) : path' = path := by
  obtain ⟨rest, q, e, rfl, hq, hrest⟩ := hcarried.exists_rest hreturns' hcarried' hsame
  cases hrest with
  | nil => exact List.append_nil path
  | cons hx hcarries => exact absurd (hq ▸ hreturns) (hcarries.not_returnsAt hx)

/-- A run that goes round in a circle comes to no return. -/
theorem not_returnsAt_of_circle {circle : List Nat} (hcircle : Carried address f circle b d c o') (hne : circle ≠ [])
    (hsame : c.index = b.index) (hcarried' : Carried address f path' a o b' d') : ¬ f.ReturnsAt b'.index d' := by
  intro hreturns
  obtain ⟨rest, q, e, _, hq, hrest⟩ := hcarried.exists_rest hreturns hcarried' rfl
  obtain ⟨rest', q', e', rfl, hq', hrest'⟩ := hcircle.exists_rest hreturns hrest hq.symm
  have hpath := path_unique hrest hreturns hrest' hreturns (hq.trans (hsame.symm.trans hq'.symm))
  exact hne (List.append_left_eq_self.mp hpath.symm)

/-- A run passes through each of its positions. -/
theorem exists_suffix {i : Nat} (hi : i ∈ path) :
    ∃ c o' rest, (i :: rest) <:+ path ∧ c.index = i ∧ Carried address f (i :: rest) c o' b d := by
  induction hcarried with
  | nil => cases hi
  | @cons a a' b o o' d x path hx hcarries hnext hrest ih =>
    rcases List.mem_cons.mp hi with rfl | hi
    · exact ⟨a, o, _, List.suffix_refl _, rfl, .cons hx hcarries hnext hrest⟩
    · obtain ⟨c, o'', rest, hsuffix, hindex, hcarried⟩ := ih hi
      exact ⟨c, o'', rest, hsuffix.trans (List.suffix_cons _ _), hindex, hcarried⟩

/-- A run that comes to a return passes no position twice. -/
theorem nodup (hreturns : f.ReturnsAt b.index d) : path.Nodup := by
  induction hcarried with
  | nil => exact List.nodup_nil
  | cons hx hcarries hnext hrest ih =>
    refine List.nodup_cons.mpr ⟨fun hagain => ?_, ih hreturns⟩
    -- From the second time on the run would be as long as from the first time on.
    obtain ⟨c, o'', rest, hsuffix, hindex, hcarried⟩ := hrest.exists_suffix hagain
    have hpath := path_unique (.cons hx hcarries hnext hrest) hreturns hcarried hreturns hindex.symm
    have hlength := hsuffix.length_le
    rw [hpath, List.length_cons] at hlength
    omega

theorem lt_length {i : Nat} (hi : i ∈ path) : i < f.code.length := by
  induction hcarried with
  | nil => cases hi
  | cons hx _ _ _ ih =>
    rcases List.mem_cons.mp hi with rfl | hi
    · exact (List.getElem?_eq_some_iff.mp hx).1
    · exact ih hi

/-- A run that comes to a return is shorter than the code. -/
theorem length_lt (hreturns : f.ReturnsAt b.index d) : path.length < f.code.length := by
  have hlast : b.index ∉ path := fun hmem => by
    obtain ⟨c, o', rest, _, hindex, hcarried'⟩ := hcarried.exists_suffix hmem
    cases path_unique hcarried' hreturns .nil hreturns hindex
  have hsubset : (b.index :: path).toFinset ⊆ Finset.range f.code.length := by
    intro i hi
    rw [List.mem_toFinset] at hi
    rw [Finset.mem_range]
    rcases List.mem_cons.mp hi with rfl | hi
    · obtain ⟨x, hx, _⟩ := hreturns
      exact (List.getElem?_eq_some_iff.mp hx).1
    · exact hcarried.lt_length hi
  have hcard := Finset.card_le_card hsubset
  rw [List.toFinset_card_of_nodup (List.nodup_cons.mpr ⟨hlast, hcarried.nodup hreturns⟩), Finset.card_range,
    List.length_cons] at hcard
  omega

end Carried

/-- What a run does at a return of its result. -/
theorem Func.ReturnsAt.next? (address : Bytes → Word) (hreturns : f.ReturnsAt a.index o) :
    ∃ v, a.next? address f = some (.ret v) ∧ (v = none ∨ v = some (a.word address o)) := by
  obtain ⟨x, hx, hop, hsrc⟩ := hreturns
  refine ⟨x.src1.map (a.word address), by simp [Activation.next?, hx, hop], ?_⟩
  rcases hsrc with hsrc | hsrc <;> simp [hsrc]

end Code

namespace Asm

open Code

/-- Every label that is placed is collected. -/
theorem collectLabels_isSome {code : List Instr} {index : Nat} {labels labels' : List (String × Nat)}
    (hcollect : collectLabels index labels code = .ok labels') {name : String}
    (hname : name ∈ Code.labels code ∨ (labels.lookup name).isSome = true) :
    (labels'.lookup name).isSome = true := by
  induction code generalizing index labels with
  | nil =>
    cases hcollect
    exact hname.resolve_left (by simp [Code.labels])
  | cons x code ih =>
    unfold collectLabels at hcollect
    split at hcollect
    · next name' hop hdst =>
      refine ih hcollect ?_
      have hlabel : x.label? = some name' := Code.Instr.label?_eq_some_iff.mpr ⟨hop, hdst⟩
      rw [Code.labels, List.filterMap_cons_some hlabel, List.mem_cons] at hname
      rw [List.lookup_cons]
      split
      · exact .inr rfl
      · next hne => exact hname.imp_left fun h => h.resolve_left (by simpa using hne)
    · cases hcollect
    · next hop _ =>
      refine ih hcollect (hname.imp_left fun h => ?_)
      have hlabel : x.label? = none :=
        Option.eq_none_iff_forall_ne_some.mpr fun name' hname' => hop (Code.Instr.label?_eq_some_iff.mp hname').1
      rwa [Code.labels, List.filterMap_cons_none hlabel] at h

variable {address : Bytes → Word} {site : Site} {a b : Activation} {o d : Operand} {path : List Nat}

section Scan

variable (hvalid : site.func.Valid) (hlabels : collectLabels 0 [] site.func.code = .ok site.labels)
include hvalid hlabels

/-- A label that is placed is found where runs find it. -/
theorem lookup_eq_labelIndex? {name : String} (hname : name ∈ Code.labels site.func.code) :
    site.labels.lookup name = site.func.labelIndex? name := by
  obtain ⟨target, htarget⟩ := Option.isSome_iff_exists.mp (collectLabels_isSome hlabels (.inl hname))
  rcases collectLabels_lookup hlabels htarget with hnone | ⟨i, x, hx, hlabel, rfl⟩
  · cases hnone
  · rw [htarget, Nat.zero_add, hvalid.labelIndex?_eq hx hlabel]

/-- If the scan says so, a run carries the result to a return of it. -/
theorem exists_returnsAt {steps : Nat} (hflow : flowsToReturn site steps a.index (some o) = true) :
    ∃ path b d, Carried address site.func path a o b d ∧ site.func.ReturnsAt b.index d := by
  obtain ⟨path, b, d, x, hcarried, hx, hret, hsrc⟩ :=
    exists_carried hvalid hlabels (fun r hr => (Option.some.inj hr).symm) hflow
  exact ⟨path, b, d, hcarried, x, hx, hret, hsrc.imp_right (·.2)⟩

/-- A run that carries the result to a return is found by the scan, if it makes enough steps. -/
theorem flowsToReturn_of_carried (hcarried : Carried address site.func path a o b d)
    (hreturns : site.func.ReturnsAt b.index d) {steps : Nat} (hsteps : path.length < steps) :
    flowsToReturn site steps a.index (some o) = true := by
  induction hcarried generalizing steps with
  | nil =>
    obtain ⟨steps, rfl⟩ := Nat.exists_eq_succ_of_ne_zero (Nat.ne_of_gt hsteps)
    obtain ⟨x, hx, hop, hsrc⟩ := hreturns
    simp only [flowsToReturn, hx, hop]
    rcases hsrc with hsrc | hsrc <;> simp [hsrc]
  | @cons a a' b o o' d x path hx hcarries hnext _ ih =>
    obtain ⟨steps, rfl⟩ := Nat.exists_eq_succ_of_ne_zero (Nat.ne_of_gt (Nat.zero_lt_of_lt hsteps))
    have hrest : flowsToReturn site steps a'.index (some o') = true := ih hreturns (by simpa using hsteps)
    simp only [flowsToReturn, hx]
    rcases hcarries.goto_cases hx hnext with ⟨rfl, hop, rfl⟩ | ⟨name, i, rfl, hop, hdst, hi, rfl⟩ |
      ⟨hop, hsrc, hdst, rfl⟩
    · rcases hop with hop | hop <;> simpa only [hop, Activation.step] using hrest
    · have hplaced := hvalid.targets x (List.mem_of_getElem? hx) name (by simp [Instr.target?, hop, hdst])
      simpa only [hop, hdst, lookup_eq_labelIndex? hvalid hlabels hplaced, hi] using hrest
    · rcases hop with hop | hop | hop <;> simpa [hop, hsrc, hdst, Activation.stepPut] using hrest

/-- In code that passes the check, a call is in tail position exactly if the run behind it executes
    nothing but instructions that carry its result on and comes to a return of it, or to one without
    value. -/
theorem isTailCall_iff {i : Nat} (hindex : a.index = i + 1) :
    isTailCall site i (some o) = true ↔
      ∃ path b d, Carried address site.func path a o b d ∧ site.func.ReturnsAt b.index d := by
  rw [isTailCall, ← hindex]
  refine ⟨exists_returnsAt hvalid hlabels, ?_⟩
  rintro ⟨path, b, d, hcarried, hreturns⟩
  have hlength := hcarried.length_lt hreturns
  exact flowsToReturn_of_carried hvalid hlabels hcarried hreturns (by omega)

end Scan

/-- No call is in tail position where there is no code. -/
theorem flowsToReturn_eq_false (hcode : site.func.code = []) (steps position : Nat) (result : Option Operand) :
    flowsToReturn site steps position result = false := by
  cases steps <;> simp [flowsToReturn, hcode]

/-- Tail position in a function that passes the check, for a result in a temporary or a variable. -/
theorem tail_position_exact {f : Func} (hvalid : f.validate = .ok ()) :
    ∃ labels, collectLabels 0 [] f.code = .ok labels ∧ ∀ (frame : Frame) (i : Nat) (res : Operand),
      Operand.isStorage (some res) = true → ∀ (address : Bytes → Word) (a : Activation), a.index = i + 1 →
        (isTailCall ⟨f, frame, labels⟩ i (some res) = true ↔
          ∃ path b d, Carried address f path a res b d ∧ f.ReturnsAt b.index d) ∧
        (isTailCall ⟨f, frame, labels⟩ i (some res) = true →
          ∃ path b d v, Carried address f path a res b d ∧ path.length < f.code.length ∧
            b.next? address f = some (.ret v) ∧ (v = none ∨ v = some (a.word address res))) ∧
        (∀ steps, flowsToReturn ⟨f, frame, labels⟩ steps (i + 1) (some res) = true →
          isTailCall ⟨f, frame, labels⟩ i (some res) = true) ∧
        ∀ path b d circle c e, Carried address f path a res b d → Carried address f circle b d c e →
          circle ≠ [] → c.index = b.index → isTailCall ⟨f, frame, labels⟩ i (some res) = false := by
  obtain ⟨hexternal, hinternal⟩ := Code.Validity.checkFunc_ok hvalid
  cases hkind : f.isExternal with
  | true =>
    have hcode := hexternal hkind
    refine ⟨[], by rw [hcode]; rfl, fun frame i res _ address a _ => ?_⟩
    have hno : ∀ steps position, flowsToReturn ⟨f, frame, []⟩ steps position (some res) = false :=
      fun steps position => flowsToReturn_eq_false hcode steps position (some res)
    simp only [isTailCall, hno, Code.Func.ReturnsAt, hcode]
    simp
  | false =>
    have hvalid := hinternal hkind
    obtain ⟨labels, hlabels⟩ := collectLabels_ok hvalid.meets 0 []
    refine ⟨labels, hlabels, fun frame i res _ address a hindex => ?_⟩
    have hiff : isTailCall ⟨f, frame, labels⟩ i (some res) = true ↔
        ∃ path b d, Carried address f path a res b d ∧ f.ReturnsAt b.index d :=
      isTailCall_iff hvalid hlabels hindex
    refine ⟨hiff, fun htail => ?_, fun steps hflow => ?_, fun path b d circle c e hcarried hcircle hne hsame => ?_⟩
    · obtain ⟨path, b, d, hcarried, hreturns⟩ := hiff.mp htail
      obtain ⟨v, hnext, hv⟩ := hreturns.next? address
      exact ⟨path, b, d, v, hcarried, hcarried.length_lt hreturns, hnext,
        by rwa [hcarried.word_eq hvalid] at hv⟩
    · rw [← hindex] at hflow
      exact hiff.mpr (exists_returnsAt hvalid hlabels hflow)
    · refine Bool.eq_false_iff.mpr fun htail => ?_
      obtain ⟨path', b', d', hcarried', hreturns⟩ := hiff.mp htail
      exact hcarried.not_returnsAt_of_circle hcircle hne hsame hcarried' hreturns

/-- A function whose first call hands its result over through a variable, a jump forwards and a jump
    back, and whose second call never comes to a return. -/
def relay : Func where
  name := "relay"
  params := []
  code := [
    ⟨.call, some (.temp ⟨0, .number⟩), some (.func "relay"), some (.const (.int 0))⟩,
    ⟨.store, some (.var "x"), some (.temp ⟨0, .number⟩), none⟩,
    ⟨.jump, some (.label "L1"), none, none⟩,
    ⟨.label, some (.label "L0"), none, none⟩,
    ⟨.load, some (.temp ⟨1, .number⟩), some (.var "x"), none⟩,
    ⟨.ret, none, some (.temp ⟨1, .number⟩), none⟩,
    ⟨.label, some (.label "L1"), none, none⟩,
    ⟨.jump, some (.label "L0"), none, none⟩,
    ⟨.call, some (.temp ⟨2, .number⟩), some (.func "relay"), some (.const (.int 0))⟩,
    ⟨.label, some (.label "L2"), none, none⟩,
    ⟨.jump, some (.label "L2"), none, none⟩]
  ret := .number
  isPublic := true
  isExternal := false

/-- The first call is in tail position and its result 5 is returned; the second one is not. -/
theorem relay_tail_position : relay.validate = .ok () ∧ ∃ labels, collectLabels 0 [] relay.code = .ok labels ∧
    isTailCall ⟨relay, {}, labels⟩ 0 (some (.temp ⟨0, .number⟩)) = true ∧
    (∃ path b d v, Carried (fun _ => 0) relay path ⟨1, fun _ => 5, [], .empty, []⟩
      (.temp ⟨0, .number⟩) b d ∧
      path.length < 11 ∧ b.next? (fun _ => 0) relay = some (.ret v) ∧ (v = none ∨ v = some 5)) ∧
    isTailCall ⟨relay, {}, labels⟩ 8 (some (.temp ⟨2, .number⟩)) = false := by
  have hvalid : relay.validate = .ok () := eq_ok_of_toOption (by decide +kernel)
  obtain ⟨labels, hlabels, hexact⟩ := tail_position_exact hvalid
  have htail : isTailCall ⟨relay, {}, labels⟩ 0 (some (.temp ⟨0, .number⟩)) = true := by
    cases hlabels
    decide +kernel
  obtain ⟨_, hruns, _⟩ := hexact {} 0 (.temp ⟨0, .number⟩) rfl (fun _ => 0)
      ⟨1, fun _ => 5, [], .empty, []⟩ rfl
  obtain ⟨_, _, _, hcircle⟩ := hexact {} 8 (.temp ⟨2, .number⟩) rfl (fun _ => 0)
      ⟨9, fun _ => 5, [], .empty, []⟩ rfl
  let behind (i : Nat) : Activation := ⟨i, fun _ => 5, [], .empty, []⟩
  have hlabel : (behind 9).next? (fun _ => 0) relay = some (.goto (behind 10)) := rfl
  have hjump : (behind 10).next? (fun _ => 0) relay = some (.goto (behind 9)) := rfl
  refine ⟨hvalid, labels, hlabels, htail, hruns htail,
    hcircle [] _ _ [9, 10] (behind 9) (.temp ⟨2, .number⟩) .nil ?_ (by simp) rfl⟩
  exact .cons rfl (.stays (.inr rfl)) hlabel (.cons rfl (.jumps rfl rfl) hjump .nil)

end Asm

end TreeCompiler
