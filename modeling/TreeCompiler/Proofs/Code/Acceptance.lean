import Mathlib.Tactic.Common
import TreeCompiler.Proofs.Code.Validity

namespace TreeCompiler.Code

/-- All that the check demands of a function with code. -/
structure Func.Accepted (f : Func) : Prop where
  params : ∀ p ∈ f.params, ∃ name, p.operand = some (.var name)
  demands : ∀ x ∈ f.code, Validity.checkDemands x = .ok ()
  temps : ∀ t t', some (.temp t) ∈ f.code.flatMap (·.operands) →
    some (.temp t') ∈ f.code.flatMap (·.operands) → t.id = t'.id → t = t'
  labels : (labels f.code).Nodup
  targets : ∀ x ∈ f.code, ∀ name, x.target? = some name → name ∈ Code.labels f.code

namespace Validity

/-- The recorded types are those that a typing of the temporaries gives. -/
def TempTypes.Agrees (temps : TempTypes) (ty : Int → Ty) : Prop :=
  ∀ id τ, temps.lookup id = some τ → τ = ty id

variable {ty : Int → Ty} {seen : Seen} {x : Instr} {code : List Instr}

theorem recordTemps_returns (index : Nat) {temps : TempTypes} {os : List (Option Operand)} (hagrees : temps.Agrees ty)
    (hos : ∀ t, some (.temp t) ∈ os → t.ty = ty t.id) :
    ∃ temps', recordTemps index temps os = .ok temps' ∧ temps'.Agrees ty := by
  induction os generalizing temps with
  | nil => exact ⟨temps, rfl, hagrees⟩
  | cons o os ih =>
    have hrest : ∀ t, some (.temp t) ∈ os → t.ty = ty t.id := fun t ht =>
      hos t (List.mem_cons_of_mem _ ht)
    by_cases ho : ∃ t, o = some (.temp t)
    · obtain ⟨t, rfl⟩ := ho
      have ht := hos t List.mem_cons_self
      simp only [recordTemps]
      cases hlookup : temps.lookup t.id with
      | some τ =>
        dsimp only
        rw [if_pos (by rw [hagrees _ _ hlookup, ht])]
        exact ih hagrees hrest
      | none =>
        apply ih _ hrest
        intro id τ hid
        rw [List.lookup_cons] at hid
        split at hid
        · next heq =>
          cases hid
          rw [ht, beq_iff_eq.mp heq]
        · exact hagrees id τ hid
    · have hskip : recordTemps index temps (o :: os) = recordTemps index temps os := by
        cases o with
        | none => rfl
        | some o =>
          cases o with
          | temp t => exact absurd ⟨t, rfl⟩ ho
          | _ => rfl
      rw [hskip]
      exact ih hagrees hrest

theorem checkInstr_returns (index : Nat) (hagrees : seen.temps.Agrees ty)
    (htemps : ∀ t, some (.temp t) ∈ x.operands → t.ty = ty t.id) (hdemands : checkDemands x = .ok ())
    (hlabel : ∀ name, x.label? = some name → name ∉ seen.labels) :
    ∃ seen', checkInstr index seen x = .ok seen' ∧ seen'.temps.Agrees ty := by
  obtain ⟨temps, hrecord, hagrees'⟩ := recordTemps_returns index hagrees htemps
  have hmet : Located.within (Place.instr index x) ((checkDemands x).mapError .bare) = .ok () := by
    rw [hdemands]
    rfl
  simp only [checkInstr, bind_eq_ok_iff, hrecord, hmet, Except.ok.injEq, exists_eq_left', exists_const, true_and]
  split
  · next name hop hdst =>
    rw [if_neg (hlabel name (Instr.label?_eq_some_iff.mpr ⟨hop, hdst⟩))]
    exact ⟨_, rfl, hagrees'⟩
  · exact ⟨_, rfl, hagrees'⟩
  · exact ⟨_, rfl, hagrees'⟩
  · exact ⟨_, rfl, hagrees'⟩

/-- The check of a piece of code goes through and gathers no jumps but those of the code. -/
theorem checkCode_returns (index : Nat) (hagrees : seen.temps.Agrees ty)
    (htemps : ∀ t, some (.temp t) ∈ code.flatMap (·.operands) → t.ty = ty t.id)
    (hdemands : ∀ x ∈ code, checkDemands x = .ok ()) (hnodup : (labels code).Nodup)
    (hlabels : ∀ name ∈ labels code, name ∉ seen.labels) :
    ∃ seen', checkCode index seen code = .ok seen' ∧
      ∀ name ∈ seen'.jumps, name ∈ seen.jumps ∨ ∃ x ∈ code, x.target? = some name := by
  induction code generalizing index seen with
  | nil => exact ⟨seen, rfl, fun name hname => .inl hname⟩
  | cons x code ih =>
    have hplaced : labels (x :: code) = x.label?.toList ++ labels code := by
      cases hx : x.label? <;> simp [labels, hx]
    rw [hplaced, List.nodup_append] at hnodup
    obtain ⟨_, hnodup, hdisjoint⟩ := hnodup
    rw [hplaced] at hlabels
    obtain ⟨seen₁, hcheck, hagrees₁⟩ := checkInstr_returns index hagrees
      (fun t ht => htemps t (by simp [ht])) (hdemands x List.mem_cons_self)
      (fun name hname => hlabels name (by simp [hname]))
    obtain ⟨_, _, hseen, _, hjumps⟩ := checkInstr_ok hcheck
    have hlabels₁ : ∀ name ∈ labels code, name ∉ seen₁.labels := by
      intro name hname hmem
      rw [hseen] at hmem
      rcases List.mem_append.mp hmem with hmem | hmem
      · exact hdisjoint name hmem name hname rfl
      · exact hlabels name (List.mem_append_right _ hname) hmem
    obtain ⟨seen', hrest, hjumps'⟩ := ih (index + 1) hagrees₁ (fun t ht => htemps t (by simp [ht]))
      (fun y hy => hdemands y (List.mem_cons_of_mem _ hy)) hnodup hlabels₁
    refine ⟨seen', bind_eq_ok_iff.mpr ⟨seen₁, hcheck, hrest⟩, fun name hname => ?_⟩
    rcases hjumps' name hname with hname | ⟨y, hy, hname⟩
    · rw [hjumps] at hname
      rcases List.mem_append.mp hname with hname | hname
      · exact .inr ⟨x, List.mem_cons_self, by simpa using hname⟩
      · exact .inl hname
    · exact .inr ⟨y, List.mem_cons_of_mem _ hy, hname⟩

/-- The demands of the instructions that passed the check. -/
theorem demands_of_checkCode {index : Nat} {seen' : Seen} (hcheck : checkCode index seen code = .ok seen') :
    ∀ x ∈ code, checkDemands x = .ok () := by
  induction code generalizing index seen with
  | nil => simp
  | cons x code ih =>
    simp only [checkCode] at hcheck
    obtain ⟨seen₁, hx, hrest⟩ := bind_eq_ok_iff.mp hcheck
    simp only [checkInstr] at hx
    obtain ⟨_, _, hx⟩ := bind_eq_ok_iff.mp hx
    obtain ⟨_, hdemands, _⟩ := bind_eq_ok_iff.mp hx
    intro y hy
    rcases List.mem_cons.mp hy with rfl | hy
    · exact mapError_eq_ok_iff.mp (mapError_eq_ok_iff.mp hdemands)
    · exact ih hrest y hy

theorem checkFunc_eq_ok_iff {f : Func} (hexternal : f.isExternal = false) :
    checkFunc f = .ok () ↔ f.Accepted := by
  constructor
  · intro hcheck
    have hvalid := (checkFunc_ok hcheck).2 hexternal
    refine ⟨hvalid.params, ?_, hvalid.temps, hvalid.labels, hvalid.targets⟩
    simp only [checkFunc, hexternal, Bool.false_eq_true, if_false] at hcheck
    split at hcheck
    · cases hcheck
    · obtain ⟨seen, hcode, _⟩ := bind_eq_ok_iff.mp hcheck
      exact demands_of_checkCode hcode
  · intro haccepted
    have hparams : f.params.find? (fun p => !(Demand.var "param" p.operand).isMet) = none := by
      rw [List.find?_eq_none]
      intro p hp
      obtain ⟨name, hname⟩ := haccepted.params p hp
      simp [hname, Demand.var]
    -- Temporaries with one number are one temporary, so that numbers determine types.
    have htyping : ∃ ty : Int → Ty, ∀ t, some (.temp t) ∈ f.code.flatMap (·.operands) → t.ty = ty t.id := by
      classical
      refine ⟨fun id => if h : ∃ t, some (.temp t) ∈ f.code.flatMap (·.operands) ∧ t.id = id
        then h.choose.ty else .number, fun t ht => ?_⟩
      have hused : ∃ t', some (.temp t') ∈ f.code.flatMap (·.operands) ∧ t'.id = t.id := ⟨t, ht, rfl⟩
      dsimp only
      rw [dif_pos hused]
      obtain ⟨hmem, hid⟩ := hused.choose_spec
      rw [← haccepted.temps t _ ht hmem hid.symm]
    obtain ⟨ty, hty⟩ := htyping
    have hnothing : Seen.temps {} |>.Agrees ty := by simp [TempTypes.Agrees]
    obtain ⟨seen, hcode, hjumps⟩ := checkCode_returns 0 hnothing hty haccepted.demands haccepted.labels
      (by simp)
    obtain ⟨_, _, _, hlabels, _⟩ := checkCode_ok hcode
    have htargets : seen.jumps.reverse.find? (fun l => !seen.labels.contains l) = none := by
      rw [List.find?_eq_none]
      intro name hname
      rcases hjumps name (List.mem_reverse.mp hname) with hmem | ⟨x, hx, htarget⟩
      · cases hmem
      · simpa [hlabels] using haccepted.targets x hx name htarget
    simp only [checkFunc, hexternal, Bool.false_eq_true, if_false, hparams]
    exact bind_eq_ok_iff.mpr ⟨seen, hcode, by rw [htargets]⟩

theorem checkFuncs_eq_ok_iff {names : List String} {fs : List Func} :
    checkFuncs names fs = .ok () ↔ (∀ f ∈ fs, f.name ∉ names) ∧ (fs.map (·.name)).Nodup ∧
      ∀ f ∈ fs, checkFunc f = .ok () := by
  induction fs generalizing names with
  | nil => simp [checkFuncs]
  | cons f fs ih =>
    have hstep : checkFuncs names (f :: fs) = .ok () ↔
        f.name ∉ names ∧ checkFunc f = .ok () ∧ checkFuncs (f.name :: names) fs = .ok () := by
      simp only [checkFuncs]
      split
      · next hname => simp [hname]
      · next hname =>
        simp only [bind_eq_ok_iff, Located.within, mapError_eq_ok_iff, hname, not_false_eq_true, true_and]
        constructor
        · rintro ⟨_, hf, hrest⟩
          exact ⟨hf, hrest⟩
        · rintro ⟨hf, hrest⟩
          exact ⟨(), hf, hrest⟩
    rw [hstep, ih]
    simp only [List.mem_cons, not_or, forall_eq_or_imp, List.map_cons, List.nodup_cons, List.mem_map]
    constructor
    · rintro ⟨hname, hf, hnames, hnodup, hfs⟩
      have hnew : ¬ ∃ g ∈ fs, g.name = f.name := by
        rintro ⟨g, hg, heq⟩
        exact (hnames g hg).1 heq
      exact ⟨⟨hname, fun g hg => (hnames g hg).2⟩, ⟨hnew, hnodup⟩, hf, hfs⟩
    · rintro ⟨⟨hname, hnames⟩, ⟨hnew, hnodup⟩, hf, hfs⟩
      exact ⟨hname, hf, fun g hg => ⟨fun heq => hnew ⟨g, hg, heq⟩, hnames g hg⟩, hnodup, hfs⟩

end Validity

end TreeCompiler.Code
