import TreeCompiler.Code.Validity
import TreeCompiler.Proofs.Outcome

namespace TreeCompiler.Code

/-- The label that an instruction places. -/
def Instr.label? (x : Instr) : Option String :=
  match x.op, x.dst with
  | .label, some (.label name) => some name
  | _, _ => none

variable {x : Instr} {code : List Instr} {i : Nat}

theorem Instr.label?_eq_some_iff {name : String} :
    x.label? = some name ↔ x.op = .label ∧ x.dst = some (.label name) := by
  unfold label?
  split
  · next hop hdst => simp [hop, hdst]
  · next hne =>
    refine iff_of_false (by simp) fun ⟨hop, hdst⟩ => hne name hop hdst

/-- The label that an instruction may jump to. -/
def Instr.target? (x : Instr) : Option String :=
  match x.op, x.dst with
  | .jump, some (.label name) => some name
  | .jumpIfFalse, some (.label name) => some name
  | _, _ => none

/-- The labels that a piece of code places. -/
def labels (code : List Instr) : List String :=
  code.filterMap Instr.label?

theorem drop_of_getElem? (hx : code[i]? = some x) :
    code.drop i = x :: code.drop (i + 1) := by
  obtain ⟨hi, rfl⟩ := List.getElem?_eq_some_iff.mp hx
  exact List.drop_eq_getElem_cons hi

theorem labels_take_succ (hx : code[i]? = some x) :
    labels (code.take (i + 1)) = labels (code.take i) ++ x.label?.toList := by
  rw [List.take_add_one, hx, labels, List.filterMap_append]
  cases hlabel : x.label? <;> simp [labels, hlabel]

/-- A label is not placed again before the place where it is. -/
theorem not_mem_labels_take {name : String}
    (hnodup : (labels code).Nodup) (hx : code[i]? = some x) (hlabel : x.label? = some name) :
    name ∉ labels (code.take i) := by
  have hsplit : labels code = labels (code.take i) ++ name :: labels (code.drop (i + 1)) := by
    conv => lhs; rw [← List.take_append_drop i code, drop_of_getElem? hx]
    simp [labels, hlabel]
  rw [hsplit, List.nodup_append] at hnodup
  exact fun hmem => hnodup.2.2 name hmem name (by simp) rfl

/-- An instruction is known and its operands are of the kinds it works on. -/
def Instr.Meets (x : Instr) : Prop :=
  match x.op with
  | .nop => True
  | .binary _ | .compare _ | .index =>
    Operand.isStorage x.dst = true ∧ Operand.isValue x.src1 = true ∧ Operand.isValue x.src2 = true
  | .unary _ | .move | .load | .store => Operand.isStorage x.dst = true ∧ Operand.isValue x.src1 = true
  | .setIndex =>
    Operand.isValue x.dst = true ∧ Operand.isValue x.src1 = true ∧ Operand.isValue x.src2 = true
  | .array => Operand.isStorage x.dst = true
  | .arg => Operand.isValue x.src1 = true
  | .call => x.dst = none ∨ Operand.isStorage x.dst = true
  | .label | .jump => ∃ name, x.dst = some (.label name)
  | .jumpIfFalse => (∃ name, x.dst = some (.label name)) ∧ Operand.isValue x.src1 = true
  | .ret | .exit => x.src1 = none ∨ Operand.isValue x.src1 = true
  | .unknown _ => False

/-- The demands of an instruction whose parts are known. -/
theorem Instr.Meets.parts {x : Instr} {op : Op} {d l r : Option Operand} (hmeets : x.Meets) (hop : x.op = op)
    (hdst : x.dst = d) (hsrc1 : x.src1 = l) (hsrc2 : x.src2 = r) :
    Instr.Meets ⟨op, d, l, r⟩ := by
  subst hop hdst hsrc1 hsrc2
  exact hmeets

/-- What the check of a function with code establishes. -/
structure Func.Valid (f : Func) : Prop where
  params : ∀ p ∈ f.params, ∃ name, p.operand = some (.var name)
  meets : ∀ x ∈ f.code, x.Meets
  temps : ∀ t t', some (.temp t) ∈ f.code.flatMap (·.operands) →
    some (.temp t') ∈ f.code.flatMap (·.operands) → t.id = t'.id → t = t'
  labels : (labels f.code).Nodup
  targets : ∀ x ∈ f.code, ∀ name, x.target? = some name → name ∈ Code.labels f.code

namespace Validity

variable {index : Nat} {x : Instr}

theorem recordTemps_ok {temps temps' : TempTypes} {os : List (Option Operand)}
    (hrecord : recordTemps index temps os = .ok temps') :
    (∀ id ty, temps.lookup id = some ty → temps'.lookup id = some ty) ∧
      ∀ t, some (.temp t) ∈ os → temps'.lookup t.id = some t.ty := by
  induction os generalizing temps with
  | nil =>
    cases hrecord
    exact ⟨fun _ _ hlookup => hlookup, fun t ht => by cases ht⟩
  | cons o os ih =>
    by_cases ho : ∃ t, o = some (.temp t)
    · obtain ⟨t, rfl⟩ := ho
      -- The entry of the temporary is there already, or it is added in front.
      have hstep : ∃ temps₁, recordTemps index temps₁ os = .ok temps' ∧
          temps₁.lookup t.id = some t.ty ∧
            ∀ id ty, temps.lookup id = some ty → temps₁.lookup id = some ty := by
        simp only [recordTemps] at hrecord
        cases hlookup : temps.lookup t.id with
        | some ty =>
          simp only [hlookup] at hrecord
          split at hrecord
          · next heq => exact ⟨temps, hrecord, heq ▸ hlookup, fun _ _ hold => hold⟩
          · cases hrecord
        | none =>
          simp only [hlookup] at hrecord
          refine ⟨_, hrecord, by simp, fun id ty hold => ?_⟩
          have hne : (id == t.id) = false := beq_eq_false_iff_ne.mpr fun heq => by
            rw [heq, hlookup] at hold
            cases hold
          rw [List.lookup_cons, hne]
          exact hold
      obtain ⟨temps₁, hrest, hself, hold⟩ := hstep
      obtain ⟨hkeep, hnew⟩ := ih hrest
      refine ⟨fun id ty hid => hkeep id ty (hold id ty hid), fun t' ht' => ?_⟩
      rcases List.mem_cons.mp ht' with heq | hmem
      · cases heq
        exact hkeep _ _ hself
      · exact hnew t' hmem
    · have hrest : recordTemps index temps os = .ok temps' := by
        cases o with
        | none => exact hrecord
        | some o =>
          cases o with
          | temp t => exact absurd ⟨t, rfl⟩ ho
          | _ => exact hrecord
      obtain ⟨hkeep, hnew⟩ := ih hrest
      refine ⟨hkeep, fun t' ht' => ?_⟩
      rcases List.mem_cons.mp ht' with heq | hmem
      · exact absurd ⟨t', heq.symm⟩ ho
      · exact hnew t' hmem

theorem isMet_var {role : String} {o : Option Operand} (hmet : (Demand.var role o).isMet = true) :
    ∃ name, o = some (.var name) := by
  simp only [Demand.var] at hmet
  split at hmet
  · next name => exact ⟨name, rfl⟩
  · cases hmet

theorem isMet_target {o : Option Operand} (hmet : (Demand.target o).isMet = true) :
    ∃ name, o = some (.label name) := by
  simp only [Demand.target] at hmet
  split at hmet
  · next name => exact ⟨name, rfl⟩
  · cases hmet

theorem isMet_orAbsent {d : Demand} (hmet : d.orAbsent.isMet = true) : d.operand = none ∨ d.isMet = true := by
  simpa [Demand.orAbsent] using hmet

theorem checkDemands_eq_ok_iff :
    checkDemands x = .ok () ↔ ∃ ds, x.demands? = some ds ∧ ∀ d ∈ ds, d.isMet = true := by
  unfold checkDemands
  cases x.demands? with
  | none => simp
  | some ds =>
    dsimp only
    cases hfind : ds.find? (fun d => !d.isMet) with
    | none =>
      have hmet : ∀ d ∈ ds, d.isMet = true := by simpa using hfind
      exact iff_of_true rfl ⟨ds, rfl, hmet⟩
    | some d =>
      have hunmet : d.isMet = false := by simpa using List.find?_some hfind
      refine iff_of_false (by rintro ⟨⟩) ?_
      rintro ⟨_, ⟨⟩, hmet⟩
      rw [hmet d (List.mem_of_find?_eq_some hfind)] at hunmet
      cases hunmet

/-- The demands of an instruction say what kinds its operands are of. -/
theorem checkDemands_ok (hcheck : checkDemands x = .ok ()) : x.Meets := by
  obtain ⟨ds, hdemands, hmet⟩ := checkDemands_eq_ok_iff.mp hcheck
  unfold Instr.Meets
  cases hop : x.op <;> simp only [Instr.demands?, hop, Option.some.injEq, reduceCtorEq] at hdemands <;>
    subst hdemands <;> simp only [List.forall_mem_cons, List.not_mem_nil, false_imp_iff, implies_true,
      and_true] at hmet <;> dsimp only
  case binary => exact hmet
  case compare => exact hmet
  case index => exact hmet
  case unary => exact hmet
  case move => exact hmet
  case load =>
    obtain ⟨name, hname⟩ := isMet_var hmet.1
    exact ⟨hmet.2, by rw [hname]; rfl⟩
  case store =>
    obtain ⟨name, hname⟩ := isMet_var hmet.1
    exact ⟨by rw [hname]; rfl, hmet.2⟩
  case setIndex => exact hmet
  case array => exact hmet.1
  case arg => exact hmet.1
  case call => exact isMet_orAbsent hmet.2.2
  case label => exact isMet_target hmet
  case jump => exact isMet_target hmet
  case jumpIfFalse => exact ⟨isMet_target hmet.1, hmet.2⟩
  case ret => exact isMet_orAbsent hmet
  case exit => exact isMet_orAbsent hmet

/-- What one instruction adds to what was gathered from those before it. -/
theorem checkInstr_ok {seen seen' : Seen}
    (hcheck : checkInstr index seen x = .ok seen') :
    x.Meets ∧ recordTemps index seen.temps x.operands = .ok seen'.temps ∧
      seen'.labels = x.label?.toList ++ seen.labels ∧ (seen.labels.Nodup → seen'.labels.Nodup) ∧
        seen'.jumps = x.target?.toList ++ seen.jumps := by
  simp only [checkInstr] at hcheck
  obtain ⟨temps, htemps, hcheck⟩ := bind_eq_ok_iff.mp hcheck
  obtain ⟨_, hdemands, hcheck⟩ := bind_eq_ok_iff.mp hcheck
  have hmeets := checkDemands_ok (mapError_eq_ok_iff.mp (mapError_eq_ok_iff.mp hdemands))
  refine ⟨hmeets, ?_⟩
  split at hcheck
  · next name hop hdst =>
    split at hcheck
    · cases hcheck
    · next hfresh =>
      cases hcheck
      simp [Instr.label?, Instr.target?, hop, hdst, htemps, hfresh]
  · next name hop hdst =>
    cases hcheck
    simp [Instr.label?, Instr.target?, hop, hdst, htemps]
  · next name hop hdst =>
    cases hcheck
    simp [Instr.label?, Instr.target?, hop, hdst, htemps]
  · next hlabel hjump hjumpIfFalse =>
    cases hcheck
    have hno : x.label? = none ∧ x.target? = none := by
      unfold Instr.label? Instr.target?
      constructor
      · split
        · next name hop hdst => exact absurd hdst (hlabel name hop)
        · rfl
      · split
        · next name hop hdst => exact absurd hdst (hjump name hop)
        · next name hop hdst => exact absurd hdst (hjumpIfFalse name hop)
        · rfl
    simp [hno, htemps]

/-- What is gathered from a piece of code. -/
theorem checkCode_ok {seen seen' : Seen} {code : List Instr}
    (hcheck : checkCode index seen code = .ok seen') :
    (∀ x ∈ code, x.Meets) ∧
      (∀ id ty, seen.temps.lookup id = some ty → seen'.temps.lookup id = some ty) ∧
        (∀ t, some (.temp t) ∈ code.flatMap (·.operands) → seen'.temps.lookup t.id = some t.ty) ∧
          seen'.labels = (labels code).reverse ++ seen.labels ∧
            (seen.labels.Nodup → seen'.labels.Nodup) ∧
              ∀ name, (name ∈ seen.jumps ∨ ∃ x ∈ code, x.target? = some name) → name ∈ seen'.jumps := by
  induction code generalizing index seen with
  | nil =>
    cases hcheck
    simp [labels]
  | cons x code ih =>
    simp only [checkCode] at hcheck
    obtain ⟨seen₁, hx, hrest⟩ := bind_eq_ok_iff.mp hcheck
    obtain ⟨hmeets, htemps, hlabels, hnodup, hjumps⟩ := checkInstr_ok hx
    obtain ⟨hkeep, hnew⟩ := recordTemps_ok htemps
    obtain ⟨hmeets', hkeep', hnew', hlabels', hnodup', hjumps'⟩ := ih hrest
    refine ⟨?_, fun id ty hid => hkeep' id ty (hkeep id ty hid), ?_, ?_, fun hold => hnodup' (hnodup hold),
      ?_⟩
    · intro y hy
      rcases List.mem_cons.mp hy with rfl | hy
      · exact hmeets
      · exact hmeets' y hy
    · intro t ht
      rw [List.flatMap_cons] at ht
      rcases List.mem_append.mp ht with ht | ht
      · exact hkeep' _ _ (hnew t ht)
      · exact hnew' t ht
    · rw [hlabels', hlabels]
      cases hlabel : x.label? <;> simp [labels, hlabel]
    · rintro name (hname | ⟨y, hy, hname⟩)
      · exact hjumps' name (.inl (by simp [hjumps, hname]))
      · rcases List.mem_cons.mp hy with rfl | hy
        · exact hjumps' name (.inl (by simp [hjumps, hname]))
        · exact hjumps' name (.inr ⟨y, hy, hname⟩)

theorem checkFunc_ok {f : Func} (hcheck : checkFunc f = .ok ()) :
    (f.isExternal = true → f.code = []) ∧ (f.isExternal = false → f.Valid) := by
  unfold checkFunc at hcheck
  cases hexternal : f.isExternal with
  | true =>
    simp only [hexternal, if_true] at hcheck
    split at hcheck
    · next hempty => exact ⟨fun _ => by simpa using hempty, fun hfalse => by cases hfalse⟩
    · cases hcheck
  | false =>
    refine ⟨(fun htrue => by cases htrue), fun _ => ?_⟩
    simp only [hexternal, Bool.false_eq_true, if_false] at hcheck
    cases hparam : f.params.find? (fun p => !(Demand.var "param" p.operand).isMet) with
    | some p => rw [hparam] at hcheck; cases hcheck
    | none =>
      rw [hparam] at hcheck
      obtain ⟨seen, hcode, hcheck⟩ := bind_eq_ok_iff.mp hcheck
      obtain ⟨hmeets, _, htemps, hlabels, hnodup, hjumps⟩ := checkCode_ok hcode
      simp only [List.append_nil] at hlabels
      refine ⟨?_, hmeets, ?_, ?_, ?_⟩
      · intro p hp
        have hvar := List.find?_eq_none.mp hparam p hp
        exact isMet_var (by simpa using hvar)
      · intro t t' ht ht' hid
        have hty := htemps t ht
        rw [hid, htemps t' ht'] at hty
        cases t
        cases t'
        simp_all
      · have hreverse := hnodup List.nodup_nil
        rw [hlabels] at hreverse
        exact (List.pairwise_reverse.mp hreverse).imp Ne.symm
      · intro x hx name hname
        cases hfind : seen.jumps.reverse.find? (fun l => !seen.labels.contains l) with
        | some l => rw [hfind] at hcheck; cases hcheck
        | none =>
          have hmem := List.find?_eq_none.mp hfind name
            (List.mem_reverse.mpr (hjumps name (.inr ⟨x, hx, hname⟩)))
          simpa [hlabels] using hmem

end Validity

/-- A program that passes the check has functions of different names, and each of them passes it. -/
theorem Program.validate_ok {p : Program} (hvalidate : p.validate = .ok ()) :
    (p.funcs.map (·.name)).Nodup ∧ ∀ f ∈ p.funcs,
      (f.isExternal = true → f.code = []) ∧ (f.isExternal = false → f.Valid) := by
  have hcheck : ∀ (names : List String) (funcs : List Func), Validity.checkFuncs names funcs = .ok () →
      (∀ f ∈ funcs, f.name ∉ names) ∧ (funcs.map (·.name)).Nodup ∧ ∀ f ∈ funcs,
        (f.isExternal = true → f.code = []) ∧ (f.isExternal = false → f.Valid) := by
    intro names funcs hcheck
    induction funcs generalizing names with
    | nil => simp
    | cons f funcs ih =>
      simp only [Validity.checkFuncs] at hcheck
      split at hcheck
      · cases hcheck
      · next hname =>
        obtain ⟨_, hf, hrest⟩ := bind_eq_ok_iff.mp hcheck
        have hf := Validity.checkFunc_ok (mapError_eq_ok_iff.mp hf)
        obtain ⟨hnames, hnodup, hfuncs⟩ := ih _ hrest
        refine ⟨?_, ?_, ?_⟩
        · intro g hg
          rcases List.mem_cons.mp hg with rfl | hg
          · exact hname
          · exact fun hmem => hnames g hg (by simp [hmem])
        · rw [List.map_cons, List.nodup_cons]
          refine ⟨fun hmem => ?_, hnodup⟩
          obtain ⟨g, hg, heq⟩ := List.mem_map.mp hmem
          exact hnames g hg (by simp [heq])
        · intro g hg
          rcases List.mem_cons.mp hg with rfl | hg
          · exact hf
          · exact hfuncs g hg
  exact (hcheck [] p.funcs hvalidate).2

end TreeCompiler.Code
