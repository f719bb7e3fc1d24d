import TreeCompiler.Proofs.Asm.Tracking
import TreeCompiler.Proofs.Code.Renaming
import TreeCompiler.Proofs.Distinct

namespace TreeCompiler.Asm

open Code

/-- Gives the variable of a slot another name. -/
def Slot.rename (φ : String → String) : Slot → Slot
  | .temp id => .temp id
  | .var name => .var (φ name)

/-- Gives the variables of a frame other names. -/
def Frame.rename (φ : String → String) (fr : Frame) : Frame :=
  { fr with slots := fr.slots.map (·.rename φ) }

/-- Gives the variables that registers hold other names. -/
def Cache.rename (φ : String → String) (c : Cache) : Cache :=
  ⟨c.entries.map (Option.map (·.rename φ))⟩

/-- Gives the variables of a function that is compiled other names. -/
def Site.rename (φ : String → String) (site : Site) : Site :=
  ⟨site.func.rename φ, site.frame.rename φ, site.labels⟩

/-- Gives the variables that are known to the generator other names. -/
def GenState.rename (φ : String → String) (g : GenState) : GenState :=
  { g with cache := g.cache.rename φ, pending := g.pending.map (Option.map (·.rename φ)) }

variable {φ : String → String}

theorem Slot.rename_injective (hφ : φ.Injective) : (Slot.rename φ).Injective := by
  intro s s' heq
  cases s <;> cases s' <;> simp_all [rename, hφ.eq_iff]

theorem rename_operand_inj (hφ : φ.Injective) {o o' : Option Operand} :
    o.map (·.rename φ) = o'.map (·.rename φ) ↔ o = o' :=
  (Option.map_injective (Operand.rename_injective hφ)).eq_iff

theorem rename_eq_some_iff (hφ : φ.Injective) {o : Option Operand} (o' : Operand) :
    o.map (·.rename φ) = some (o'.rename φ) ↔ o = some o' := by
  rw [← Option.map_some, rename_operand_inj hφ]

namespace Frame

variable {fr : Frame}

theorem slot?_rename (o : Operand) : slot? (o.rename φ) = (slot? o).map (Option.map (·.rename φ)) := by
  cases o with
  | temp t =>
    simp only [slot?, Operand.rename]
    cases BitSet.key t.id <;> rfl
  | _ => rfl

theorem add_rename (hφ : φ.Injective) (o : Option Operand) :
    (fr.rename φ).add (o.map (·.rename φ)) = (fr.add o).map (·.rename φ) := by
  cases o with
  | none => rfl
  | some o =>
    simp only [Option.map_some, add, slot?_rename]
    cases slot? o with
    | error e => rfl
    | ok s =>
      cases s with
      | none => rfl
      | some s =>
        have hmem : s.rename φ ∈ (fr.rename φ).slots ↔ s ∈ fr.slots := by
          simp [rename, (Slot.rename_injective hφ).eq_iff]
        simp only [Except.map, Option.map_some, hmem]
        split
        · rfl
        · simp [rename]

theorem addAll_rename (hφ : φ.Injective) (fr : Frame) (os : List (Option Operand)) :
    (fr.rename φ).addAll (os.map (Option.map (·.rename φ))) = (fr.addAll os).map (·.rename φ) := by
  induction os generalizing fr with
  | nil => rfl
  | cons o os ih =>
    simp only [addAll, List.map_cons, List.foldlM_cons, add_rename hφ] at ih ⊢
    cases fr.add o with
    | error e => rfl
    | ok fr' => exact ih fr'

/-- The frame of a renamed function is the renamed frame. -/
theorem ofFunc_rename (hφ : φ.Injective) {f : Func} {fr : Frame} (hframe : ofFunc f = .ok fr) :
    ofFunc (f.rename φ) = .ok (fr.rename φ) := by
  simp only [ofFunc, bind_eq_ok_iff] at hframe ⊢
  obtain ⟨fr₁, hparams, fr₂, hcode, hfr⟩ := hframe
  cases hfr
  refine ⟨fr₁.rename φ, ?_, fr₂.rename φ, ?_, ?_⟩
  · have hempty : rename φ {} = {} := by simp [rename]
    have hadd := addAll_rename hφ {} (f.params.map (·.operand))
    rw [hparams, List.map_map, hempty] at hadd
    rw [Func.rename, List.map_map]
    exact hadd
  · have hadd := addAll_rename hφ fr₁ (f.code.flatMap (·.operands))
    rw [hcode, List.map_flatMap] at hadd
    rw [Func.rename, List.flatMap_map]
    exact hadd
  · simp only [rename, Func.rename, List.any_map, Function.comp_def, Instr.rename_op]
    rfl

theorem idxOf?_rename (hφ : φ.Injective) (s : Slot) :
    (fr.rename φ).slots.idxOf? (s.rename φ) = fr.slots.idxOf? s := by
  obtain ⟨⟨slots⟩, hasArrays⟩ := fr
  simp only [rename, List.map_toArray, List.idxOf?_toArray, idxOf?_map_of_injective (Slot.rename_injective hφ)]

theorem offset?_rename (hφ : φ.Injective) (o : Operand) : (fr.rename φ).offset? (o.rename φ) = fr.offset? o := by
  simp only [offset?, slot?_rename]
  cases slot? o with
  | error e => rfl
  | ok s =>
    cases s with
    | none => rfl
    | some s =>
      simp only [Except.map, Option.map_some, idxOf?_rename hφ]

@[simp] theorem size_rename : (fr.rename φ).size = fr.size := by
  simp [size, rename]

end Frame

namespace Cache

variable {c : Cache} {r : Reg}

@[simp] theorem get_rename : (c.rename φ).get r = (c.get r).map (·.rename φ) :=
  Vector.getElem_map ..

@[simp] theorem rename_empty : empty.rename φ = empty := by
  simp [rename, empty]

theorem rename_set (o : Option Operand) : (c.set r o).rename φ = (c.rename φ).set r (o.map (·.rename φ)) := by
  simp [rename, set]

theorem find?_rename (hφ : φ.Injective) (o : Operand) : (c.rename φ).find? (o.rename φ) = c.find? o := by
  unfold find?
  congr 1
  funext r
  rw [get_rename]
  exact decide_eq_decide.mpr (rename_eq_some_iff hφ o)

theorem rename_written (hφ : φ.Injective) (o : Operand) :
    (c.written o r).rename φ = (c.rename φ).written (o.rename φ) r := by
  simp only [written, rename_set, Option.map_some]
  congr 1
  simp only [rename, Vector.map_map, Cache.mk.injEq]
  congr 1
  funext x
  simp only [Function.comp_apply, apply_ite (Option.map (Operand.rename φ)), Option.map_none]
  exact if_congr (rename_eq_some_iff hφ o).symm rfl rfl

end Cache

theorem GenState.known_rename {g : GenState} : (g.rename φ).known = g.known.rename φ := by
  unfold known rename
  split <;> simp

namespace GenM

variable {α β γ δ : Type} {f : α → β} {f' : γ → δ} {m n : GenM α} {m' n' : GenM β} {place place' : Place}

/-- Whenever a computation succeeds, another one succeeds under other names of the variables, and
    its result corresponds. -/
def Renames (φ : String → String) (f : α → β) (m : GenM α) (m' : GenM β) : Prop :=
  ∀ g a g', m g = .ok (a, g') → m' (g.rename φ) = .ok (f a, g'.rename φ)

namespace Renames

theorem pure (a : α) : Renames φ f (Pure.pure a) (Pure.pure (f a)) := by
  intro g b g' h
  obtain ⟨rfl, rfl⟩ := pure_eq_ok_iff.mp h
  rfl

theorem fail (cause : Cause) : Renames φ f (GenM.fail cause) m' := by
  intro g a g' h
  exact (fail_ne_ok g h).elim

theorem bind {k : α → GenM γ} {k' : β → GenM δ} (hm : Renames φ f m m')
    (hk : ∀ a, Renames φ f' (k a) (k' (f a))) : Renames φ f' (m >>= k) (m' >>= k') := by
  intro g b g' h
  obtain ⟨a, g₁, hma, hkb⟩ := bind_eq_ok_iff.mp h
  exact bind_eq_ok_iff.mpr ⟨f a, g₁.rename φ, hm g a g₁ hma, hk a g₁ b g' hkb⟩

theorem within (hm : Renames φ f m m') : Renames φ f (GenM.within place m) (GenM.within place' m') := by
  intro g a g' h
  exact within_eq_ok_iff.mpr (hm g a g' (within_eq_ok_iff.mp h))

theorem ite {c c' : Prop} [Decidable c] [Decidable c'] (hc : c' ↔ c) (hm : Renames φ f m m')
    (hn : Renames φ f n n') : Renames φ f (if c then m else n) (if c' then m' else n') := by
  by_cases hpos : c
  · rw [if_pos hpos, if_pos (hc.mpr hpos)]
    exact hm
  · rw [if_neg hpos, if_neg fun hc' => hpos (hc.mp hc')]
    exact hn

theorem get : Renames φ (GenState.rename φ) MonadStateOf.get MonadStateOf.get := by
  intro g a g' h
  obtain ⟨rfl, rfl⟩ := get_eq_ok_iff.mp h
  rfl

theorem track {change change' : Cache → Cache} (hchange : ∀ c, (change c).rename φ = change' (c.rename φ)) :
    Renames φ id (GenM.track change) (GenM.track change') := by
  intro g u g' h
  obtain rfl := track_eq_ok_iff.mp h
  simp only [GenM.track, GenState.rename, hchange, id]

theorem forget : Renames φ id GenM.forget GenM.forget :=
  track fun _ => Cache.rename_empty

theorem takePending : Renames φ (List.map (Option.map (·.rename φ))) GenM.takePending GenM.takePending := by
  intro g os g' h
  obtain ⟨rfl, rfl⟩ := takePending_eq_ok_iff.mp h
  simp [GenM.takePending, GenState.rename]

theorem string (text : Bytes) : Renames φ id (GenM.string text) (GenM.string text) := by
  intro g k g' h
  cases h
  rfl

end Renames

end GenM

open GenM (Renames)

variable {site : Site} {r : Reg} {o : Option Operand}

theorem loadConst_rename (c : Const) : Renames φ id (loadConst c r) (loadConst c r) := by
  cases c with
  | str text => exact .bind (.string text) fun k => .pure _
  | unknown kind => exact .fail _
  | _ => exact .pure _

/-- Gives the variables among arguments that come with an index other names. -/
def renameArgs (φ : String → String) (args : List (Nat × Option Operand)) : List (Nat × Option Operand) :=
  args.map fun arg => (arg.1, arg.2.map (·.rename φ))

theorem stackArgs_rename (args : List (Option Operand)) :
    stackArgs (args.map (Option.map (·.rename φ))) = renameArgs φ (stackArgs args) := by
  apply List.ext_getElem?
  intro i
  simp [stackArgs, renameArgs, List.getElem?_mapIdx, Function.comp_def]

theorem genArg_rename (x : Instr) : Renames φ id (genArg x) (genArg (x.rename φ)) := by
  simp only [genArg, Instr.rename_src2, Operand.isLength_rename]
  refine .bind .get fun g => .ite (by simp [GenState.rename]) ?_ (.fail _)
  rintro g u g' ⟨⟩
  simp only [GenState.rename, Array.map_push]
  rfl

theorem collectLabels_rename (index : Nat) (labels : List (String × Nat)) (code : List Instr)
    {found : List (String × Nat)}
    (hfound : collectLabels index labels code = .ok found) :
    collectLabels index labels (code.map (·.rename φ)) = .ok found := by
  induction code generalizing index labels with
  | nil => exact hfound
  | cons x code ih =>
    obtain ⟨op, dst, src1, src2⟩ := x
    cases op with
    | label =>
      rcases dst with _ | dst
      · cases hfound
      · cases dst with
        | label name => exact ih _ _ hfound
        | _ => cases hfound
    | _ => exact ih _ _ hfound

section Injective

variable (hφ : φ.Injective)
include hφ

theorem fetch_rename (o : Operand) : Renames φ id (fetch site o r) (fetch (site.rename φ) (o.rename φ) r) := by
  have hoffset : (site.rename φ).frame.offset? (o.rename φ) = site.frame.offset? o := Frame.offset?_rename hφ o
  cases o with
  | const c => exact loadConst_rename c
  | temp t =>
    simp only [fetch, Operand.rename] at hoffset ⊢
    rw [hoffset]
    split
    · exact .pure _
    · exact .fail _
  | var name =>
    simp only [fetch, Operand.rename] at hoffset ⊢
    rw [hoffset]
    split
    · exact .pure _
    · exact .fail _
  | label name => exact .fail _
  | func name => exact .fail _

theorem load_rename (o : Option Operand) (r : Reg) :
    Renames φ id (load site o r) (load (site.rename φ) (o.map (·.rename φ)) r) := by
  cases o with
  | none => exact .fail _
  | some o =>
    simp only [load, Option.map_some]
    refine .bind .get fun g => ?_
    rw [GenState.known_rename, Cache.find?_rename hφ, Cache.get_rename]
    refine .ite (rename_eq_some_iff hφ o) (.pure _) ?_
    have hrecord : Renames φ id (GenM.track (·.set r (some o))) (GenM.track (·.set r (some (o.rename φ)))) :=
      .track fun c => Cache.rename_set (some o)
    cases g.known.find? o with
    | some other => exact .bind (f := id) (.pure _) fun _ => .bind hrecord fun _ => .pure _
    | none => exact .bind (fetch_rename hφ o) fun _ => .bind hrecord fun _ => .pure _

theorem store_rename (o : Option Operand) (r : Reg) :
    Renames φ id (store site o r) (store (site.rename φ) (o.map (·.rename φ)) r) := by
  cases o with
  | none => exact .fail _
  | some o =>
    have hoffset : (site.rename φ).frame.offset? (o.rename φ) = site.frame.offset? o := Frame.offset?_rename hφ o
    simp only [store, Option.map_some, hoffset]
    split
    · exact .fail _
    · exact .bind (.track fun c => Cache.rename_written hφ o) fun _ => .pure _

theorem loadPair_rename (left right : Option Operand) :
    Renames φ id (loadPair site left right)
      (loadPair (site.rename φ) (left.map (·.rename φ)) (right.map (·.rename φ))) :=
  .bind (load_rename hφ left .rax).within fun _ => .bind (load_rename hφ right .rcx).within fun _ => .pure _

theorem produce_rename (dst : Option Operand) :
    Renames φ id (produce site dst) (produce (site.rename φ) (dst.map (·.rename φ))) :=
  .bind .forget fun _ => store_rename hφ dst .rax

theorem replace_rename (dst : Option Operand) :
    Renames φ id (replace site dst) (replace (site.rename φ) (dst.map (·.rename φ))) :=
  .bind (.track fun _ => Cache.rename_set none) fun _ => store_rename hφ dst .rax

/-- Where a value flows does not depend on names. -/
theorem flowsToReturn_rename (steps position : Nat) (result : Option Operand) :
    flowsToReturn (site.rename φ) steps position (result.map (·.rename φ)) =
      flowsToReturn site steps position result := by
  induction steps generalizing position result with
  | zero => rfl
  | succ steps ih =>
    have hcode : (site.rename φ).func.code[position]? = site.func.code[position]?.map (·.rename φ) :=
      List.getElem?_map ..
    simp only [flowsToReturn, hcode]
    cases site.func.code[position]? with
    | none => rfl
    | some x =>
      obtain ⟨op, dst, src1, src2⟩ := x
      have hsame : src1.map (·.rename φ) = result.map (·.rename φ) ↔ src1 = result := rename_operand_inj hφ
      cases op <;> simp only [Option.map_some, Instr.rename, ih, hsame, Option.isNone_map, ne_eq]
      case jump =>
        rcases dst with _ | dst
        · rfl
        · cases dst <;> simp only [Option.map_some, Operand.rename, Site.rename]

theorem isTailCall_rename (index : Nat) (result : Option Operand) :
    isTailCall (site.rename φ) index (result.map (·.rename φ)) = isTailCall site index result := by
  have hlength : (site.rename φ).func.code.length = site.func.code.length := List.length_map ..
  rw [isTailCall, hlength, flowsToReturn_rename hφ]
  rfl

theorem returnsNext_rename (index : Nat) (result : Option Operand) :
    returnsNext (site.rename φ) index (result.map (·.rename φ)) = returnsNext site index result := by
  have hcode : (site.rename φ).func.code[index + 1]? = site.func.code[index + 1]?.map (·.rename φ) :=
    List.getElem?_map ..
  simp only [returnsNext, hcode]
  cases site.func.code[index + 1]? with
  | none => rfl
  | some x => simp only [Option.map_some, Instr.rename_op, Instr.rename_src1, rename_operand_inj hφ]

theorem loadRegArgs_rename (index : Nat) (args : List (Option Operand)) (regs : List Reg) :
    Renames φ id (loadRegArgs site index args regs)
      (loadRegArgs (site.rename φ) index (args.map (Option.map (·.rename φ))) regs) := by
  induction args generalizing index regs with
  | nil => exact .pure _
  | cons a args ih =>
    cases regs with
    | nil => exact .pure _
    | cons r regs => exact .bind (load_rename hφ a r).within fun _ => .bind (ih (index + 1) regs) fun _ => .pure _

theorem pushArgs_rename (args : List (Nat × Option Operand)) :
    Renames φ id (pushArgs site args) (pushArgs (site.rename φ) (renameArgs φ args)) := by
  induction args with
  | nil => exact .pure _
  | cons a args ih => exact .bind (load_rename hφ a.2 .rax).within fun _ => .bind ih fun _ => .pure _

theorem overwriteArgs_rename (args : List (Nat × Option Operand)) :
    Renames φ id (overwriteArgs site args) (overwriteArgs (site.rename φ) (renameArgs φ args)) := by
  induction args with
  | nil => exact .pure _
  | cons a args ih => exact .bind (load_rename hφ a.2 .rax).within fun _ => .bind ih fun _ => .pure _

theorem tailJump_rename (args : List (Option Operand)) :
    Renames φ id (tailJump site args) (tailJump (site.rename φ) (args.map (Option.map (·.rename φ)))) := by
  have hparams : (site.rename φ).func.params.length = site.func.params.length := List.length_map ..
  simp only [tailJump, List.length_map, hparams, stackArgs_rename]
  refine .ite Iff.rfl (.fail _) (.bind (overwriteArgs_rename hφ _) fun _ => ?_)
  exact .bind (loadRegArgs_rename hφ 0 args Reg.args) fun _ => .bind .forget fun _ => .pure _

theorem plainCall_rename (name : String) (args : List (Option Operand)) (dst : Option Operand) :
    Renames φ id (plainCall site name args dst)
      (plainCall (site.rename φ) name (args.map (Option.map (·.rename φ))) (dst.map (·.rename φ))) := by
  have hlength : (renameArgs φ (stackArgs args)).length = (stackArgs args).length := List.length_map ..
  have hreverse : (renameArgs φ (stackArgs args)).reverse = renameArgs φ (stackArgs args).reverse :=
    List.map_reverse.symm
  simp only [plainCall, stackArgs_rename, hlength, hreverse, Option.isNone_map]
  refine .bind (pushArgs_rename hφ _) fun _ => .bind (loadRegArgs_rename hφ 0 args Reg.args) fun _ => ?_
  refine .bind .forget fun _ => .ite Iff.rfl (.bind (f := id) (.pure _) fun _ => .pure _) ?_
  exact .bind (store_rename hφ dst .rax) fun _ => .pure _

theorem genCall_rename (index : Nat) (x : Instr) :
    Renames φ id (genCall site index x) (genCall (site.rename φ) index (x.rename φ)) := by
  obtain ⟨op, dst, src1, src2⟩ := x
  rcases src1 with _ | src1
  · exact .fail _
  · cases src1 with
    | func name =>
      simp only [genCall, Instr.rename, Option.map_some, Operand.rename_func, Operand.isLength_rename,
        isTailCall_rename hφ, returnsNext_rename hφ]
      refine .bind .get fun g => .ite (by simp [GenState.rename]) (.bind .takePending fun args => ?_) (.fail _)
      refine .ite Iff.rfl (.bind (tailJump_rename hφ args) fun _ => .pure _) ?_
      exact .bind (plainCall_rename hφ name args dst) fun _ => .pure _
    | _ => exact .fail _

theorem storeElems_rename (index : Nat) (elems : List (Option Operand)) :
    Renames φ id (storeElems site index elems)
      (storeElems (site.rename φ) index (elems.map (Option.map (·.rename φ)))) := by
  induction elems generalizing index with
  | nil => exact .pure _
  | cons e elems ih => exact .bind (load_rename hφ e .rax).within fun _ => .bind (ih (index + 1)) fun _ => .pure _

theorem genArray_rename (x : Instr) : Renames φ id (genArray site x) (genArray (site.rename φ) (x.rename φ)) := by
  simp only [genArray, Instr.rename_src1, Operand.isLength_rename]
  refine .bind .get fun g => .ite (by simp [GenState.rename]) (.bind .takePending fun elems => ?_) (.fail _)
  rw [List.length_map]
  exact .bind (storeElems_rename hφ 0 elems) fun _ => .bind (replace_rename hφ x.dst) fun _ => .pure _

theorem genSetIndex_rename (x : Instr) : Renames φ id (genSetIndex site x)
    (genSetIndex (site.rename φ) (x.rename φ)) :=
  .bind (loadPair_rename hφ x.dst x.src1) fun _ => .bind (load_rename hφ x.src2 .rdx).within fun _ => .pure _

/-- The code of an instruction does not depend on the names of its variables. -/
theorem genInstr_rename (index : Nat) (x : Instr) :
    Renames φ id (genInstr site index x) (genInstr (site.rename φ) index (x.rename φ)) := by
  have hlength : (site.rename φ).func.code.length = site.func.code.length := List.length_map ..
  simp only [genInstr, Instr.rename_op, Instr.rename_dst, Instr.rename_src1, Instr.rename_src2, hlength]
  cases x.op with
  | nop => exact .pure _
  | binary op =>
    exact .bind (loadPair_rename hφ x.src1 x.src2) fun _ => .bind (produce_rename hφ x.dst) fun _ => .pure _
  | compare op =>
    exact .bind (loadPair_rename hφ x.src1 x.src2) fun _ => .bind (produce_rename hφ x.dst) fun _ => .pure _
  | unary op => exact .bind (load_rename hφ x.src1 .rax) fun _ => .bind (replace_rename hφ x.dst) fun _ => .pure _
  | move => exact .bind (load_rename hφ x.src1 .rax) fun _ => .bind (store_rename hφ x.dst .rax) fun _ => .pure _
  | load => exact .bind (load_rename hφ x.src1 .rax) fun _ => .bind (store_rename hφ x.dst .rax) fun _ => .pure _
  | store => exact .bind (load_rename hφ x.src1 .rax) fun _ => .bind (store_rename hφ x.dst .rax) fun _ => .pure _
  | index =>
    exact .bind (loadPair_rename hφ x.src1 x.src2) fun _ => .bind (replace_rename hφ x.dst) fun _ => .pure _
  | setIndex => exact .bind (genSetIndex_rename hφ x) fun _ => .pure _
  | array => exact .bind (genArray_rename hφ x) fun _ => .pure _
  | arg => exact .bind (genArg_rename x) fun _ => .pure _
  | call => exact .bind (genCall_rename hφ index x) fun _ => .pure _
  | label =>
    rcases x.dst with _ | dst
    · exact .fail _
    · cases dst with
      | label name => exact .bind .forget fun _ => .pure _
      | _ => exact .fail _
  | jump =>
    rcases x.dst with _ | dst
    · exact .fail _
    · cases dst with
      | label name => exact .pure _
      | _ => exact .fail _
  | jumpIfFalse =>
    rcases x.dst with _ | dst
    · exact .fail _
    · cases dst with
      | label name => exact .bind (load_rename hφ x.src1 .rax) fun _ => .pure _
      | _ => exact .fail _
  | ret =>
    rw [Option.isNone_map]
    refine .ite Iff.rfl (.bind (f := id) (.pure _) fun _ => .pure _) ?_
    exact .bind (load_rename hφ x.src1 .rax) fun _ => .pure _
  | exit =>
    have hcode : (x.src1.map (·.rename φ)).getD (.const (.int 0)) =
        (x.src1.getD (.const (.int 0))).rename φ := by
      cases x.src1 <;> rfl
    rw [hcode]
    exact .bind (load_rename hφ (some _) .rdi) fun _ => .bind .forget fun _ => .pure _
  | unknown code => exact .fail _

theorem bindParams_rename (index : Nat) (os : List (Option Operand)) (regs : List Reg) :
    Renames φ id (bindParams site index os regs)
      (bindParams (site.rename φ) index (os.map (Option.map (·.rename φ))) regs) := by
  induction os generalizing index regs with
  | nil => exact .pure _
  | cons o os ih =>
    rcases o with _ | o
    · exact .fail _
    · have hoffset : (site.rename φ).frame.offset? (o.rename φ) = site.frame.offset? o :=
        Frame.offset?_rename hφ o
      have hrecord : ∀ r, Renames φ id (GenM.track (·.set r (some o)))
          (GenM.track (·.set r (some (o.rename φ)))) :=
        fun r => .track fun c => Cache.rename_set (some o)
      simp only [bindParams, List.map_cons, Option.map_some, Option.bind_some, hoffset]
      cases site.frame.offset? o with
      | none => exact .fail _
      | some offset =>
        cases regs with
        | nil => exact .bind (hrecord .rax) fun _ => .bind (ih (index + 1) []) fun _ => .pure _
        | cons r regs => exact .bind (hrecord r) fun _ => .bind (ih (index + 1) regs) fun _ => .pure _

theorem genCode_rename {options : Options} (hcomments : options.comments = false) (index : Nat) (covered : Bool)
    (code : List Instr) :
    Renames φ id (genCode options site index covered code)
      (genCode options (site.rename φ) index covered (code.map (·.rename φ))) := by
  induction code generalizing index covered with
  | nil => exact .pure _
  | cons x code ih =>
    simp only [genCode, List.map_cons, hcomments]
    refine .ite Iff.rfl (ih (index + 1) false) ?_
    exact .bind (genInstr_rename hφ index x).within fun _ => .bind (ih (index + 1) _) fun _ => .pure _

/-- The lines of a function do not depend on the names of its variables. -/
theorem genFunc_rename {options : Options} (hcomments : options.comments = false) {f : Func}
    {strings strings' : StringTable} {lines : List Line} (hgen : genFunc options f strings = .ok (lines, strings')) :
    genFunc options (f.rename φ) strings = .ok (lines, strings') := by
  rw [genFunc_eq_ok_iff] at hgen ⊢
  obtain ⟨frame, labels, params, g₁, body, g₂, hframe, hlabels, hparams, hbody, rfl, rfl⟩ := hgen
  refine ⟨frame.rename φ, labels, params, g₁.rename φ, body, g₂.rename φ, Frame.ofFunc_rename hφ hframe,
    collectLabels_rename 0 [] f.code hlabels, ?_, genCode_rename hφ hcomments 0 false f.code _ _ _ hbody, ?_, rfl⟩
  · have hbind := bindParams_rename hφ 0 (f.params.map (·.operand)) Reg.args _ _ _ hparams
    have hoperands : (f.params.map (·.operand)).map (Option.map (·.rename φ)) =
        (f.rename φ).params.map (·.operand) := by
      simp [Func.rename, Param.rename]
    have hstart : GenState.rename φ { strings, reuse := options.reuse } = { strings, reuse := options.reuse } := by
      simp [GenState.rename]
    rw [hoperands, hstart] at hbind
    exact hbind
  · rw [funcLines, funcLines, Frame.size_rename]
    rfl

end Injective

/-- The lines of functions do not depend on the names of their variables. -/
theorem genFuncs_variant {options : Options} (hcomments : options.comments = false) {fs fs' : List Func}
    (hvariants : List.Forall₂ Func.Variant fs fs') {strings : StringTable} {lines : List Line}
    (hgen : genFuncs options strings fs = .ok lines) : genFuncs options strings fs' = .ok lines := by
  induction hvariants generalizing strings lines with
  | nil => exact hgen
  | cons hf _ ih =>
    obtain ⟨φ, hφ, rfl⟩ := hf
    obtain ⟨own, strings', rest, hown, hrest, rfl⟩ := genFuncs_cons_eq_ok_iff.mp hgen
    refine genFuncs_cons_eq_ok_iff.mpr ⟨own, strings', rest, ?_, ih hrest, rfl⟩
    rcases hown with ⟨hexternal, hcode, hown⟩ | ⟨hinternal, hown⟩
    · exact .inl ⟨hexternal, by rw [Func.rename, hcode, List.map_nil], hown⟩
    · exact .inr ⟨hinternal, genFunc_rename hφ hcomments hown⟩

theorem addOperand_rename (t : StringTable) (o : Option Operand) :
    t.addOperand (o.map (·.rename φ)) = t.addOperand o := by
  rcases o with _ | o
  · rfl
  · cases o <;> rfl

theorem foldl_addOperand_variant {fs fs' : List Func} (hvariants : List.Forall₂ Func.Variant fs fs')
    (t : StringTable) :
    ((fs'.flatMap (·.code)).flatMap (·.operands)).foldl StringTable.addOperand t =
      ((fs.flatMap (·.code)).flatMap (·.operands)).foldl StringTable.addOperand t := by
  induction hvariants generalizing t with
  | nil => rfl
  | cons hf _ ih =>
    obtain ⟨φ, _, rfl⟩ := hf
    simp only [List.flatMap_cons, List.flatMap_append, List.foldl_append, ih]
    congr 1
    simp only [Func.rename, List.flatMap_map, List.foldl_flatMap, Instr.operands, Instr.rename,
      List.foldl_cons, List.foldl_nil, addOperand_rename]

/-- The text of a program does not depend on the names of its variables, unless it is commented. -/
theorem assemble_variant {options : Options} (hcomments : options.comments = false) {p p' : Code.Program}
    (hvariant : p.Variant p') {text : String} (htext : assemble options p = .ok text) :
    assemble options p' = .ok text := by
  have hstrings : StringTable.ofProgram p' = StringTable.ofProgram p := by
    simp only [StringTable.ofProgram, hvariant.consts]
    exact foldl_addOperand_variant hvariant.funcs _
  rw [assemble, map_eq_ok_iff] at htext ⊢
  obtain ⟨lines, hlines, rfl⟩ := htext
  refine ⟨lines, ?_, rfl⟩
  rw [genProgram, bind_eq_ok_iff] at hlines ⊢
  obtain ⟨funcs, hfuncs, hlines⟩ := hlines
  rw [hstrings]
  exact ⟨funcs, genFuncs_variant hcomments hvariant.funcs hfuncs, hlines⟩

end TreeCompiler.Asm
