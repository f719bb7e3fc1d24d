import TreeCompiler.Proofs.Asm.Agreement
import TreeCompiler.Proofs.Asm.Boundaries
import TreeCompiler.Proofs.Asm.Image

/-!
How far the code of an instruction moves the top of the stack. Only calls and arrays move it. A call
gives back what it took, and an array keeps a multiple of sixteen bytes.
-/

namespace TreeCompiler.Asm

open Code

/-- The registers that functions compute with. -/
def Reg.scratch : List Reg := [.rax, .rcx, .rdx, .rsi, .rdi, .r8, .r9]

/-- The registers that an instruction writes. -/
def Insn.writes : Insn → List Register
  | .push _ | .grow _ | .shrink _ | .call _ | .ret => [.rsp]
  | .pop r => [.rsp, r]
  | .mov dst _ | .leaFrame dst _ => [dst]
  | .movConst dst _ | .load dst _ | .leaString dst _ | .arith _ dst _ | .step _ dst | .shiftLeft dst |
    .shiftRight dst => [.tracked dst]
  | .signExtend => [.tracked .rdx]
  | .divide _ => [.tracked .rax, .tracked .rdx]
  | .setFlag _ | .widenFlag => [.tracked .rax]
  | .store .. | .storeConst .. | .compare .. | .compareZero _ | .jump _ | .jumpIfZero _ | .syscall => []

/-- The bytes that code took from the stack, and whether it used the lowest of them. -/
structure Depth where
  bytes : Int
  used : Bool

/-- Nothing was taken from the stack. -/
def Depth.zero : Depth := ⟨0, false⟩

/-- Whether code that took so many bytes from the stack may write to a place: a slot, an incoming
    argument, the bytes that it took, or an element of an array. -/
def Address.IsOpen (bytes : Int) : Address → Prop
  | .frame offset => offset ≤ -8 ∨ 16 ≤ offset
  | .stack offset => offset + 8 ≤ bytes
  | .pointee _ => False
  | .element .. => True

/-- An instruction takes bytes from the stack or gives them back, and a condition holds of the bytes
    that are taken afterwards. -/
def Insn.Sinks (leads : String → Prop) (depth : Depth) (Q : Depth → Prop) : Insn → Prop
  | .push _ => 0 ≤ depth.bytes ∧ Q ⟨depth.bytes + 8, true⟩
  | .grow bytes => depth.bytes = 0 ∧ Q ⟨bytes, false⟩
  | .shrink bytes => depth.bytes = bytes ∧ Q .zero
  | .store dst _ => dst.IsOpen depth.bytes ∧ Q depth
  | .storeConst dst v => fits v = true → dst = .stack 0 ∧ 8 ≤ depth.bytes ∧ Q ⟨depth.bytes, true⟩
  | .jump name | .jumpIfZero name => depth.bytes = 0 ∧ leads name ∧ Q depth
  | .call _ => 16 ∣ depth.bytes ∧ Q depth
  | .ret => False
  | x => (∀ r ∈ x.writes, r ∈ Reg.scratch.map .tracked) ∧ Q depth

/-- Lines take bytes from the stack or give them back, one after another. -/
def Sinks (leads : String → Prop) (Q : Depth → Prop) : Depth → List Line → Prop
  | depth, [] => Q depth
  | depth, .insn x :: ls => x.Sinks leads depth fun depth => Sinks leads Q depth ls
  | depth, l :: ls => l.isSilent = true ∧ depth.bytes = 0 ∧ Sinks leads Q depth ls

section Sinks

variable {leads : String → Prop} {Q Q' : Depth → Prop} {depth : Depth} {ls ms : List Line}
    {xs : List Insn} {x : Insn}

theorem Insn.Sinks.mono (hsinks : x.Sinks leads depth Q) (himp : ∀ d, Q d → Q' d) : x.Sinks leads depth Q' := by
  cases x with
  | storeConst dst v => exact fun hfits => (hsinks hfits).imp_right (And.imp_right (himp _))
  | jump name => exact ⟨hsinks.1, hsinks.2.1, himp _ hsinks.2.2⟩
  | jumpIfZero name => exact ⟨hsinks.1, hsinks.2.1, himp _ hsinks.2.2⟩
  | ret => exact hsinks
  | _ => exact ⟨hsinks.1, himp _ hsinks.2⟩

theorem Sinks.bind (hsinks : Sinks leads Q depth ls) (hrest : ∀ d, Q d → Sinks leads Q' d ms) :
    Sinks leads Q' depth (ls ++ ms) := by
  induction ls generalizing depth with
  | nil => exact hrest depth hsinks
  | cons l ls ih =>
    cases l with
    | insn x => exact Insn.Sinks.mono hsinks fun d => ih
    | _ => exact ⟨hsinks.1, hsinks.2.1, ih hsinks.2.2⟩

theorem Sinks.mono (hsinks : Sinks leads Q depth ls) (himp : ∀ d, Q d → Q' d) : Sinks leads Q' depth ls := by
  rw [← List.append_nil ls]
  exact hsinks.bind himp

theorem Sinks.append (hsinks : Sinks leads (fun d => Sinks leads Q d ms) depth ls) :
    Sinks leads Q depth (ls ++ ms) :=
  hsinks.bind fun _ hms => hms

/-- Lines that are announced or marked. -/
theorem sinks_silent (hls : ∀ l ∈ ls, l.isSilent = true) (hQ : Q .zero) : Sinks leads Q .zero ls := by
  induction ls with
  | nil => exact hQ
  | cons l ls ih =>
    have hl := hls l (by simp)
    have hrest := ih fun l' hl' => hls l' (by simp [hl'])
    cases l with
    | insn x => cases hl
    | _ => exact ⟨hl, rfl, hrest⟩

/-- The registers that are written are those that functions compute with and those of the stack. -/
theorem Insn.Sinks.writes (hsinks : x.Sinks leads depth Q) {r : Register} (hr : r ∈ x.writes) :
    r ∈ Reg.scratch.map .tracked ++ [.rsp, .rbp] := by
  cases x with
  | push _ | grow _ | shrink _ | call _ => simp_all [Insn.writes]
  | ret => exact hsinks.elim
  | store _ _ | storeConst _ _ | jump _ | jumpIfZero _ => cases hr
  | _ => exact List.mem_append_left _ (hsinks.1 r hr)

end Sinks

/-- An instruction that takes no bytes from the stack and gives none back. -/
def Insn.IsLevel (x : Insn) : Prop :=
  ∀ (leads : String → Prop) (depth : Depth) (Q : Depth → Prop), Q depth → x.Sinks leads depth Q

/-- Code of instructions that take no bytes from the stack and give none back. -/
abbrev AllLevel : List Insn → Prop :=
  Each Insn.IsLevel

section Level

variable {leads : String → Prop} {Q : Depth → Prop} {depth : Depth} {xs ys : List Insn} {r : Reg} {site : Site}
  {g g' : GenState} {o : Operand} {i : Nat}

theorem Each.sinks (hxs : AllLevel xs) (hQ : Q depth) : Sinks leads Q depth (xs.map .insn) := by
  induction xs with
  | nil => exact hQ
  | cons x xs ih =>
    exact hxs x (by simp) leads depth _ (ih fun y hy => hxs y (by simp [hy]))

/-- Code that writes registers to compute with and nothing else. -/
theorem allLevel_of_writes
    (hxs : ∀ x ∈ xs, x.isPlain = true ∧ x.writes ≠ [] ∧ ∀ r ∈ x.writes, r ∈ Reg.scratch.map .tracked) :
    AllLevel xs := by
  intro x hx leads depth Q hQ
  obtain ⟨hplain, hsome, hwrites⟩ := hxs x hx
  cases x with
  | push _ | grow _ | shrink _ => simp [Insn.writes, Reg.scratch] at hwrites
  | store _ _ | storeConst _ _ => exact absurd rfl hsome
  | jump _ | jumpIfZero _ | call _ | ret => cases hplain
  | _ => exact ⟨hwrites, hQ⟩

variable {left : Reg} {offset : Int} {args : List (Option Operand)}

theorem isLevel_compare {right : Reg} : (Insn.compare left right).IsLevel :=
  fun _ _ _ hQ => ⟨by simp [Insn.writes], hQ⟩

theorem isLevel_compareZero : (Insn.compareZero left).IsLevel :=
  fun _ _ _ hQ => ⟨by simp [Insn.writes], hQ⟩

theorem isLevel_storeFrame (hoffset : offset ≤ -8 ∨ 16 ≤ offset) (r : Reg) :
    (Insn.store (.frame offset) r).IsLevel :=
  fun _ _ _ hQ => ⟨hoffset, hQ⟩

theorem isLevel_storeSlot (hoffset : site.frame.offset? o = some offset) (r : Reg) :
    (Insn.store (.frame offset) r).IsLevel := by
  obtain ⟨k, _, rfl⟩ := Frame.offset?_bound hoffset
  exact isLevel_storeFrame (.inl (by omega)) r

theorem allLevel_binaryCode (op : BinaryOp) : AllLevel (binaryCode op) := by
  apply allLevel_of_writes
  cases op <;> simp [binaryCode, Insn.isPlain, Insn.writes, Reg.scratch]

theorem allLevel_compareCode (op : CompareOp) : AllLevel (compareCode op) := by
  refine .append (.one isLevel_compare) (allLevel_of_writes ?_)
  simp [Insn.isPlain, Insn.writes, Reg.scratch]

theorem allLevel_unaryCode (op : UnaryOp) : AllLevel (unaryCode op) := by
  cases op with
  | not =>
    refine .append (.one isLevel_compareZero) (allLevel_of_writes ?_)
    simp [Insn.isPlain, Insn.writes, Reg.scratch]
  | _ =>
    apply allLevel_of_writes
    simp [unaryCode, Insn.isPlain, Insn.writes, Reg.scratch]

theorem Insn.Loads.isLevel {x : Insn} (hload : x.Loads site.frame r) (hr : r ∈ Reg.scratch) : x.IsLevel := by
  cases hload <;> exact fun _ _ _ hQ => ⟨by simp [Insn.writes, hr], hQ⟩

theorem load_gives {src : Option Operand} (hr : r ∈ Reg.scratch) : (load site src r).Gives AllLevel :=
  load_each fun _ hload => hload.isLevel hr

variable {dst : Option Operand}

theorem store_gives_level : (store site dst r).Gives AllLevel := by
  intro g xs g' hstore
  obtain ⟨o, offset, _, hoffset, rfl, _⟩ := store_ok hstore
  exact .one (isLevel_storeSlot hoffset r)

theorem loadPair_gives {left right : Option Operand} : (loadPair site left right).Gives AllLevel :=
  .bind (.within (load_gives (by decide))) fun _ hl =>
    .bind (.within (load_gives (by decide))) fun _ hr => .pure (hl.append hr)

theorem produce_gives : (produce site dst).Gives AllLevel :=
  .bind .any fun _ _ => store_gives_level

theorem replace_gives : (replace site dst).Gives AllLevel :=
  .bind .any fun _ _ => store_gives_level

theorem mem_scratch_of_mem_args (hr : r ∈ Reg.args) : r ∈ Reg.scratch := by
  revert hr
  cases r <;> decide

theorem loadRegArgs_gives : (loadRegArgs site i args Reg.args).Gives AllLevel :=
  loadRegArgs_each fun _ hr _ hload => hload.isLevel (mem_scratch_of_mem_args hr)

theorem overwriteArgs_gives : (overwriteArgs site (stackArgs args)).Gives AllLevel := by
  refine overwriteArgs_each (fun _ hload => hload.isLevel (by decide)) fun a ha => isLevel_storeFrame (.inr ?_) .rax
  have hindex := Twin.le_of_mem_stackArgs ha
  unfold stackArg
  omega

theorem bindParams_gives {os : List (Option Operand)} : (bindParams site 0 os Reg.args).Gives AllLevel :=
  bindParams_each (i := 0) (fun _ _ _ _ _ _ hQ => ⟨by simp [Insn.writes, Reg.scratch], hQ⟩)
    fun _ _ r hoffset => isLevel_storeSlot hoffset r

end Level

section Generators

variable {leads : String → Prop} {Q : Depth → Prop} {site : Site} {x : Instr} {i : Nat} {g g' : GenState}
    {xs : List Insn}

/-- What code takes from the stack for good is a multiple of sixteen bytes, and nothing if it builds
    no array. -/
structure Frame.Takes (frame : Frame) (depth : Depth) : Prop where
  nonneg : 0 ≤ depth.bytes
  aligned : 16 ∣ depth.bytes
  level : frame.hasArrays = false → depth.bytes = 0
  used : depth.used = false → depth.bytes = 0

theorem Frame.takes_zero (frame : Frame) {depth : Depth} (hzero : depth.bytes = 0) : frame.Takes depth where
  nonneg := Int.le_of_eq hzero.symm
  aligned := ⟨0, hzero⟩
  level _ := hzero
  used _ := hzero

/-- A function leads itself to its ends and to labels of its code. -/
def Site.Leads (site : Site) (name : String) : Prop :=
  name = "entry" ∨ name = "exit" ∨ name ∈ Code.labels site.func.code

variable {args : List (Nat × Option Operand)} {space : Nat} {before after : List Insn}

theorem pushArgs_gives :
    (pushArgs site args).Gives fun xs => ∀ (leads : String → Prop) (Q : Depth → Prop)
    (depth : Depth), 0 ≤ depth.bytes →
      (∀ d : Depth, d.bytes = depth.bytes + 8 * args.length → Q d) → Sinks leads Q depth (xs.map .insn) := by
  induction args with
  | nil => exact .pure fun leads Q depth _ hQ => hQ depth (by simp)
  | cons a args ih =>
    refine .bind (.within (load_gives (by decide))) fun code hcode =>
      .bind ih fun rest hrest => .pure fun leads Q depth hdepth hQ => ?_
    rw [List.append_assoc, List.map_append]
    refine .append (hcode.sinks ⟨hdepth, hrest leads Q _ (by dsimp only; omega) fun d hd => hQ d ?_⟩)
    rw [hd, List.length_cons]
    dsimp only
    omega

/-- The code of a call: up to it bytes are taken such that the stack is aligned, and right behind it
    they are given back. -/
structure Balanced (name : String) (space : Nat) (before after : List Insn) : Prop where
  aligned : 16 ∣ space
  taken : ∀ leads, Sinks leads (·.bytes = space) .zero (before.map .insn)
  plain : ∀ y ∈ before, y.isPlain = true
  kept : AllLevel after

/-- The instructions of a call that takes so many bytes for its arguments. -/
def callCode (name : String) (space : Nat) (before after : List Insn) : List Insn :=
  before ++ .call name :: ((if space = 0 then [] else [.shrink ↑space]) ++ after)

theorem isPlain_of_allLevel (hxs : AllLevel xs) : Each (·.isPlain = true) xs := by
  intro x hx
  have hlevel := hxs x hx (fun _ => False) ⟨1, false⟩ (fun _ => True) trivial
  cases x with
  | jump name => exact hlevel.2.1.elim
  | jumpIfZero name => exact hlevel.2.1.elim
  | call name => exact absurd hlevel.1 (by decide)
  | ret => exact hlevel.elim
  | _ => rfl

theorem pushArgs_plain :
    (pushArgs site args).Gives (Each (·.isPlain = true)) := by
  induction args with
  | nil => exact .pure .nil
  | cons a args ih =>
    exact .bind (.within (load_gives (by decide))) fun _ hcode => .bind ih fun _ hrest =>
      .pure (((isPlain_of_allLevel hcode).append (.one rfl)).append hrest)

variable {name : String}

theorem plainCall_gives {args : List (Option Operand)} {dst : Option Operand} :
    (plainCall site name args dst).Gives fun xs =>
      ∃ before after, xs = callCode name (callSpace args.length) before after ∧
        Balanced name (callSpace args.length) before after := by
  intro g xs g' hgen
  obtain ⟨pushes, g₁, inRegs, g₂, keep, hpushes, hregs, hkeep, rfl⟩ := plainCall_ok hgen
  have hinRegs : AllLevel inRegs := loadRegArgs_gives g₁ inRegs g₂ hregs
  refine ⟨_, keep, rfl, ⟨?_, fun leads => ?_, fun y hy => ?_, ?_⟩⟩
  · unfold callSpace
    omega
  · -- The padding comes first, then a word for each argument on the stack.
    have hlength : (stackArgs args).reverse.length = args.length - 6 := by
      simp [stackArgs]
    have hpushed : Sinks leads (·.bytes = callSpace args.length) ⟨(8 * ((args.length - 6) % 2) : Nat), false⟩
        ((pushes ++ inRegs).map .insn) := by
      rw [List.map_append]
      refine .append (pushArgs_gives g pushes g₁ hpushes _ _ _ (by dsimp only; omega) fun d hd => hinRegs.sinks ?_)
      rw [hd, hlength]
      dsimp only
      unfold callSpace
      omega
    rw [callArgs, List.append_assoc, List.map_append]
    refine .append ?_
    split
    · next hpad => rwa [hpad] at hpushed
    · exact ⟨rfl, hpushed⟩
  · simp only [callArgs, List.mem_append] at hy
    rcases hy with (hy | hy) | hy
    · split at hy <;> simp_all [Insn.isPlain]
    · exact pushArgs_plain g pushes g₁ hpushes y hy
    · exact isPlain_of_allLevel hinRegs y hy
  · rcases hkeep with ⟨_, rfl, _⟩ | hkeep
    · exact Each.nil
    · exact store_gives_level _ keep g' hkeep

/-- A call and what stands right behind it give back the bytes that were taken before. -/
theorem Balanced.sinks_undo
    (hbalanced : Balanced name space before after) (hQ : ∀ d : Depth, d.bytes = 0 → Q d) :
    Sinks leads Q .zero ((before ++ Insn.call name :: if space = 0 then [] else [.shrink ↑space]).map .insn) := by
  rw [List.map_append]
  refine .append ((hbalanced.taken leads).mono fun d hd => ?_)
  refine ⟨by have := hbalanced.aligned; omega, ?_⟩
  split
  · next hzero => exact hQ d (by omega)
  · exact ⟨hd, hQ .zero rfl⟩

theorem Balanced.sinks
    (hbalanced : Balanced name space before after) (hQ : ∀ d : Depth, d.bytes = 0 → Q d) :
    Sinks leads Q .zero ((callCode name space before after).map .insn) := by
  rw [callCode, ← List.cons_append, ← List.append_assoc, List.map_append]
  exact .append (hbalanced.sinks_undo fun d hd => hbalanced.kept.sinks (hQ d hd))

theorem tailJump_gives {args : List (Option Operand)} :
    (tailJump site args).Gives fun xs => ∃ ys, xs = ys ++ [.jump "entry"] ∧ AllLevel ys := by
  unfold tailJump
  split
  · exact .fail
  · exact .bind overwriteArgs_gives fun _ hstack => .bind loadRegArgs_gives fun _ hregs =>
      .bind .any fun _ _ => .pure ⟨_, rfl, hstack.append hregs⟩

/-- What a call becomes: a new start of the running function, or code that takes bytes for the
    arguments that do not fit the registers. -/
inductive CallShape (site : Site) (i : Nat) (x : Instr) (xs : List Insn) : Prop where
  | restart {ys : List Insn} (hrestarts : site.restarts i x = true) (hxs : xs = ys ++ [.jump "entry"])
      (hys : AllLevel ys)
  | plain {name : String} {n : Nat} {before after : List Insn} (hplain : site.restarts i x = false)
      (hname : x.src1 = some (.func name)) (hlength : Operand.isLength x.src2 n = true)
      (hxs : xs = callCode name (callSpace n) before after) (hbalanced : Balanced name (callSpace n) before after)

theorem genCall_gives_shape : (genCall site i x).Gives fun r => CallShape site i x r.1 := by
  unfold genCall
  split
  · next name hname =>
    intro g r g' hgen
    simp only [GenM.bind_eq_ok_iff, GenM.get_eq_ok_iff] at hgen
    obtain ⟨_, _, ⟨rfl, rfl⟩, hgen⟩ := hgen
    split at hgen
    · next hlength =>
      obtain ⟨args, g₁, htake, hgen⟩ := GenM.bind_eq_ok_iff.mp hgen
      obtain ⟨rfl, rfl⟩ := GenM.takePending_eq_ok_iff.mp htake
      split at hgen
      · next htail =>
        obtain ⟨xs, g₂, hjump, hpure⟩ := GenM.bind_eq_ok_iff.mp hgen
        obtain ⟨rfl, rfl⟩ := GenM.pure_eq_ok_iff.mp hpure
        obtain ⟨ys, rfl, hys⟩ := tailJump_gives _ xs g₂ hjump
        exact .restart (by simpa [Site.restarts, hname, htail.1] using htail.2) rfl hys
      · next hplain =>
        obtain ⟨xs, g₂, hcall, hpure⟩ := GenM.bind_eq_ok_iff.mp hgen
        obtain ⟨rfl, rfl⟩ := GenM.pure_eq_ok_iff.mp hpure
        obtain ⟨before, after, rfl, hbalanced⟩ := plainCall_gives _ xs g₂ hcall
        exact .plain (by simpa [Site.restarts, hname] using hplain) hname (by simpa using hlength) rfl hbalanced
    · exact (GenM.fail_ne_ok _ hgen).elim
  · exact .fail

theorem genInstr_gives_call (hop : x.op = .call) :
    (genInstr site i x).Gives fun r => ∃ xs, r.1 = xs.map .insn ∧ CallShape site i x xs := by
  unfold genInstr
  simp only [hop]
  exact .bind genCall_gives_shape fun r hshape => .pure ⟨r.1, rfl, hshape⟩

theorem CallShape.sinks (hshape : CallShape site i x xs) (hQ : ∀ d : Depth, d.bytes = 0 → Q d)
    (hentry : leads "entry") :
    Sinks leads Q .zero (xs.map .insn) := by
  cases hshape with
  | restart _ hxs hys =>
    rw [hxs, List.map_append]
    exact .append (hys.sinks ⟨rfl, hentry, hQ _ rfl⟩)
  | plain _ _ _ hxs hbalanced =>
    rw [hxs]
    exact hbalanced.sinks hQ

theorem storeElems_gives {index : Nat} {elems : List (Option Operand)} :
    (storeElems site index elems).Gives fun xs => ∀ (leads : String → Prop) (Q : Depth → Prop) (depth : Depth),
      8 * ((index + elems.length : Nat) + 1 : Int) ≤ depth.bytes → Q depth →
        Sinks leads Q depth (xs.map .insn) := by
  induction elems generalizing index with
  | nil => exact .pure fun leads Q depth _ hQ => hQ
  | cons e elems ih =>
    refine .bind (.within (load_gives (by decide))) fun code hcode =>
      .bind ih fun rest hrest => .pure fun leads Q depth hdepth hQ => ?_
    rw [List.length_cons] at hdepth
    rw [List.append_assoc, List.map_append]
    refine .append (hcode.sinks ⟨?_, hrest leads Q depth (by omega) hQ⟩)
    simp only [Address.IsOpen]
    omega

theorem dvd_arraySize (n : Int) : 16 ∣ arraySize n := by
  unfold arraySize alignUp
  rw [Int.bmod_def]
  split <;> omega

theorem genArray_gives (harrays : site.frame.hasArrays = true) :
    (genArray site x).Gives fun xs => Sinks leads site.frame.Takes .zero (xs.map .insn) := by
  unfold genArray
  refine .bind .any fun g _ => ?_
  dsimp only
  split
  · refine .bind .any fun elems _ => .bind storeElems_gives fun stores hstores =>
      .bind replace_gives fun keep hkeep => .pure ?_
    have hmove : AllLevel [.mov (.tracked .rax) .rsp] := by
      apply allLevel_of_writes
      simp [Insn.isPlain, Insn.writes, Reg.scratch]
    -- The number of elements fits when it is written, so the space is not less than they take.
    refine ⟨rfl, fun hfits => ?_⟩
    obtain ⟨size, hsize, hroom⟩ := le_arraySize hfits
    have hdvd := dvd_arraySize elems.length
    rw [hsize] at hdvd ⊢
    have hkept : Sinks leads site.frame.Takes ⟨size, true⟩
        ((stores ++ ([Insn.mov (.tracked .rax) .rsp] ++ keep)).map .insn) := by
      rw [List.map_append]
      refine .append (hstores _ _ _ (by dsimp only; omega)
        ((hmove.append hkeep).sinks ⟨?_, hdvd, fun hnone => ?_, ?_⟩))
      · dsimp only
        omega
      · rw [harrays] at hnone
        cases hnone
      · exact fun hunused => by cases hunused
    refine ⟨rfl, by dsimp only; omega, ?_⟩
    simpa using hkept
  · exact .fail

theorem genSetIndex_gives : (genSetIndex site x).Gives AllLevel :=
  .bind loadPair_gives fun pair hpair =>
    .bind (.within (load_gives (by decide))) fun value hvalue =>
      .pure ((hpair.append hvalue).append (.one fun _ _ _ hQ => ⟨trivial, hQ⟩))

/-- The code of an instruction takes from the stack what a new array needs. -/
theorem genInstr_sinks (harrays : x.op = .array → site.frame.hasArrays = true)
    (htarget : ∀ name, x.target? = some name → name ∈ Code.labels site.func.code) :
    (genInstr site i x).Gives fun r => Sinks site.Leads site.frame.Takes .zero r.1 := by
  have hzero : site.frame.Takes .zero := site.frame.takes_zero rfl
  have hmap : ∀ xs, AllLevel xs → Sinks site.Leads site.frame.Takes .zero (xs.map .insn) :=
    fun xs hxs => hxs.sinks hzero
  have hleads : ∀ name, x.target? = some name → site.Leads name := fun name hname =>
      .inr (.inr (htarget name hname))
  have hjump : ∀ xs name, AllLevel xs → site.Leads name →
      Sinks site.Leads site.frame.Takes .zero ((xs ++ [Insn.jump name]).map .insn) := by
    intro xs name hxs hname
    rw [List.map_append]
    exact .append (hxs.sinks ⟨rfl, hname, hzero⟩)
  unfold genInstr
  dsimp only
  cases hop : x.op <;> dsimp only
  case nop => exact .pure hzero
  case binary op =>
    exact .bind loadPair_gives fun _ hpair => .bind produce_gives fun _ hkeep =>
      .pure (hmap _ ((hpair.append (allLevel_binaryCode op)).append hkeep))
  case compare op =>
    exact .bind loadPair_gives fun _ hpair => .bind produce_gives fun _ hkeep =>
      .pure (hmap _ ((hpair.append (allLevel_compareCode op)).append hkeep))
  case unary op =>
    exact .bind (load_gives (by decide)) fun _ harg => .bind replace_gives fun _ hkeep =>
      .pure (hmap _ ((harg.append (allLevel_unaryCode op)).append hkeep))
  case index =>
    refine .bind loadPair_gives fun _ hpair => .bind replace_gives fun _ hkeep =>
      .pure (hmap _ ((hpair.append (allLevel_of_writes ?_)).append hkeep))
    simp [Insn.isPlain, Insn.writes, Reg.scratch]
  case setIndex => exact .bind genSetIndex_gives fun code hcode => .pure (hmap code hcode)
  case array => exact .bind (genArray_gives (harrays hop)) fun _ hcode => .pure hcode
  case arg => exact .bind .any fun _ _ => .pure hzero
  case call =>
    exact .bind genCall_gives_shape fun _ hshape =>
      .pure (hshape.sinks (fun d hd => site.frame.takes_zero hd) (.inl rfl))
  case label =>
    split
    · exact .bind .any fun _ _ => .pure ⟨rfl, rfl, hzero⟩
    · exact .fail
  case jump =>
    split
    · next name hdst => exact .pure (hjump [] name Each.nil (hleads name (by simp [Instr.target?, hop, hdst])))
    · exact .fail
  case jumpIfFalse =>
    split
    · next name hdst =>
      refine .bind (load_gives (by decide)) fun test htest => .pure ?_
      rw [List.map_append]
      exact .append (htest.sinks (isLevel_compareZero _ _ _
        ⟨rfl, hleads name (by simp [Instr.target?, hop, hdst]), hzero⟩))
    · exact .fail
  case ret =>
    have hreturn : ∀ value, AllLevel value → Sinks site.Leads site.frame.Takes .zero
        ((value ++ if i + 1 < site.func.code.length then [Insn.jump "exit"] else []).map .insn) := by
      intro value hvalue
      split
      · exact hjump value "exit" hvalue (.inr (.inl rfl))
      · rw [List.append_nil]
        exact hmap value hvalue
    split
    · exact .bind (.pure Each.nil) fun value hvalue => .pure (hreturn value hvalue)
    · exact .bind (load_gives (by decide)) fun value hvalue => .pure (hreturn value hvalue)
  case exit =>
    exact .bind (load_gives (by decide)) fun code hcode => .bind .any fun _ _ => .pure (hmap _ (hcode.append
      (.append (.one fun _ _ _ hQ => ⟨by simp [Insn.writes, Reg.scratch], hQ⟩)
        (.one fun _ _ _ hQ => ⟨by simp [Insn.writes], hQ⟩))))
  case unknown => exact .fail
  all_goals
    exact .bind (load_gives (by decide)) fun _ hvalue => .bind store_gives_level fun _ hkeep =>
      .pure (hmap _ (hvalue.append hkeep))

end Generators

end TreeCompiler.Asm
