import TreeCompiler.Proofs.Asm.Knowledge
import TreeCompiler.Proofs.Asm.Placement

/-!
The code of every instruction of a function agrees with the code that is generated for it in a twin
of the function.
-/

namespace TreeCompiler.Asm

open Code

/-- The stack ends below the slots of a function, unless it wrapped around. -/
def Site.Calm (site : Site) (rsp rbp : Word) : Prop :=
  rbp.toNat ≤ 2 ^ 47 ∧ (rsp.toNat < 2 ^ 63 → rsp.toNat + 8 * site.frame.slots.size ≤ rbp.toNat)

/-- There is room for some words between the end of the stack and the slots of a function. -/
def Site.Raised (site : Site) (words : Nat) (rsp rbp : Word) : Prop :=
  rbp.toNat ≤ 2 ^ 47 ∧ rsp.toNat + 8 * words + 8 * site.frame.slots.size ≤ rbp.toNat

/-- Some bytes were pushed, all of them below the slots of a function. -/
def Site.Pushing (site : Site) (top : Word) (bytes : Nat) (rsp rbp : Word) : Prop :=
  rsp = top - BitVec.ofNat 64 bytes ∧ site.Calm top rbp ∧
    (rsp.toNat ≤ 2 ^ 47 → rsp.toNat + 8 * site.frame.slots.size ≤ rbp.toNat)

theorem isPlain_binaryCode (op : BinaryOp) : ∀ x ∈ binaryCode op, x.isPlain = true := by
  cases op <;> simp [binaryCode, Insn.isPlain]

theorem isPlain_compareCode (op : CompareOp) : ∀ x ∈ compareCode op, x.isPlain = true := by
  simp [compareCode, Insn.isPlain]

theorem isPlain_unaryCode (op : UnaryOp) : ∀ x ∈ unaryCode op, x.isPlain = true := by
  cases op <;> simp [unaryCode, Insn.isPlain]

/-- Everything is as before but the first register. -/
structure State.KeepsRest (s t : State) : Prop extends s.Keeps t where
  others : ∀ r, r ≠ .rax → t.regs (.tracked r) = s.regs (.tracked r)

theorem State.KeepsRest.of_regs {s t : State} (hmem : t.mem = s.mem)
    (hregs : ∀ r, r ≠ .tracked .rax → t.regs r = s.regs r) : s.KeepsRest t :=
  ⟨⟨hmem, hregs _ (by simp), hregs _ (by simp)⟩, fun _ hr => hregs _ (by simpa using hr)⟩

theorem State.keepsRest_set (s : State) (v : Word) : s.KeepsRest (s.set (.tracked .rax) v).next :=
  .of_regs rfl fun r hr => by simp [State.set_regs_ne, hr]

/-- The code of a unary operation changes the first register only. -/
theorem unaryCode_keeps {h : Host} (op : UnaryOp) (s : State) : h.Ensures True (unaryCode op) s s.KeepsRest := by
  cases op
  case len =>
    simp only [unaryCode, Host.ensures_load, Host.ensures_nil]
    exact fun _ _ => s.keepsRest_set _
  case not =>
    simp only [unaryCode, Host.ensures_compareZero]
    rw [Host.ensures_setFlag (f := .ofDifference (s.regs (.tracked .rax)) 0) rfl, Host.ensures_widenFlag,
      Host.ensures_nil]
    exact .of_regs rfl fun r hr => by simp [State.set_regs_ne, hr]
  all_goals
    simp only [unaryCode, Host.ensures_step, Host.ensures_nil]
    exact .of_regs rfl fun r hr => by simp [State.set_regs_ne, hr]

namespace Twin

variable {σ : Twin} {K K₁ : Word → Word → Prop} {c c₁ : Cache} {g : GenState}
    {xs ys zs : List Insn} {x : Instr}
  {s t : State}

theorem Holds.of_keeps (hholds : σ.Holds K c s) (hkeeps : s.Keeps t) : σ.Holds K .empty t := by
  refine ⟨.empty .., ?_⟩
  rw [hkeeps.rsp, hkeeps.rbp]
  exact hholds.2

namespace Agrees

/-- Instructions that are executed to a known effect, whatever is known. -/
theorem fixed_ensures (hxs : ∀ x ∈ xs, x.isPlain = true)
    (hensures : ∀ s, σ.Holds K c s → σ.host.Ensures True xs s (σ.Holds K₁ c₁)) :
    σ.Agrees K K₁ c xs xs c₁ :=
  fixed (fun x hx => Insn.isStraight_of_isPlain (hxs x hx)) fun s _ hholds hdoes =>
    hdoes.ensures hxs (hensures s hholds)

/-- Calculations after which nothing is known of the registers. -/
theorem calculation (hxs : ∀ x ∈ xs, x.isPlain = true) (hensures : ∀ s, σ.host.Ensures True xs s s.Keeps) :
    σ.Agrees K K c xs xs .empty :=
  fixed_ensures hxs fun s hholds => (hensures s).mono fun _ hkeeps => hholds.of_keeps hkeeps

theorem forgotten : σ.Agrees K K c [] [] .empty :=
  calculation (by simp) fun s => Host.ensures_nil.mpr (.refl s)

/-- Calculations that change the first register only. -/
theorem replacement (hxs : ∀ x ∈ xs, x.isPlain = true) (hensures : ∀ s, σ.host.Ensures True xs s s.KeepsRest) :
    σ.Agrees K K c xs xs (c.set .rax none) := by
  refine fixed_ensures hxs fun s hholds => (hensures s).mono fun t hkeeps => ?_
  refine ⟨hholds.1.forget .rax hkeeps.toKeeps hkeeps.others, ?_⟩
  rw [hkeeps.rsp, hkeeps.rbp]
  exact hholds.2

end Agrees

section Results

variable {dst : Option Operand} (hbefore : σ.Agrees K K₁ c xs ys g.cache) (hzs : ∀ z ∈ zs, z.isPlain = true)
  (hdst : dst ∈ σ.site.func.operands)
include hbefore hzs hdst

/-- An operation on two registers and the writing of its result. -/
theorem produce_pairs (hensures : ∀ s, σ.host.Ensures True zs s s.Keeps) :
    σ.Pairs (produce σ.site dst) (produce σ.site dst) g fun keep keep' g₁ =>
      σ.Agrees K K₁ c (xs ++ zs ++ keep) (ys ++ zs ++ keep') g₁.cache :=
  .track ((store_codes hdst).mono fun hkeep => (hbefore.trans (.calculation hzs hensures)).trans hkeep)

/-- An operation on the first register and the writing of its result. -/
theorem replace_pairs (hensures : ∀ s, σ.host.Ensures True zs s s.KeepsRest) :
    σ.Pairs (replace σ.site dst) (replace σ.site dst) g fun keep keep' g₁ =>
      σ.Agrees K K₁ c (xs ++ zs ++ keep) (ys ++ zs ++ keep') g₁.cache :=
  .track ((store_codes hdst).mono fun hkeep => (hbefore.trans (.replacement hzs hensures)).trans hkeep)

end Results

/-- Writing an element of an array misses the frame. -/
theorem genSetIndex_codes (hx : x ∈ σ.site.func.code) : σ.Codes K K (genSetIndex σ.site x) g := by
  refine .bind (loadPair_codes (Instr.dst_mem hx) (Instr.src1_mem hx)) fun hpair =>
    .bind (load_codes (reads (Instr.src2_mem hx))).within fun hvalue =>
      .pure ((hpair.trans hvalue).trans (.fixed (by simp [Insn.isStraight]) ?_))
  rintro s t ⟨hknows, hK⟩ hdoes
  have hacts := Host.does_insn.mp hdoes
  obtain ⟨_, _, rfl⟩ := Host.exec_store_eq_ok_iff.mp (hacts.exec rfl)
  refine ⟨hknows.congr rfl (fun _ => rfl) ?_, hK⟩
  funext o
  simp only [Frame.contents]
  cases hoffset : σ.site.frame.offset? o with
  | none => rfl
  | some offset => exact Memory.read_write_of_disjoint _ _ (hacts.2 o offset hoffset)

/-- Writing a word outside the slots of the function changes nothing that is known. -/
theorem Holds.write_outside (hholds : σ.Holds K c s) {a : Nat} {v : Word}
    (ha : a + 8 + 8 * σ.site.frame.slots.size ≤ (s.regs .rbp).toNat ∨ (s.regs .rbp).toNat ≤ a ∧
      a + 8 ≤ 2 ^ 47)
    (hrbp : t.regs .rbp = s.regs .rbp) (hregs : ∀ r, t.regs (.tracked r) = s.regs (.tracked r))
    (hmem : t.mem = s.mem.write a v) (hK : K₁ (t.regs .rsp) (t.regs .rbp)) : σ.Holds K₁ c t :=
  ⟨hholds.1.congr hrbp hregs (Frame.contents_write_outside σ.sound.fits v ha hrbp hmem), hK⟩

/-- Elements are written between the end of the stack and the slots. -/
theorem storeElems_codes {words index : Nat} {elems : List (Option Operand)}
    (helems : ∀ e ∈ elems, e ∈ σ.site.func.operands) (hroom : index + 1 + elems.length ≤ words) :
    σ.Codes (σ.site.Raised words) (σ.site.Raised words) (storeElems σ.site index elems) g := by
  induction elems generalizing index g with
  | nil => exact .pure (.refl _)
  | cons e elems ih =>
    rw [List.forall_mem_cons] at helems
    rw [List.length_cons] at hroom
    refine .bind (load_codes (reads helems.1)).within fun hfirst => .bind (ih helems.2 (by omega)) fun hrest =>
      .pure ((hfirst.trans (.fixed (by simp [Insn.isStraight]) fun s t hholds hdoes => ?_)).trans hrest)
    obtain ⟨_, _, rfl⟩ := Host.exec_store_eq_ok_iff.mp ((Host.does_insn.mp hdoes).exec rfl)
    obtain ⟨hrbp, hslots⟩ := hholds.2
    have haddress : (Address.resolve s (.stack (8 + 8 * index))).toNat = (s.regs .rsp).toNat + 8 * (index + 1) := by
      simp only [Address.resolve, BitVec.toNat_add, BitVec.toNat_ofNat]
      omega
    exact hholds.write_outside (.inl (by omega)) rfl (fun _ => rfl) rfl hholds.2

/-- Building an array leaves the stack below the slots. -/
theorem genArray_codes (hx : x ∈ σ.site.func.code)
    (hpending : ∀ a ∈ g.pending.toList, a ∈ σ.site.func.operands) :
    σ.Codes σ.site.Calm σ.site.Calm (genArray σ.site x) g := by
  refine .get ?_
  dsimp only
  split
  · have hopen : σ.Agrees σ.site.Calm (σ.site.Raised (g.pending.toList.length + 1)) g.cache
        [.grow (arraySize g.pending.toList.length), .storeConst (.stack 0) g.pending.toList.length]
        [.grow (arraySize g.pending.toList.length), .storeConst (.stack 0) g.pending.toList.length] g.cache := by
      refine .fixed_ensures (by simp [Insn.isPlain]) fun s hholds => ?_
      obtain ⟨hrbp, hsettled⟩ := hholds.2
      refine openArray_ensures hsettled fun t hroom hslots hrbp' hregs hmem => ?_
      refine hholds.write_outside (.inl (by omega)) hrbp' hregs hmem ?_
      rw [hrbp']
      exact ⟨hrbp, by omega⟩
    refine .takePending (.bind (storeElems_codes hpending (by omega)) fun helems =>
      .bind (replace_pairs (hopen.trans helems) (by simp [Insn.isPlain]) (Instr.dst_mem hx) fun s => ?_) fun hdone =>
        .pure (hdone.imp (fun _ hs => hs) fun _ hs => hs.mono fun hK => ⟨hK.1, fun _ => ?_⟩))
    · rw [Host.ensures_mov, Host.ensures_nil]
      exact s.keepsRest_set _
    · have := hK.2
      omega
  · exact .fail

variable {args : List (Option Operand)}

theorem loadRegArgs_codes {index : Nat} {regs : List Reg}
    (hargs : ∀ a ∈ args, a ∈ σ.site.func.operands) : σ.Codes K K (loadRegArgs σ.site index args regs) g := by
  induction args generalizing index regs g with
  | nil =>
    rw [loadRegArgs.eq_def]
    exact .pure (.refl _)
  | cons a args ih =>
    rw [List.forall_mem_cons] at hargs
    cases regs with
    | nil => exact .pure (.refl _)
    | cons r regs =>
      exact .bind (load_codes (reads hargs.1)).within fun hfirst => .bind (ih hargs.2) fun hrest =>
        .pure (hfirst.trans hrest)

/-- Stack arguments are pushed below the slots. -/
theorem pushArgs_codes (top : Word) (bytes : Nat) {args : List (Nat × Option Operand)}
    (hargs : ∀ a ∈ args, a.2 ∈ σ.site.func.operands) :
    σ.Codes (σ.site.Pushing top bytes) (σ.site.Pushing top (bytes + 8 * args.length)) (pushArgs σ.site args) g := by
  induction args generalizing bytes g with
  | nil => exact .pure (.refl _)
  | cons a args ih =>
    rw [List.forall_mem_cons] at hargs
    rw [List.length_cons, show bytes + 8 * (args.length + 1) = bytes + 8 + 8 * args.length by omega]
    refine .bind (load_codes (reads hargs.1)).within fun hfirst => .bind (ih (bytes + 8) hargs.2) fun hrest =>
      .pure ((hfirst.trans (.fixed_ensures (by simp [Insn.isPlain]) fun s hholds => ?_)).trans hrest)
    obtain ⟨hrsp, hcalm, hclear⟩ := hholds.2
    rw [Host.ensures_push]
    intro haccess
    rw [Host.ensures_nil]
    obtain ⟨hnext, hbound⟩ := Host.push_bound haccess
    have hslots := hclear hbound
    have hrbp : (s.set .rsp (s.regs .rsp - 8)).regs .rbp = s.regs .rbp := s.set_regs_ne _ (by simp)
    have htracked : ∀ r, (s.set .rsp (s.regs .rsp - 8)).regs (.tracked r) = s.regs (.tracked r) :=
      fun r => s.set_regs_ne _ (by simp)
    refine hholds.write_outside (a := (s.regs .rsp - 8).toNat) (.inl (by omega)) hrbp htracked rfl ?_
    simp only [State.next_regs, State.set_regs_same, hrbp]
    refine ⟨?_, hcalm, fun _ => by omega⟩
    rw [hrsp, BitVec.ofNat_add, ← BitVec.sub_sub]
    rfl

/-- Stack arguments are written above the base of the frame. -/
theorem overwriteArgs_codes {args : List (Nat × Option Operand)}
    (hargs : ∀ a ∈ args, a.2 ∈ σ.site.func.operands ∧ 6 ≤ a.1) :
    σ.Codes σ.site.Calm σ.site.Calm (overwriteArgs σ.site args) g := by
  induction args generalizing g with
  | nil => exact .pure (.refl _)
  | cons a args ih =>
    rw [List.forall_mem_cons] at hargs
    refine .bind (load_codes (reads hargs.1.1)).within fun hfirst => .bind (ih hargs.2) fun hrest =>
      .pure ((hfirst.trans (.fixed (by simp [Insn.isStraight]) fun s t hholds hdoes => ?_)).trans hrest)
    obtain ⟨hfits, haccess, rfl⟩ := Host.exec_store_eq_ok_iff.mp ((Host.does_insn.mp hdoes).exec rfl)
    have hbound := σ.host.accessible_bound _ haccess
    have haddress := stackArg_resolve hargs.1.2 hfits hholds.2.1
    exact hholds.write_outside (.inr ⟨by omega, hbound⟩) rfl (fun _ => rfl) rfl hholds.2

theorem le_of_mem_stackArgs {a : Nat × Option Operand} (ha : a ∈ stackArgs args) :
    6 ≤ a.1 := by
  simp only [stackArgs, List.mem_mapIdx] at ha
  obtain ⟨i, _, rfl⟩ := ha
  exact Nat.le_add_left 6 i

/-- A call of the function by itself in last position ends with a jump to its entry. -/
theorem tailJump_pairs (hargs : ∀ a ∈ args, a ∈ σ.site.func.operands) :
    σ.Pairs (tailJump σ.site args) (tailJump σ.site args) g fun xs ys g₁ =>
      ∃ xs' ys', xs = xs' ++ [.jump "entry"] ∧ ys = ys' ++ [.jump "entry"] ∧
        σ.Agrees σ.site.Calm σ.site.Calm g.cache xs' ys' g₁.cache := by
  unfold tailJump
  split
  · exact .fail
  · refine .bind (overwriteArgs_codes fun a ha => ⟨hargs _ (mem_stackArgs ha), le_of_mem_stackArgs ha⟩)
      fun hstack =>
      .bind (loadRegArgs_codes (K := σ.site.Calm) hargs) fun hregs => .track (.pure ⟨_, _, rfl, rfl, ?_⟩)
    simpa using (hstack.trans hregs).trans .forgotten

/-- Padding below the stack of a caller. -/
theorem Agrees.reserve (top : Word) {pad : Nat} (hpad : pad ≤ 8) :
    σ.Agrees (fun rsp rbp => rsp = top ∧ σ.site.Calm rsp rbp) (σ.site.Pushing top pad) c
      (if pad = 0 then [] else [.grow pad]) (if pad = 0 then [] else [.grow pad]) c := by
  refine .fixed_ensures ?_ fun s hholds => ?_
  · split <;> simp [Insn.isPlain]
  · obtain ⟨rfl, hcalm⟩ := hholds.2
    refine reserve_ensures pad fun t _ hrsp hother hmem => ?_
    have hrbp := hother .rbp (by simp)
    refine ⟨hholds.1.congr hrbp (fun r => hother _ (by simp)) (Frame.contents_congr hmem hrbp), hrsp, ?_, ?_⟩
    · rw [hrbp]
      exact hcalm
    · exact Site.Settled.clear_of_pad hcalm.2 hpad hrsp hrbp

/-- A call gives back the bytes that were pushed for it. -/
theorem Agrees.release {top : Word} {bytes : Nat} :
    σ.Agrees (σ.site.Pushing top bytes) σ.site.Calm c (if bytes = 0 then [] else [.shrink bytes])
      (if bytes = 0 then [] else [.shrink bytes]) c := by
  refine .fixed_ensures ?_ fun s hholds => ?_
  · split <;> simp [Insn.isPlain]
  · obtain ⟨htop, hcalm, _⟩ := hholds.2
    refine release_ensures bytes fun t hrsp hother hmem => ?_
    have hrbp := hother .rbp (by simp)
    refine ⟨hholds.1.congr hrbp (fun r => hother _ (by simp)) (Frame.contents_congr hmem hrbp), ?_⟩
    rw [hrsp, hrbp, htop, BitVec.sub_add_cancel]
    exact hcalm

/-- Nothing is known after a call but where the stack and the frame are. -/
theorem Agrees.call (name : String) : σ.Agrees K K c [.call name] [.call name] .empty := by
  refine .fixed (by simp [Insn.isStraight]) fun s t hholds hdoes => ?_
  obtain ⟨_, _, hrsp, hrbp⟩ := Host.does_insn.mp hdoes
  refine ⟨.empty .., ?_⟩
  rw [hrsp, hrbp]
  exact hholds.2

theorem plainCall_codes {name : String} {dst : Option Operand}
    (hargs : ∀ a ∈ args, a ∈ σ.site.func.operands) (hdst : dst ∈ σ.site.func.operands) :
    σ.Codes σ.site.Calm σ.site.Calm (plainCall σ.site name args dst) g := by
  let pad := 8 * ((stackArgs args).length % 2)
  refine .name_rsp fun top =>
    .bind (pushArgs_codes top pad fun a ha => hargs _ (mem_stackArgs (List.mem_reverse.mp ha))) fun hpushes =>
      .bind (loadRegArgs_codes (K := σ.site.Pushing top (8 * (stackArgs args).length + pad)) hargs) fun hregs =>
        .track ?_
  rw [List.length_reverse, Nat.add_comm] at hpushes
  have hcalled := (((Agrees.reserve top (by omega)).trans hpushes).trans hregs).trans
    ((Agrees.call name).trans .release)
  dsimp only
  split
  · refine .bind (P := fun xs ys g₁ => σ.Agrees σ.site.Calm σ.site.Calm .empty xs ys g₁.cache) (.pure (.refl _))
      fun hkeep => .pure ?_
    simpa only [List.append_assoc] using hcalled.trans hkeep
  · refine .bind (store_codes (K := σ.site.Calm) hdst) fun hkeep => .pure ?_
    simpa only [List.append_assoc] using hcalled.trans hkeep

end Twin

/-- How the lines of an instruction end: without more, with a mark, or with a jump that is always or
    perhaps taken. -/
inductive Ending where
  | through
  | mark (name : String)
  | jump (name : String)
  | branch (name : String)

namespace Ending

def lines : Ending → List Line
  | .through => []
  | .mark name => [.mark name]
  | .jump name => [.insn (.jump name)]
  | .branch name => [.insn (.jumpIfZero name)]

theorem lines_length (e : Ending) : e = .through ∨ e.lines.length = 1 := by
  cases e <;> simp [lines]

/-- The marks and the targets of jumps are those of the instruction, or the ends of the function. -/
def Suits (x : Instr) : Ending → Prop
  | .through => True
  | .mark name => x.label? = some name
  | .jump name => name = "entry" ∨ name = "exit" ∨ x.target? = some name
  | .branch name => x.target? = some name

end Ending

namespace Twin

variable {σ : Twin} {K : Word → Word → Prop} {c c₁ : Cache} {g : GenState} {x : Instr} {i : Nat}

/-- The lines of an instruction and those in the twin do the same and end alike. -/
structure Splits (σ : Twin) (x : Instr) (c : Cache) (xs : List Insn) (e : Ending) (code : List Line) (ys : List Insn)
    (code' : List Line) (c₁ : Cache) : Prop where
  lines : code = xs.map .insn ++ e.lines
  lines' : code' = ys.map .insn ++ e.lines
  suits : e.Suits x
  agrees : σ.Agrees σ.site.Calm σ.site.Calm c xs ys c₁

/-- The lines of an instruction do the same both times, and cover the next one both times or not. -/
def Halves (σ : Twin) (x : Instr) (g : GenState) (r r' : List Line × Bool) (g₁ : GenState) : Prop :=
  r'.2 = r.2 ∧ ∃ xs e ys, σ.Splits x g.cache xs e r.1 ys r'.1 g₁.cache

variable {xs ys : List Insn} {g₁ : GenState}

theorem Halves.plain
    (hagrees : σ.Agrees σ.site.Calm σ.site.Calm g.cache xs ys g₁.cache) :
    σ.Halves x g (xs.map .insn, false) (ys.map .insn, false) g₁ :=
  ⟨rfl, xs, .through, ys, by simp [Ending.lines], by simp [Ending.lines], trivial, hagrees⟩

/-- Lines that end with a jump. -/
theorem Halves.jump {name : String} {covered : Bool}
    (hagrees : σ.Agrees σ.site.Calm σ.site.Calm g.cache xs ys g₁.cache) (hname : (Ending.jump name).Suits x) :
    σ.Halves x g ((xs ++ [Insn.jump name]).map .insn, covered) ((ys ++ [Insn.jump name]).map .insn, covered) g₁ :=
  ⟨rfl, xs, .jump name, ys, by simp [Ending.lines], by simp [Ending.lines], hname, hagrees⟩

/-- A return ends with a jump, unless it is the last instruction. -/
theorem Halves.returned
    (hagrees : σ.Agrees σ.site.Calm σ.site.Calm g.cache xs ys g₁.cache) :
    σ.Halves x g ((xs ++ if i + 1 < σ.site.func.code.length then [Insn.jump "exit"] else []).map .insn, false)
      ((ys ++ if i + 1 < σ.site.func.code.length then [Insn.jump "exit"] else []).map .insn, false) g₁ := by
  split
  · exact .jump hagrees (.inr (.inl rfl))
  · simpa only [List.append_nil] using .plain hagrees

/-- Nothing follows where the program ends itself. -/
theorem Agrees.exits : σ.Agrees K K c [.movConst .rax 60, .syscall] [.movConst .rax 60, .syscall] c₁ := by
  refine .fixed (by simp [Insn.isStraight]) fun s t _ hdoes => ?_
  obtain ⟨u, _, hrest⟩ := hdoes
  have hexec := (Host.does_insn.mp hrest).exec rfl
  simp only [Host.exec] at hexec
  split at hexec <;> cases hexec

theorem genCall_pairs (hx : x ∈ σ.site.func.code)
    (hpending : ∀ a ∈ g.pending.toList, a ∈ σ.site.func.operands) :
    σ.Pairs (genCall σ.site i x) (genCall σ.site i x) g fun r r' g₁ =>
      σ.Halves x g (r.1.map .insn, r.2) (r'.1.map .insn, r'.2) g₁ := by
  unfold genCall
  split
  · refine .get ?_
    dsimp only
    split
    · refine .takePending ?_
      split
      · refine .bind (tailJump_pairs hpending) ?_
        rintro _ _ g₁ ⟨xs, ys, rfl, rfl, hagrees⟩
        exact .pure (.jump hagrees (.inl rfl))
      · exact .bind (plainCall_codes hpending (Instr.dst_mem hx)) fun hagrees => .pure (.plain hagrees)
    · exact .fail
  · exact .fail

/-- Every instruction of a function does the same as its twin. -/
theorem genInstr_pairs (hx : x ∈ σ.site.func.code) (hmeets : x.Meets)
    (hpending : ∀ a ∈ g.pending.toList, a ∈ σ.site.func.operands) :
    σ.Pairs (genInstr σ.site i x) (genInstr σ.site i x) g (σ.Halves x g) := by
  have hdst := Instr.dst_mem hx
  have hsrc1 := Instr.src1_mem hx
  have hsrc2 := Instr.src2_mem hx
  have hnone : σ.Agrees σ.site.Calm σ.site.Calm g.cache [] [] g.cache := .refl _
  unfold genInstr
  unfold Instr.Meets at hmeets
  dsimp only
  cases hop : x.op <;> simp only [hop] at hmeets <;> dsimp only
  case nop => exact .pure (.plain hnone)
  case binary op =>
    refine .bind (loadPair_codes hsrc1 hsrc2) fun hpair =>
      .bind (produce_pairs hpair (isPlain_binaryCode op) hdst fun s => ?_) fun hdone => .pure (.plain hdone)
    exact (binaryCode_ensures op rfl rfl fun _ _ _ _ hkeeps => hkeeps).weaken fun _ => trivial
  case compare op =>
    exact .bind (loadPair_codes hsrc1 hsrc2) fun hpair => .bind (produce_pairs hpair (isPlain_compareCode op) hdst
      fun s => compareCode_ensures op rfl rfl fun _ _ hkeeps => hkeeps) fun hdone => .pure (.plain hdone)
  case unary op =>
    exact .bind (load_codes (reads hsrc1)) fun harg => .bind (replace_pairs harg (isPlain_unaryCode op) hdst
      (unaryCode_keeps op)) fun hdone => .pure (.plain hdone)
  case index =>
    refine .bind (loadPair_codes hsrc1 hsrc2) fun hpair =>
      .bind (replace_pairs hpair (by simp [Insn.isPlain]) hdst fun s => ?_) fun hdone => .pure (.plain hdone)
    rw [Host.ensures_load]
    intro _ _
    rw [Host.ensures_nil]
    exact s.keepsRest_set _
  case setIndex => exact .bind (genSetIndex_codes hx) fun hdone => .pure (.plain hdone)
  case array => exact .bind (genArray_codes hx hpending) fun hdone => .pure (.plain hdone)
  case arg =>
    refine .bind (P := fun _ _ g₁ => σ.Agrees σ.site.Calm σ.site.Calm g.cache [] [] g₁.cache) (.get ?_)
      fun hdone =>
      .pure (.plain hdone)
    dsimp only
    split
    · intro hg _ _ _ _ ha hb
      cases ha
      cases hb
      exact ⟨hg, rfl, hnone⟩
    · exact .fail
  case call => exact .bind (genCall_pairs hx hpending) fun hdone => .pure hdone
  case label =>
    obtain ⟨name, hname⟩ := hmeets
    rw [hname]
    exact .track (.pure ⟨rfl, [], .mark name, [], rfl, rfl, Instr.label?_eq_some_iff.mpr ⟨hop, hname⟩,
      .forgotten⟩)
  case jump =>
    obtain ⟨name, hname⟩ := hmeets
    rw [hname]
    exact .pure (.jump hnone (.inr (.inr (by simp [Instr.target?, hop, hname]))))
  case jumpIfFalse =>
    obtain ⟨⟨name, hname⟩, _⟩ := hmeets
    rw [hname]
    refine .bind (load_codes (reads hsrc1)) fun {test test' g₁} htest => .pure ⟨rfl, test ++ [.compareZero .rax],
      .branch name, test' ++ [.compareZero .rax], by simp [Ending.lines], by simp [Ending.lines],
      by simp [Ending.Suits, Instr.target?, hop, hname],
      htest.trans (.fixed_ensures (by simp [Insn.isPlain]) fun s hholds => ?_)⟩
    rw [Host.ensures_compareZero, Host.ensures_nil]
    exact ⟨hholds.1.congr rfl (fun _ => rfl) rfl, hholds.2⟩
  case ret =>
    split
    · exact .pure (.returned hnone)
    · exact .bind (load_codes (reads hsrc1)) fun hvalue => .pure (.returned hvalue)
  case exit =>
    have hreads : ∀ o, some (x.src1.getD (.const (.int 0))) = some o → σ.site.Reads σ.strings o := by
      cases hsrc : x.src1 with
      | none =>
        rintro o ⟨⟩
        exact ⟨by simp [Operand.isStorage], by simp⟩
      | some o => exact reads (hsrc ▸ hsrc1)
    exact .bind (load_codes hreads) fun hload => .track (.pure (.plain (hload.trans .exits)))
  all_goals
    exact .bind (load_codes (reads hsrc1)) fun hvalue => .bind (store_codes hdst) fun hkeep =>
      .pure (.plain (hvalue.trans hkeep))

/-- A parameter that no register holds is written from one, which holds it then. -/
theorem Holds.bound {s t : State} {o : Operand} {r : Reg} {offset : Int} (hholds : σ.Holds K (c.set r none) s)
    (ho : some o ∈ σ.site.func.operands) (hoffset : σ.site.frame.offset? o = some offset)
    (hfresh : ∀ r, c.get r ≠ some o) (hexec : σ.host.exec s (.store (.frame offset) r) = .ok t) :
    σ.Holds K (c.set r (some o)) t := by
  obtain ⟨hfits, haccess, ht⟩ := Host.exec_store_eq_ok_iff.mp hexec
  have hwrote : Wrote σ.host σ.site o (s.regs (.tracked r)) s t :=
    ht ▸ ⟨rfl, rfl, offset, hoffset, haccess, rfl⟩
  have hfetches : σ.host.Fetches σ.site.frame s o := by
    refine ⟨.inr ⟨offset, hoffset⟩, ?_, fun offset' hoffset' => ?_⟩
    · rintro kind rfl
      simp [Frame.offset?, Frame.slot?] at hoffset
    · cases hoffset.symm.trans hoffset'
      exact ⟨hfits, haccess⟩
  have hwritten := hholds.1.wrote σ.sound.apart σ.sound.fits ho hfetches hwrote fun _ => ht ▸ rfl
  refine ⟨hwritten.of_get fun r' => ?_, by rw [hwrote.rsp, hwrote.rbp]; exact hholds.2⟩
  rw [Cache.get_set, Cache.get_written, Cache.get_set]
  by_cases hr : r' = r
  · simp [hr]
  · simp [hr, hfresh r']

/-- The incoming arguments are copied alike. -/
theorem bindParams_pairs {index : Nat} {os : List (Option Operand)} {regs : List Reg}
    (hos : ∀ o ∈ os, o ∈ σ.site.func.operands) (hnodup : os.Nodup)
    (hfresh : ∀ o ∈ os, ∀ r, g.cache.get r ≠ o) :
    σ.Pairs (bindParams σ.site index os regs) (bindParams σ.site index os regs) g fun xs ys g₁ =>
      ys = xs ∧ σ.Agrees K K g.cache xs ys g₁.cache := by
  induction os generalizing index regs g with
  | nil => exact .pure ⟨rfl, .refl _⟩
  | cons a os ih =>
    obtain ⟨ha, htail⟩ := List.nodup_cons.mp hnodup
    rw [List.forall_mem_cons] at hos hfresh
    cases a with
    | none => exact .fail
    | some o =>
      cases hoffset : σ.site.frame.offset? o with
      | none =>
        simp only [bindParams, Option.bind_some, hoffset]
        exact .fail
      | some offset =>
        -- Whichever register takes the parameter, none of the others is held by any.
        have hfresh' : ∀ r, ∀ a ∈ os, ∀ r', (g.cache.set r (some o)).get r' ≠ a := by
          intro r a hmem r'
          rw [Cache.get_set]
          split
          · rintro rfl
            exact ha hmem
          · exact hfresh.2 a hmem r'
        cases regs with
        | cons r regs =>
          simp only [bindParams, Option.bind_some, hoffset]
          refine .track (.bind (ih hos.2 htail (hfresh' r)) ?_)
          rintro rest _ g₁ ⟨rfl, hrest⟩
          refine .pure ⟨rfl, Agrees.trans (.fixed (by simp [Insn.isStraight]) fun s t hholds hdoes => ?_) hrest⟩
          have hforgot : σ.Holds K (g.cache.set r none) s :=
            ⟨hholds.1.forget r (.refl s) fun _ _ => rfl, hholds.2⟩
          exact hforgot.bound hos.1 hoffset hfresh.1 ((Host.does_insn.mp hdoes).exec rfl)
        | nil =>
          simp only [bindParams, Option.bind_some, hoffset]
          refine .track (.bind (ih hos.2 htail (hfresh' .rax)) ?_)
          rintro rest _ g₁ ⟨rfl, hrest⟩
          refine .pure ⟨rfl, Agrees.trans (.fixed (by simp [Insn.isStraight]) fun s t hholds hdoes => ?_) hrest⟩
          obtain ⟨u, hload, hstore⟩ := hdoes
          have hexec := (Host.does_insn.mp ⟨u, hload, rfl⟩).exec rfl
          obtain ⟨_, _, rfl⟩ := Host.exec_load_eq_ok_iff.mp hexec
          have hstored := (Host.does_insn.mp hstore).exec rfl
          refine Holds.bound ?_ hos.1 hoffset hfresh.1 hstored
          have hkeeps := s.keepsRest_set (s.mem.read (Address.resolve s (.frame (stackArg index))).toNat)
          refine ⟨hholds.1.forget .rax hkeeps.toKeeps hkeeps.others, ?_⟩
          rw [hkeeps.rsp, hkeeps.rbp]
          exact hholds.2

end Twin

end TreeCompiler.Asm
