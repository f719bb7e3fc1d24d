import TreeCompiler.Proofs.Asm.CallSteps
import TreeCompiler.Proofs.Lower.Program

namespace TreeCompiler.Asm

open Code

/-- What a machine executes for an instruction is what the instruction does. -/
theorem Routine.Step.ends {im : Image} {r : Routine im} {before : Heap} {entry : State} {a : Activation}
    {e : Halt} {n : Nat} (st : r.Step before entry a e n) (hlater : r.Later before entry e n a.index)
    (hless : ∀ m, m < n → im.Simulates e m) : r.Ends before entry a n e := by
  cases hop : st.x.op with
  | nop => exact st.nop hlater hop
  | binary op => exact st.binary hlater hop
  | compare op => exact st.compare hlater hop
  | unary op => exact st.unary hlater hop
  | move => exact st.move hlater (.inl hop)
  | load => exact st.move hlater (.inr (.inl hop))
  | store => exact st.move hlater (.inr (.inr hop))
  | array => exact st.array hop hlater
  | index => exact st.index hlater hop
  | setIndex => exact st.setIndex hlater hop
  | arg => exact st.arg hlater hop
  | call => exact st.call hop hlater hless
  | label => exact st.label hlater hop
  | jump => exact st.jump hop hless
  | jumpIfFalse => exact st.jumpIfFalse hop hlater hless
  | ret => exact st.ret hop
  | exit => exact st.exit hop
  | unknown n => exact (st.meets.parts hop rfl rfl rfl).elim

namespace Image

variable (im : Image)

/-- Every run of the machine that stops shows what the activation can do. -/
theorem simulates {e : Halt} (hhalts : e ≠ .fault) (n : Nat) : im.Simulates e n := by
  induction n using Nat.strongRecOn with
  | ind n hless =>
    intro r before entry g lines behind a s hat hrun
    induction hleft : r.site.func.code.length - a.index using Nat.strongRecOn
      generalizing g lines behind a s with
    | ind left hindex =>
      obtain ⟨m, hm, ⟨st⟩⟩ := hat.step hrun hhalts
      refine (st.ends ?_ fun k hk => hless k (by omega)).mono hm
      intro k g lines behind a' s hk hlt hat' hrun'
      by_cases hkn : k < n
      · exact hless k hkn r hat' hrun'
      · obtain rfl : k = n := by omega
        exact hindex _ (by have := hat'.inside; omega) hat' hrun' rfl

end Image

/-- The outcome that a stopped machine shows. -/
def Halt.outcome? : Halt → Option Outcome
  | .left s => some (.returned (s.regs (.tracked .rax)))
  | .exited code => some (.exited code)
  | .divideError => some .trapped
  | .fault => none

/-- The outcome that a machine shows within a number of steps. -/
def Host.outcome? (h : Host) (n : Nat) (s : State) : Option Outcome :=
  match h.run n s with
  | .ok _ => none
  | .error e => e.outcome?

/-- A machine is about to run a function on arguments: it stands at the function's symbol, the
    arguments are in the registers and on the stack, and the return address is outside. -/
structure Host.Calls (h : Host) (f : Func) (args : List Word) (s : State) : Prop where
  length : args.length = f.params.length
  symbol : h.symbol? f.name = some s.pc
  passed : Passed s ((s.regs .rsp).toNat + 8) 0 args
  outside : h.lineAt (s.mem.read (s.regs .rsp).toNat) = none

/-- A host that numbers the lines of a text and has memory everywhere. -/
def Host.flat (lines : List Line) (hlines : lines.length < 2 ^ 50) : Host where
  lines
  address i := BitVec.ofNat 64 i
  lineAt a := if a.toNat ≤ lines.length then some a.toNat else none
  dataAddress i := BitVec.ofNat 64 (2 ^ 41 + i)
  accessible a := a + 8 ≤ 2 ^ 47
  lineAt_address i hi := by
    rw [BitVec.toNat_ofNat, Nat.mod_eq_of_lt (by omega), if_pos hi]
  accessible_bound _ ha := of_decide_eq_true ha

/-- A machine with arguments in its registers and a return address that no line has. -/
def State.calling (pc : Nat) (args : List Word) : State where
  regs
    | .rsp => 0x10000000000#64
    | .rbp => 0
    | .tracked r => args.getD (Reg.args.idxOf r) 0
  flags := none
  mem := Memory.write (fun _ => 0) (0x10000000000#64).toNat 0x4000000000000#64
  pc

theorem Host.calls_flat {lines : List Line} {hlines : lines.length < 2 ^ 50} {f : Func} {args : List Word}
    {pc : Nat} (hlength : args.length = f.params.length) (hargs : args.length ≤ 6)
    (hsymbol : (flat lines hlines).symbol? f.name = some pc) :
    (flat lines hlines).Calls f args (.calling pc args) := by
  refine ⟨hlength, hsymbol, ⟨fun j v r hv hr => ?_, fun j v hv hj => ?_⟩, ?_⟩
  · rw [Nat.zero_add] at hr
    obtain ⟨hj, rfl⟩ := List.getElem?_eq_some_iff.mp hr
    have hindex := List.Nodup.idxOf_getElem (show Reg.args.Nodup by decide) _ hj
    simp only [State.calling, hindex, List.getD_eq_getElem?_getD, hv, Option.getD_some]
  · have hlt := (List.getElem?_eq_some_iff.mp hv).1
    omega
  · have hread : (State.calling pc args).mem.read ((State.calling pc args).regs .rsp).toNat =
        0x4000000000000#64 := Memory.read_write_same ..
    have hoff : ¬ (0x4000000000000#64).toNat ≤ lines.length := by
      rw [show (0x4000000000000#64).toNat = 2 ^ 50 by decide]
      omega
    rw [hread]
    exact if_neg hoff

/-- A machine that runs a function and stops shows an outcome of the function, or the function got
    stuck. -/
theorem Image.run_of_stopped (im : Image) {f : Func} (hf : f ∈ im.program.funcs) (hinternal : f.isExternal = false)
    {args : List Word} {s : State} (hcalls : im.host.Calls f args s) {n : Nat} {o : Outcome}
    (hstops : im.host.outcome? n s = some o) :
    ∃ junk heap, Run im.address im.frees im.program f (f.start args junk .empty) o heap ∨
      ¬ im.program.ArrayFree ∧
        Run im.address im.frees im.program f (f.start args junk .empty) .stuck heap := by
  obtain ⟨e, hrun, ho⟩ : ∃ e, im.host.run n s = .error e ∧ e.outcome? = some o := by
    unfold Host.outcome? at hstops
    split at hstops
    · cases hstops
    · next e hrun => exact ⟨e, hrun, hstops⟩
  have hhalts : e ≠ .fault := by
    rintro rfl
    cases ho
  obtain ⟨site, start, params, opened, body, rfl, hplaced⟩ :=
    exists_placed im.wellFormed im.text hf hinternal
  have hstart : s.pc = start := Option.some.inj (hcalls.symbol.symm.trans hplaced.symbol)
  obtain ⟨r, rfl, junk, o', heap, hends, hshows⟩ := Routine.enter hplaced hcalls.passed hcalls.length
    (Held.empty s.mem) (fun _ _ hb => by cases hb) hstart hrun hhalts fun m _ => im.simulates hhalts m
  refine ⟨junk, heap, ?_⟩
  cases o' with
  | returned v =>
    obtain ⟨t, m, _, hreturned, hresumes⟩ := hshows
    simp only [Host.Resumes, hcalls.outside] at hresumes
    subst hresumes
    cases ho
    rw [hreturned.rax]
    exact .inl hends
  | exited code =>
    cases hshows
    cases ho
    exact .inl hends
  | trapped =>
    cases hshows
    cases ho
    exact .inl hends
  | stuck => exact .inr ⟨hshows, hends⟩

/-- The text of a program without arrays does what the program says. -/
theorem canEnd_of_stopped {prog : Tree.Program} {p : Code.Program} (hbuild : buildCode prog = .ok p)
    (hfree : p.ArrayFree) {options : Options} {h : Host} (htext : genProgram options p = .ok h.lines)
    {address : Bytes → Word} (hplaces : h.Places address (StringTable.ofProgram p)) {f : Func}
    (hf : f ∈ p.funcs) (hinternal : f.isExternal = false) {args : List Word} {s : State}
    (hcalls : h.Calls f args s) {n : Nat} {o : Outcome} (hstops : h.outcome? n s = some o) :
    p.CanEnd address f args o := by
  let im : Image :=
    { host := h, options, program := p, address, frees := fun _ _ => false
      wellFormed := buildCode_wellFormed hbuild, text := htext, places := hplaces
      restarts_of_frees := fun _ _ _ hfrees => by cases hfrees
      frees_of_restarts := fun f hf _ _ harrays => by
        obtain ⟨x, hx, hop⟩ := List.any_eq_true.mp harrays
        have hnone := hfree f hf x hx
        rw [of_decide_eq_true hop] at hnone
        cases hnone }
  obtain ⟨junk, heap, hends | ⟨harrays, _⟩⟩ := im.run_of_stopped hf hinternal hcalls hstops
  · exact ⟨junk, heap, hends⟩
  · exact (harrays hfree).elim

/-- A sum that is counted up in a parameter. -/
def sumTree : Tree.Program where
  body := [.func ⟨"sum", [⟨"n", .number⟩, ⟨"acc", .number⟩], .number, true, false⟩
    (.cond (.var "n")
      (.ret (.call "sum" [.binary "-" (.var "n") (.literal (.number 1)), .binary "+" (.var "acc") (.var "n")]))
      (.ret (.var "acc")))]

def sumCode : Code.Program :=
  (buildCode sumTree).toOption.getD ⟨[], []⟩

def sumLines : List Line :=
  (genProgram {} sumCode).toOption.getD []

theorem length_sumLines : sumLines.length < 2 ^ 50 := by
  decide +kernel

theorem canEnd_sum : ∃ p f, buildCode sumTree = .ok p ∧ p.func? "sum" = some f ∧
    p.CanEnd (fun _ => 0) f [2, 0] (.returned 3) := by
  have hbuild : buildCode sumTree = .ok sumCode := eq_ok_of_toOption (by decide +kernel)
  have htext : genProgram {} sumCode = .ok (Host.flat sumLines length_sumLines).lines :=
    eq_ok_of_toOption (by decide +kernel)
  have hstrings : (StringTable.ofProgram sumCode).strings = #[] := by decide +kernel
  have hfree : ∀ g ∈ sumCode.funcs, ∀ x ∈ g.code, x.op.usesArrays = false := by decide +kernel
  have hkinds : ∀ g ∈ sumCode.funcs, g.isExternal = false ∧ [2, 0].length = g.params.length := by
    decide +kernel
  obtain ⟨f, hfunc⟩ : ∃ f, sumCode.func? "sum" = some f := Option.isSome_iff_exists.mp (by decide +kernel)
  obtain ⟨hf, hname⟩ := Code.Program.mem_of_func? hfunc
  have hplaces : (Host.flat sumLines length_sumLines).Places (fun _ => 0) (StringTable.ofProgram sumCode) := by
    intro t ht
    simp [hstrings] at ht
  have hsymbol : (Host.flat sumLines length_sumLines).symbol? "sum" = some 5 := by decide +kernel
  have hstops : (Host.flat sumLines length_sumLines).outcome? 120 (.calling 5 [2, 0]) = some (.returned 3) := by
    decide +kernel
  refine ⟨sumCode, f, hbuild, hfunc, ?_⟩
  have hcalls : (Host.flat sumLines length_sumLines).Calls f [2, 0] (.calling 5 [2, 0]) :=
    Host.calls_flat (hkinds f hf).2 (by decide) (hname ▸ hsymbol)
  exact canEnd_of_stopped hbuild hfree htext hplaces hf (hkinds f hf).1 hcalls hstops

end TreeCompiler.Asm
