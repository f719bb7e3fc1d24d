import TreeCompiler.Proofs.Asm.Image

namespace TreeCompiler.Asm

open Code

/-- A function came back to its caller with a value and left arrays as they are now. -/
structure Returned (site : Site) (entry : State) (before heap : Heap) (v : Word) (t : State) : Prop where
  rax : t.regs (.tracked .rax) = v
  rsp : t.regs .rsp = entry.regs .rsp + 8
  rbp : t.regs .rbp = entry.regs .rbp
  above : ∀ c, site.argsEnd entry ≤ c → ¬ before.Covers c → t.mem c = entry.mem c
  held : Held t.mem heap
  shape : heap.SameShape before

namespace Routine

variable {im : Image}

/-- What a machine that stops within some steps shows of the outcome of a function. -/
def Shows (r : Routine im) (before : Heap) (entry : State) (n : Nat) (e : Halt) (heap : Heap) :
    Outcome → Prop
  | .returned v => ∃ t m, m ≤ n ∧ Returned r.site entry before heap v t ∧ im.host.Resumes entry t m e
  | .exited code => e = .exited code
  | .trapped => e = .divideError
  | .stuck => ¬ im.program.ArrayFree

/-- A machine that stops within some steps shows an outcome that an activation can have. -/
def Ends (r : Routine im) (before : Heap) (entry : State) (a : Activation) (n : Nat) (e : Halt) : Prop :=
  ∃ o heap, Run im.address im.frees im.program r.site.func a o heap ∧ r.Shows before entry n e heap o

/-- A machine stands before the lines of an activation's instruction and shows the activation. -/
structure At (r : Routine im) (before : Heap) (entry : State) (g : GenState) (lines behind : List Line)
    (a : Activation) (s : State) : Prop where
  cut : Cut im.options r.site im.program.arity (StringTable.ofProgram im.program) r.body a.index g lines
    behind
  pc : s.pc = Placed.bodyLine r.start r.site.frame r.params + lines.length
  inside : a.index < r.site.func.code.length
  shows : Matches r.site im.address before entry g a s

/-- A machine that stops is about to execute the code of an activation's instruction. -/
structure Step (r : Routine im) (before : Heap) (entry : State) (a : Activation) (e : Halt) (n : Nat) where
  x : Instr
  g : GenState
  g' : GenState
  code : List Line
  covered : Bool
  lines : List Line
  rest : List Line
  s : State
  instr : r.site.func.code[a.index]? = some x
  gen : genInstr r.site a.index x g = .ok ((code, covered), g')
  cut : Cut im.options r.site im.program.arity (StringTable.ofProgram im.program) r.body
    (if covered then a.index + 2 else a.index + 1) g' (lines ++ code) rest
  ready : Ready r.site im.program.arity (x :: r.site.func.code.drop (a.index + 1)) g
  strings : g.strings = StringTable.ofProgram im.program
  pc : s.pc = Placed.bodyLine r.start r.site.frame r.params + lines.length
  shows : Matches r.site im.address before entry g a s
  run : im.host.run n s = .error e
  halts : e ≠ .fault

variable {r : Routine im} {before : Heap} {entry : State} {a a' : Activation} {e : Halt} {n m : Nat}

theorem Ends.mono (hends : r.Ends before entry a m e) (hle : m ≤ n) : r.Ends before entry a n e := by
  obtain ⟨o, heap, hrun, hshows⟩ := hends
  refine ⟨o, heap, hrun, ?_⟩
  cases o with
  | returned v =>
    obtain ⟨t, k, hk, hreturned, hresumes⟩ := hshows
    exact ⟨t, k, Nat.le_trans hk hle, hreturned, hresumes⟩
  | _ => exact hshows

theorem Ends.goto (hnext : a.next? im.address r.site.func = some (.goto a'))
    (hends : r.Ends before entry a' n e) : r.Ends before entry a n e := by
  obtain ⟨o, heap, hrun, hshows⟩ := hends
  exact ⟨o, heap, .goto hnext hrun, hshows⟩

theorem Ends.stuck {x : Instr} (hx : r.site.func.code[a.index]? = some x) (harrays : x.op.usesArrays = true)
    (hnext : a.next? im.address r.site.func = none) : r.Ends before entry a n e := by
  refine ⟨.stuck, a.heap, .stuck hnext, fun hfree => ?_⟩
  rw [hfree _ r.placed.mem x (List.mem_of_getElem? hx)] at harrays
  cases harrays

/-- What announces an instruction has no effect. -/
theorem At.step {g : GenState} {lines behind : List Line} {s : State}
    (hat : r.At before entry g lines behind a s) (hrun : im.host.run n s = .error e) (hhalts : e ≠ .fault) :
    ∃ m, m ≤ n ∧ Nonempty (r.Step before entry a e m) := by
  obtain ⟨x, hx⟩ : ∃ x, r.site.func.code[a.index]? = some x := ⟨_, List.getElem?_eq_getElem hat.inside⟩
  obtain ⟨code, covered, g', rest, hgen, rfl, _, hcut⟩ :=
    hat.cut.step (r.placed.legal im.wellFormed) hx
  have hready := hat.cut.ready
  rw [Code.drop_of_getElem? hx] at hready
  have hcode := r.placed.hasCode_behind hat.cut.lines
  rw [← hat.pc] at hcode
  rw [← List.append_assoc] at hcut
  by_cases hcomments : im.options.comments = true
  · have hannounced : announcement im.options x = [.comment x.text] := by
      simp [announcement, hcomments]
    rw [hannounced] at hcut
    simp only [hannounced, List.cons_append, List.nil_append] at hcode
    obtain ⟨m, rfl, hrest⟩ := Host.run_silent hcode rfl hrun
    exact ⟨m, by omega, ⟨⟨_, g, g', code, covered, _, rest, s.next, hx, hgen, hcut, hready, hat.cut.strings,
      by simp [hat.pc, Nat.add_assoc], hat.shows.congr rfl rfl, hrest, hhalts⟩⟩⟩
  · have hannounced : announcement im.options x = [] := by
      simp [announcement, hcomments]
    rw [hannounced, List.append_nil] at hcut
    exact ⟨n, Nat.le_refl n, ⟨⟨_, g, g', code, covered, _, rest, s, hx, hgen, hcut, hready, hat.cut.strings,
      hat.pc, hat.shows, hrun, hhalts⟩⟩⟩

namespace Step

variable (st : r.Step before entry a e n)

theorem mem : st.x ∈ r.site.func.code :=
  List.mem_of_getElem? st.instr

theorem sound : r.site.Sound st.g.strings :=
  st.strings ▸ r.sound

theorem places : im.host.Places im.address st.g.strings :=
  st.strings ▸ im.places

theorem meets : st.x.Meets :=
  r.valid.meets st.x st.mem

theorem hasCode : im.host.HasCode st.s.pc (st.code ++ (st.rest ++ .mark "exit" :: epilogue)) := by
  have hlines := st.cut.lines
  rw [List.append_assoc] at hlines
  have hcode := r.placed.hasCode_behind hlines
  rwa [← st.pc, List.append_assoc] at hcode

theorem dst_mem : st.x.dst ∈ r.site.func.operands :=
  Instr.dst_mem st.mem

theorem src1_mem : st.x.src1 ∈ r.site.func.operands :=
  Instr.src1_mem st.mem

theorem src2_mem : st.x.src2 ∈ r.site.func.operands :=
  Instr.src2_mem st.mem

/-- Nothing is pending at an instruction that neither hands over nor takes values. -/
theorem pending (hop : st.x.op.passesArgs = false) : st.g.pending = #[] :=
  Array.size_eq_zero_iff.mp ((Code.ArgsFit.of_op hop).mp st.ready.args).1

end Step

/-- Activations of the same call that are further on in the code, with at most so many steps left,
    end as the machine shows. -/
def Later (r : Routine im) (before : Heap) (entry : State) (e : Halt) (n i : Nat) : Prop :=
  ∀ {m g lines behind a s}, m ≤ n → i < a.index → r.At before entry g lines behind a s →
    im.host.run m s = .error e → r.Ends before entry a m e

namespace Step

variable (st : r.Step before entry a e n)

/-- Going on to the next instruction. -/
theorem advance (hcovered : st.covered = false) (hop : st.x.op ≠ .ret) (hlater : r.Later before entry e n a.index)
    {t : State} (hm : m ≤ n) (hindex : a'.index = a.index + 1) (hpc : t.pc = st.s.pc + st.code.length)
    (hshows : Matches r.site im.address before entry st.g' a' t) (hrun : im.host.run m t = .error e) :
    r.Ends before entry a' n e := by
  have hcut := st.cut
  rw [hcovered, if_neg (by simp), ← hindex] at hcut
  refine (hlater hm (by omega) ⟨hcut, ?_, ?_, hshows⟩ hrun).mono hm
  · rw [hpc, st.pc, List.length_append]
    omega
  · rw [hindex]
    exact r.succ_lt st.instr hop

/-- An instruction that gives a place a computed value. -/
theorem computes {xs : List Insn} {d : Operand} {value : Heap → Store → Option Word} {v : Word}
    (hcode : st.code = xs.map .insn) (hcovered : st.covered = false) (hpasses : st.x.op.passesArgs = false)
    (hret : st.x.op ≠ .ret) (hd : st.x.dst = some d)
    (hcomputes : Computes im.host r.site im.address st.g st.g' xs d value)
    (hvalue : value a.heap (r.site.frame.contents st.s) = some v)
    (hnext : a.next? im.address r.site.func = some (.goto (a.stepPut d v)))
    (hlater : r.Later before entry e n a.index) : r.Ends before entry a n e := by
  have hensures := hcomputes.ensures st.s a.heap v st.shows.tracks st.shows.alive.held hvalue
  have hlines := st.hasCode
  rw [hcode] at hlines
  obtain ⟨m, t, rfl, ⟨hwrote, htracks⟩, hpc, hrest⟩ := Host.run_past hlines hensures st.run st.halts
  have hnone := st.pending hpasses
  have hshows : Matches r.site im.address before entry st.g' (a.stepPut d v) t :=
    st.shows.put st.sound (hd ▸ st.dst_mem) hwrote htracks (hcomputes.keeps.pending.trans hnone) hnone
  refine .goto hnext (st.advance hcovered hret hlater (Nat.le_add_right m _) rfl ?_ hshows hrest)
  rw [hpc, hcode, List.length_map]

end Step

end Routine

end TreeCompiler.Asm
