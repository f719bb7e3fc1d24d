import TreeCompiler.Proofs.Asm.Simulation
import TreeCompiler.Proofs.Code.Steps

namespace TreeCompiler.Asm.Routine

open Code

variable {im : Image} {r : Routine im} {before : Heap} {entry : State} {a a' : Activation} {e : Halt}
  {n m : Nat}

namespace Step

variable (st : r.Step before entry a e n)

/-- The value of an operand that an instruction reads. -/
theorem word {o : Operand} (ho : some o ∈ r.site.func.operands) (hvalue : Operand.isValue (some o) = true) :
    a.word im.address o = (r.site.frame.contents st.s).word im.address o :=
  st.shows.word ho hvalue

/-- What happens next, by the parts of the instruction. -/
theorem next {op : Op} {d l k : Option Operand} {next : Code.Next}
    (hdoes : a.Does im.address r.site.func ⟨op, d, l, k⟩ next) (hop : st.x.op = op)
    (hd : st.x.dst = d) (hl : st.x.src1 = l) (hk : st.x.src2 = k) :
    a.next? im.address r.site.func = some next := by
  subst hop hd hl hk
  exact hdoes.next? st.instr

theorem exit (hop : st.x.op = .exit) : r.Ends before entry a n e := by
  have hgen := st.gen
  simp only [genInstr, hop, GenM.bind_eq_ok_iff, GenM.pure_eq_ok_iff, GenM.forget_eq_ok_iff,
    Prod.mk.injEq] at hgen
  obtain ⟨code, g₁, hload, _, _, _, ⟨hcode, _⟩, _⟩ := hgen
  obtain ⟨o, ho, hloaded⟩ := load_ok hload
  cases ho
  have hreads : r.site.Reads st.g.strings (st.x.src1.getD (.const (.int 0))) := by
    cases hsrc : st.x.src1 with
    | none => exact ⟨(fun hstorage => by cases hstorage), (fun t ht => by cases ht)⟩
    | some o => exact st.sound.reads (hsrc ▸ st.src1_mem)
  have hnext : a.next? im.address r.site.func =
      some (.halt (.exited (a.word im.address (st.x.src1.getD (.const (.int 0)))))) := by
    cases hsrc : st.x.src1 with
    | none => exact st.next .exitZero hop rfl hsrc rfl
    | some o => exact st.next .exit hop rfl hsrc rfl
  have hword : a.word im.address (st.x.src1.getD (.const (.int 0))) =
      (r.site.frame.contents st.s).word im.address (st.x.src1.getD (.const (.int 0))) := by
    cases hsrc : st.x.src1 with
    | none => rfl
    | some o => exact st.word (hsrc ▸ st.src1_mem) ((st.meets.parts hop rfl hsrc rfl).resolve_left (Option.some_ne_none o))
  have hensures : im.host.Ensures False (code ++ [.movConst .rax 60]) st.s fun t =>
      t.regs (.tracked .rax) = 60 ∧
        t.regs (.tracked .rdi) = a.word im.address (st.x.src1.getD (.const (.int 0))) := by
    refine Host.Ensures.append ((hloaded.ensures hreads st.places st.shows.tracks).mono ?_)
    rintro t ⟨rfl, _⟩
    rw [Host.ensures_movConst, Host.ensures_nil, hword]
    simp [State.set_regs_ne]
  have hlines := st.hasCode
  rw [← hcode, show code ++ [Insn.movConst .rax 60, .syscall] = (code ++ [.movConst .rax 60]) ++ [.syscall] by
    simp, List.map_append, List.append_assoc] at hlines
  obtain ⟨m, t, rfl, ⟨hrax, hrdi⟩, hpc, hrest⟩ := Host.run_past hlines hensures st.run st.halts
  have hsyscall := hlines.right
  rw [List.length_map, ← hpc] at hsyscall
  obtain ⟨k, _, hexec⟩ := Host.run_insn hsyscall hrest
  simp only [Host.exec, hrax, if_true, hrdi] at hexec
  rcases hexec with hstop | ⟨u, hu, _⟩
  · exact ⟨_, a.heap, .halt hnext, (Except.error.inj hstop).symm⟩
  · cases hu

variable (hlater : r.Later before entry e n a.index)
include hlater

theorem binary {op : Code.BinaryOp} (hop : st.x.op = .binary op) : r.Ends before entry a n e := by
  obtain ⟨d, l, k, xs, hd, hl, hk, hcode, hcovered, hcomputes, htrap⟩ :=
    genInstr_binary st.gen st.mem st.sound st.places hop
  have hmeets := st.meets.parts hop hd hl hk
  have hleft := st.word (hl ▸ st.src1_mem) hmeets.2.1
  have hright := st.word (hk ▸ st.src2_mem) hmeets.2.2
  cases hvalue : op.eval (a.word im.address l) (a.word im.address k) with
  | some v =>
    have hnext := st.next (.binary hvalue) hop hd hl hk
    rw [hleft, hright] at hvalue
    exact st.computes hcode hcovered (by rw [hop]; rfl) (by simp [hop]) hd hcomputes hvalue hnext hlater
  | none =>
    have hnext := st.next (.trap hvalue) hop hd hl hk
    rw [hleft, hright] at hvalue
    have hlines := st.hasCode
    rw [hcode] at hlines
    rcases Host.run_ensures hlines (htrap st.s st.shows.tracks hvalue) st.run st.halts with
      ⟨_, _, _, hfalse, _⟩ | ⟨he, _⟩
    · exact hfalse.elim
    · exact ⟨.trapped, a.heap, .halt hnext, he⟩

theorem compare {op : Code.CompareOp} (hop : st.x.op = .compare op) : r.Ends before entry a n e := by
  obtain ⟨d, l, k, xs, hd, hl, hk, hcode, hcovered, hcomputes⟩ :=
    genInstr_compare st.gen st.mem st.sound st.places hop
  have hmeets := st.meets.parts hop hd hl hk
  refine st.computes hcode hcovered (by rw [hop]; rfl) (by simp [hop]) hd hcomputes rfl ?_ hlater
  rw [← st.word (hl ▸ st.src1_mem) hmeets.2.1, ← st.word (hk ▸ st.src2_mem) hmeets.2.2]
  exact st.next .compare hop hd hl hk

theorem unary {op : Code.UnaryOp} (hop : st.x.op = .unary op) : r.Ends before entry a n e := by
  obtain ⟨d, o, xs, hd, ho, hcode, hcovered, hcomputes⟩ :=
    genInstr_unary st.gen st.mem st.sound st.places hop
  have hmeets := st.meets.parts hop hd ho rfl
  cases hvalue : op.eval a.heap (a.word im.address o) with
  | none =>
    have harrays : st.x.op.usesArrays = true := by
      rw [hop]
      cases op with
      | len => rfl
      | _ => cases hvalue
    exact .stuck st.instr harrays (by simp [Activation.next?, st.instr, hop, hd, ho, hvalue])
  | some v =>
    have hnext := st.next (.unary hvalue) hop hd ho rfl
    rw [st.word (ho ▸ st.src1_mem) hmeets.2] at hvalue
    exact st.computes hcode hcovered (by rw [hop]; rfl) (by simp [hop]) hd hcomputes hvalue hnext hlater

theorem move (hop : st.x.op = .move ∨ st.x.op = .load ∨ st.x.op = .store) : r.Ends before entry a n e := by
  obtain ⟨d, o, xs, hd, ho, hcode, hcovered, hcomputes⟩ :=
    genInstr_move st.gen st.mem st.sound st.places hop
  have hvalue : Operand.isValue (some o) = true := by
    rcases hop with hop | hop | hop <;> exact (st.meets.parts hop hd ho rfl).2
  refine st.computes hcode hcovered ?_ ?_ hd hcomputes rfl ?_ hlater
  · rcases hop with hop | hop | hop <;> rw [hop] <;> rfl
  · rcases hop with hop | hop | hop <;> simp [hop]
  · rw [← st.word (ho ▸ st.src1_mem) hvalue]
    rcases hop with hop | hop | hop
    · exact st.next .move hop hd ho rfl
    · exact st.next .load hop hd ho rfl
    · exact st.next .store hop hd ho rfl

theorem index (hop : st.x.op = .index) : r.Ends before entry a n e := by
  obtain ⟨d, l, k, xs, hd, hl, hk, hcode, hcovered, hcomputes⟩ :=
    genInstr_index st.gen st.mem st.sound st.places hop
  have hmeets := st.meets.parts hop hd hl hk
  cases hvalue : a.heap.get? (a.word im.address l) (a.word im.address k) with
  | none => exact .stuck st.instr (by rw [hop]; rfl) (by simp [Activation.next?, st.instr, hop, hd, hl, hk, hvalue])
  | some v =>
    have hnext := st.next (.index hvalue) hop hd hl hk
    rw [st.word (hl ▸ st.src1_mem) hmeets.2.1, st.word (hk ▸ st.src2_mem) hmeets.2.2] at hvalue
    exact st.computes hcode hcovered (by rw [hop]; rfl) (by simp [hop]) hd hcomputes hvalue hnext hlater

theorem setIndex (hop : st.x.op = .setIndex) : r.Ends before entry a n e := by
  obtain ⟨l, k, o, xs, hl, hk, ho, hcode, hcovered, hkeeps, hensures⟩ :=
    genInstr_setIndex st.gen st.mem st.sound st.places hop
  have hmeets := st.meets.parts hop hl hk ho
  cases hset : a.heap.set? (a.word im.address l) (a.word im.address k) (a.word im.address o) with
  | none => exact .stuck st.instr (by rw [hop]; rfl) (by simp [Activation.next?, st.instr, hop, hl, hk, ho, hset])
  | some heap =>
    have hnext := st.next (.setIndex hset) hop hl hk ho
    rw [st.word (hl ▸ st.dst_mem) hmeets.1, st.word (hk ▸ st.src1_mem) hmeets.2.1,
      st.word (ho ▸ st.src2_mem) hmeets.2.2] at hset
    have hlines := st.hasCode
    rw [hcode] at hlines
    obtain ⟨m, t, rfl, ⟨u, hkept, htracks, hregs, hmem⟩, hpc, hrest⟩ :=
      Host.run_past hlines (hensures st.s st.shows.tracks) st.run st.halts
    have hnone := st.pending (by rw [hop]; rfl)
    have halive := st.shows.alive.of_keeps hkept
    have hcontents := halive.contents_set r.fits hset hregs hmem
    have hshows : Matches r.site im.address before entry st.g' { a.step with heap } t := by
      refine ⟨halive.set hset hregs hmem, htracks.congr (fun r => by rw [hregs]) hcontents,
        fun o ho hstorage => ?_, [], ?_, st.shows.args_nil hnone⟩
      · rw [hcontents, hkept.contents]
        exact st.shows.store o ho hstorage
      · simp [hkeeps.pending, hnone]
    refine .goto hnext (st.advance hcovered (by simp [hop]) hlater (Nat.le_add_right m _) rfl ?_ hshows hrest)
    rw [hpc, hcode, List.length_map]

/-- An instruction without code. -/
theorem silent (hcode : st.code = []) (hcovered : st.covered = false) (hop : st.x.op ≠ .ret)
    (hnext : a.next? im.address r.site.func = some (.goto a')) (hindex : a'.index = a.index + 1)
    (hshows : Matches r.site im.address before entry st.g' a' st.s) : r.Ends before entry a n e :=
  .goto hnext (st.advance hcovered hop hlater (Nat.le_refl n) hindex (by simp [hcode]) hshows st.run)

theorem nop (hop : st.x.op = .nop) : r.Ends before entry a n e := by
  have hgen := st.gen
  simp only [genInstr, hop, GenM.pure_eq_ok_iff, Prod.mk.injEq] at hgen
  obtain ⟨⟨hcode, hcovered⟩, hg⟩ := hgen
  have hshows := st.shows
  exact st.silent hlater hcode.symm hcovered.symm (by simp [hop]) (st.next .nop hop rfl rfl rfl) rfl
    (hg ▸ ⟨hshows.alive, hshows.tracks, hshows.store, hshows.args⟩)

theorem arg (hop : st.x.op = .arg) : r.Ends before entry a n e := by
  obtain ⟨o, ho⟩ : ∃ o, st.x.src1 = some o := by
    cases hsrc : st.x.src1 with
    | none => cases st.meets.parts hop rfl hsrc rfl
    | some o => exact ⟨o, rfl⟩
  have hgen := st.gen
  simp only [genInstr, hop, genArg, GenM.bind_eq_ok_iff, GenM.get_eq_ok_iff] at hgen
  obtain ⟨_, _, ⟨_, _, ⟨rfl, rfl⟩, hpush⟩, hgen⟩ := hgen
  split at hpush
  · next hlength =>
    cases hpush
    obtain ⟨hcode, hg⟩ := GenM.pure_eq_ok_iff.mp hgen
    obtain ⟨hcode, hcovered⟩ := Prod.mk.inj hcode
    obtain ⟨os, hos, hargs⟩ := st.shows.args
    have hsize : a.args.length = st.g.pending.size := by
      rw [hargs, List.length_map, ← Array.length_toList, hos, List.length_map]
    have hnext := st.next (.arg (hsize ▸ hlength)) hop rfl ho rfl
    have hshows := st.shows
    refine st.silent hlater hcode.symm hcovered.symm (by simp [hop]) hnext rfl ?_
    refine hg ▸ ⟨hshows.alive, hshows.tracks, hshows.store, os ++ [o], ?_, ?_⟩
    · simp [hos, ho]
    · rw [List.map_append, hargs]
      rfl
  · exact (GenM.fail_ne_ok _ hpush).elim

theorem label (hop : st.x.op = .label) : r.Ends before entry a n e := by
  obtain ⟨name, hname⟩ := st.meets.parts hop rfl rfl rfl
  obtain ⟨hcode, hcovered, hg⟩ := genInstr_label (Instr.label?_eq_some_iff.mpr ⟨hop, hname⟩) st.gen
  have hlines := st.hasCode
  rw [hcode] at hlines
  obtain ⟨m, rfl, hrest⟩ := Host.run_silent hlines rfl st.run
  have hsame : Matches r.site im.address before entry st.g a st.s.next := st.shows.congr rfl rfl
  have hshows : Matches r.site im.address before entry st.g' a.step st.s.next :=
    hg ▸ ⟨hsame.alive, .empty .., hsame.store, hsame.args⟩
  exact .goto (st.next .label hop rfl rfl rfl)
    (st.advance hcovered (by simp [hop]) hlater (Nat.le_succ m) rfl (by simp [hcode]) hshows hrest)

end Step

end TreeCompiler.Asm.Routine
