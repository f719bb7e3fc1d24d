import TreeCompiler.Proofs.Asm.ControlSteps

namespace TreeCompiler.Asm

open Code

/-- A call becomes a new start of the running function or an ordinary call. -/
theorem genCall_ok {site : Site} {i : Nat} {x : Instr} {name : String} {g g' : GenState} {xs : List Insn}
    {covered : Bool} (hname : x.src1 = some (.func name))
    (hgen : genCall site i x g = .ok ((xs, covered), g')) :
    site.restarts i x = true ∧ tailJump site g.pending.toList { g with pending := #[] } = .ok (xs, g') ∨
      site.restarts i x = false ∧ covered = false ∧
        plainCall site name g.pending.toList x.dst { g with pending := #[] } = .ok (xs, g') := by
  simp only [genCall, hname] at hgen
  obtain ⟨_, _, hget, hgen⟩ := GenM.bind_eq_ok_iff.mp hgen
  cases hget
  split at hgen
  · obtain ⟨args, g₁, htake, hgen⟩ := GenM.bind_eq_ok_iff.mp hgen
    obtain ⟨rfl, rfl⟩ := GenM.takePending_eq_ok_iff.mp htake
    split at hgen
    · next htail =>
      obtain ⟨ys, g₂, hjump, hpure⟩ := GenM.bind_eq_ok_iff.mp hgen
      obtain ⟨heq, rfl⟩ := GenM.pure_eq_ok_iff.mp hpure
      cases heq
      exact .inl ⟨by simpa [Site.restarts, hname, htail.1] using htail.2, hjump⟩
    · next hplain =>
      obtain ⟨ys, g₂, hcall, hpure⟩ := GenM.bind_eq_ok_iff.mp hgen
      obtain ⟨heq, rfl⟩ := GenM.pure_eq_ok_iff.mp hpure
      cases heq
      exact .inr ⟨by simpa [Site.restarts, hname] using hplain, rfl, hcall⟩
  · exact (GenM.fail_ne_ok _ hgen).elim

namespace Routine

variable {im : Image} {r : Routine im} {before heap : Heap} {entry s : State} {a a' : Activation} {e : Halt}
  {n m : Nat} {vs : List Word}

/-- What a machine shows of an outcome after which nothing runs does not depend on the function. -/
theorem Shows.of_isHalt {r' : Routine im} {before' : Heap} {entry' : State} {o : Outcome}
    (hshows : r'.Shows before' entry' m e heap o) (hhalt : o.isHalt = true) :
    r.Shows before entry n e heap o := by
  cases o with
  | returned v => cases hhalt
  | _ => exact hshows

namespace Step

variable (st : r.Step before entry a e n)

variable (hop : st.x.op = .call)
include hop

/-- A call is of a function of the program, which takes what is handed over. -/
theorem callee :
    ∃ name f, st.x.src1 = some (.func name) ∧
    im.program.func? name = some f ∧ a.args.length = f.params.length ∧
      a.next? im.address r.site.func = some (.call name a.args st.x.dst) := by
  have hfit := st.ready.args
  simp only [Code.ArgsFit, hop] at hfit
  obtain ⟨hlength, ⟨name, hname, harity⟩, _⟩ := hfit
  obtain ⟨os, hos, _, hsize, _⟩ := st.handed
  obtain ⟨f, hf, hparams⟩ := Option.map_eq_some_iff.mp harity
  exact ⟨name, f, hname, hf, by rw [hsize, hparams], st.next (.call (hsize ▸ hlength)) hop rfl hname rfl⟩

/-- The arrays of a function that starts again are given up. -/
theorem released (hrestarts : r.site.restarts a.index st.x = true) :
    (a.release (im.frees r.site.func a.index)).heap = a.heap.free a.arrays ∧
      (a.release (im.frees r.site.func a.index)).arrays = [] := by
  cases hfrees : im.frees r.site.func a.index with
  | true => exact ⟨rfl, rfl⟩
  | false =>
    have hbare : a.arrays = [] := st.shows.alive.bare (by
      rw [Frame.hasArrays_ofFunc r.placed.frame, ← Bool.not_eq_true]
      intro harrays
      rw [← r.placed.restarts_eq st.instr hop] at hrestarts
      rw [im.frees_of_restarts _ r.placed.mem a.index hrestarts harrays] at hfrees
      cases hfrees)
    simp [Activation.release, hbare, Heap.free_nil]

variable {junk : Store} {xs : List Insn} {name : String}

/-- A call that starts the running function again ends as the new start does. -/
theorem again (hrestarts : r.site.restarts a.index st.x = true) (hlength : a.args.length = r.site.func.params.length)
    (hnext : a.next? im.address r.site.func = some (.call r.site.func.name a.args st.x.dst))
    (hends : r.Ends before entry (r.site.func.start a.args junk (a.heap.free a.arrays)) n e) :
    r.Ends before entry a n e := by
  obtain ⟨hheap, harrays⟩ := st.released hop hrestarts
  have hfunc := Code.Program.func?_of_mem im.wellFormed.names r.placed.mem
  obtain ⟨o, heap, hrun, hshows⟩ := hends
  rw [← hheap] at hrun
  refine ⟨o, heap, ?_, hshows⟩
  cases o with
  | returned v =>
    refine .call junk hnext hfunc r.placed.internal hlength hrun ?_
    have hreturns : Run im.address im.frees im.program r.site.func
        ((a.release (im.frees r.site.func a.index)).resume st.x.dst v heap) (.returned v)
          (heap.free (a.release (im.frees r.site.func a.index)).arrays) := by
      refine run_of_flowsToReturn r.valid r.placed.labels (Site.restarts_iff.mp hrestarts).2 ?_ ?_
      · cases im.frees r.site.func a.index <;> rfl
      · intro d hd
        rw [hd]
        have hstorage := (st.meets.parts hop hd rfl rfl).resolve_left (Option.some_ne_none d)
        exact (Store.word_of_isStorage im.address _ hstorage).trans (Store.put_same ..)
    rwa [harrays, Heap.free_nil] at hreturns
  | _ => exact .callHalt junk hnext hfunc r.placed.internal hlength rfl hrun

/-- A call of the function itself in last position runs it from its entry, in the same frame. -/
theorem restartCall (hrestarts : r.site.restarts a.index st.x = true)
    (hgen : tailJump r.site st.g.pending.toList { st.g with pending := #[] } = .ok (xs, st.g'))
    (hcode : st.code = xs.map .insn) (hless : ∀ m, m < n → im.Simulates e m) : r.Ends before entry a n e := by
  obtain ⟨os, hos, hmem, _, hargs⟩ := st.handed
  rw [hos] at hgen
  obtain ⟨hlength, _, ys, rfl, hensures⟩ := tailJump_ensures (h := im.host) hgen st.sound.fits st.places
    fun o ho => (st.sound.reads (hmem o ho)).2
  obtain ⟨name, f, hname, _, _, hnext⟩ := st.callee hop
  obtain rfl : name = r.site.func.name := by
    simpa [hname] using (Site.restarts_iff.mp hrestarts).1
  have halive := st.shows.alive
  have hlines := st.hasCode
  rw [hcode, List.map_append, List.append_assoc] at hlines
  obtain ⟨m, t, rfl, hrebound, hpc, hrest⟩ :=
    Host.run_past hlines (hensures st.s st.shows.tracks.holds halive.framed.rbp_le) st.run st.halts
  have hjump := hlines.right
  rw [List.length_map, ← hpc] at hjump
  obtain ⟨k, rfl, hend⟩ := Host.run_exec hjump hrest
  have hpos : st.lines.length + ys.length ≤ r.body.length := by
    rw [st.cut.lines, hcode]
    simp only [List.length_append, List.length_map]
    omega
  obtain ⟨hlo, hhi⟩ := Placed.range r.start r.site.frame r.params hpos
  rw [Host.exec, hpc, st.pc, Nat.add_assoc, r.placed.mark?_entry hlo hhi] at hend
  have hkeeps : t.Keeps { t with pc := Placed.entryLine r.start r.site.frame } := ⟨rfl, rfl, rfl⟩
  have hpassed := hrebound.passed
  rw [← hrebound.rbp, ← hargs] at hpassed
  have hcount : a.args.length = r.site.func.params.length := by
    rw [hargs, List.length_map, hlength]
  obtain ⟨junk, hends⟩ := r.restart ((halive.rebound hrebound hlength).of_keeps hkeeps)
    ⟨hpassed.inRegs, hpassed.onStack⟩ hcount rfl hend st.halts fun j hj => hless j (by omega)
  exact st.again hop hrestarts hcount hnext (hends.mono (by omega))

/-- An ordinary call ends as the called function does, or goes on behind it. -/
theorem through {f : Func} {r' : Routine im} {entry' : State}
    (hnext : a.next? im.address r.site.func = some (.call name a.args st.x.dst))
    (hfunc : im.program.func? name = some f) (hsite : r'.site.func = f) (hlength : a.args.length = f.params.length)
    (hplain : r.site.restarts a.index st.x = false) (hends : r'.Ends a.heap entry' (f.start a.args junk a.heap) m e)
    (hback : ∀ v heap, r'.Shows a.heap entry' m e heap (.returned v) →
      r.Ends before entry (a.resume st.x.dst v heap) n e) :
    r.Ends before entry a n e := by
  have hfrees : im.frees r.site.func a.index = false := by
    rw [← Bool.not_eq_true]
    intro hfrees
    rw [← r.placed.restarts_eq st.instr hop, im.restarts_of_frees _ r.placed.mem a.index hfrees] at hplain
    cases hplain
  have hkept : a.release (im.frees r.site.func a.index) = a := by rw [hfrees]; rfl
  have hinternal : f.isExternal = false := hsite ▸ r'.placed.internal
  obtain ⟨o, heap, hrun, hshows⟩ := hends
  have hcallee : Run im.address im.frees im.program f
      (f.start a.args junk (a.release (im.frees r.site.func a.index)).heap) o heap := by
    rw [hkept, ← hsite]
    exact hsite ▸ hrun
  cases o with
  | returned v =>
    obtain ⟨o, heap', hrest, hshows⟩ := hback v heap hshows
    refine ⟨o, heap', .call junk hnext hfunc hinternal hlength hcallee ?_, hshows⟩
    rw [hkept]
    exact hrest
  | _ => exact ⟨_, heap, .callHalt junk hnext hfunc hinternal hlength rfl hcallee, hshows.of_isHalt rfl⟩

/-- The machine goes on behind a call with the result in the first register. -/
theorem back {site : Site} {os : List Operand} {zs : List Insn} {t u w : State} {v : Word}
    (hcode : st.code = (xs ++ zs).map .insn) (hcovered : st.covered = false) (hpending : st.g'.pending = #[])
    (hzs : ∀ s, im.host.Ensures False zs s fun t => ∃ u, u.mem = s.mem ∧ u.regs .rbp = s.regs .rbp ∧
      u.regs .rsp = s.regs .rsp + BitVec.ofNat 64 (callSpace os.length) ∧
        Stored im.host r.site (s.regs (.tracked .rax)) u t st.x.dst ∧ Tracks r.site im.address st.g'.cache t)
    (hlater : r.Later before entry e n a.index) (hlength : os.length = site.func.params.length)
    (hcalling : Calling r.site im.address os st.s t) (hinvoked : Invoked im.host t u)
    (hreturned : Returned site u a.heap heap v w) (hpc : w.pc = st.s.pc + xs.length) (hm : m ≤ n)
    (hrun : im.host.run m w = .error e) : r.Ends before entry (a.resume st.x.dst v heap) n e := by
  have halive := st.shows.alive
  have hsmall := (hcalling.room hinvoked.room.2).2
  have hlines := st.hasCode
  rw [hcode, List.map_append, List.append_assoc] at hlines
  have hbehind := hlines.right
  rw [List.length_map, ← hpc] at hbehind
  obtain ⟨k, y, rfl, ⟨z, hzmem, hzrbp, hzrsp, hstored, htracks⟩, hypc, hrest⟩ :=
    Host.run_past hbehind (hzs w) hrun st.halts
  have hmem : ∀ c, (st.s.regs .rsp).toNat ≤ c → ¬ a.heap.Covers c → w.mem c = st.s.mem c := by
    intro c hc hcovers
    have hend : site.argsEnd u ≤ _ := hinvoked.argsEnd_le hcalling hlength
    rw [hreturned.above c (by omega) hcovers, hinvoked.mem_of_calling hcalling hc]
  have hwrsp : w.regs .rsp = t.regs .rsp := by
    rw [hreturned.rsp, hinvoked.rsp, BitVec.sub_add_cancel]
  obtain ⟨halive', hcontents⟩ := halive.resumed r.fits hcalling hsmall hwrsp (hreturned.rbp.trans hinvoked.rbp)
    hmem hreturned.held hreturned.shape hzmem hzrbp hzrsp
  have hshows : Matches r.site im.address before entry st.g' (a.resume st.x.dst v heap) y := by
    rw [hreturned.rax] at hstored
    cases hdst : st.x.dst with
    | none =>
      rw [hdst] at hstored
      have hstored : z.Keeps y := hstored
      refine ⟨halive'.of_keeps hstored, htracks, fun o ho hstorage => ?_, [], by simp [hpending], rfl⟩
      rw [hstored.contents, hcontents]
      exact st.shows.store o ho hstorage
    | some d =>
      rw [hdst] at hstored
      have hstored : Wrote im.host r.site d v z y := hstored
      refine ⟨halive'.wrote r.fits hstored, htracks, fun o ho hstorage => ?_, [], by simp [hpending], rfl⟩
      rw [hstored.contents r.sound.apart r.fits (hdst ▸ st.dst_mem) ho, hcontents]
      simp only [Activation.resume, Activation.stepPut, Store.put?, Store.put]
      split
      · rfl
      · exact st.shows.store o ho hstorage
  refine st.advance hcovered (by simp [hop]) hlater (by omega) rfl ?_ hshows hrest
  rw [hypc, hpc, hcode, List.length_map, List.length_append, Nat.add_assoc]

/-- A call of another function, or of the function itself where more is to be done. -/
theorem ordinaryCall (hname : st.x.src1 = some (.func name))
    (hplain : r.site.restarts a.index st.x = false) (hcovered : st.covered = false)
    (hgen : plainCall r.site name st.g.pending.toList st.x.dst { st.g with pending := #[] } = .ok (xs, st.g'))
    (hcode : st.code = xs.map .insn) (hlater : r.Later before entry e n a.index)
    (hless : ∀ m, m < n → im.Simulates e m) : r.Ends before entry a n e := by
  obtain ⟨os, hos, hmem, _, hargs⟩ := st.handed
  rw [hos] at hgen
  obtain ⟨hkeeps, ys, zs, rfl, hys, hzs⟩ := plainCall_ensures (h := im.host) hgen st.sound st.places hmem
    st.dst_mem
  obtain ⟨_, f, hname', hfunc, hlength, hnext⟩ := st.callee hop
  cases hname.symm.trans hname'
  have halive := st.shows.alive
  have hlines := st.hasCode
  rw [hcode, List.map_append, List.append_assoc] at hlines
  obtain ⟨k, t, rfl, hcalling, hpc, hrest⟩ :=
    Host.run_past hlines (hys st.s st.shows.tracks halive.settled) st.run st.halts
  have hcall := hlines.right
  rw [List.length_map, ← hpc] at hcall
  obtain ⟨j, u, rfl, hsymbol, hinvoked, hrun⟩ := run_call hcall hrest st.halts
  obtain ⟨hf, rfl⟩ := Code.Program.mem_of_func? hfunc
  have hinternal : f.isExternal = false := by
    rw [← Bool.not_eq_true]
    intro hexternal
    rw [symbol?_of_external im.wellFormed im.text hf hexternal] at hsymbol
    cases hsymbol
  obtain ⟨site, start, params, opened, body, rfl, hplaced⟩ :=
    exists_placed im.wellFormed im.text hf hinternal
  have hcount : os.length = site.func.params.length := by
    rw [← hlength, hargs, List.length_map]
  obtain ⟨hheld, hshared⟩ := halive.invoked hinvoked hcalling hcount
  have hpassed := hinvoked.passed hcalling
  rw [← hargs] at hpassed
  have hstart : u.pc = start := Option.some.inj (hsymbol.symm.trans hplaced.symbol)
  obtain ⟨r', rfl, junk, hends⟩ := enter hplaced hpassed hlength hheld hshared hstart hrun st.halts
    fun i hi => hless i (by omega)
  refine st.through hop hnext hfunc rfl hlength hplain hends fun v heap hshows => ?_
  obtain ⟨w, i, hi, hreturned, hresumes⟩ := hshows
  simp only [Host.Resumes, hinvoked.returnAddress] at hresumes
  have hreturned' : Returned r'.site u a.heap heap v { w with pc := t.pc + 1 } :=
    ⟨hreturned.rax, hreturned.rsp, hreturned.rbp, hreturned.above, hreturned.held, hreturned.shape⟩
  have hsplit : st.code = ((ys ++ [Insn.call r'.site.func.name]) ++ zs).map .insn := by simp [hcode]
  refine st.back hop hsplit hcovered ?_ hzs hlater hcount hcalling hinvoked hreturned' ?_ (by omega) hresumes
  · rw [hkeeps.pending]
  · simp [hpc, Nat.add_assoc]

theorem call (hlater : r.Later before entry e n a.index) (hless : ∀ m, m < n → im.Simulates e m) :
    r.Ends before entry a n e := by
  obtain ⟨name, _, hname, _⟩ := st.callee hop
  have hgen := st.gen
  simp only [genInstr, hop, GenM.bind_eq_ok_iff, GenM.pure_eq_ok_iff, Prod.mk.injEq] at hgen
  obtain ⟨⟨xs, covered⟩, _, hgen, ⟨hcode, hcovered⟩, rfl⟩ := hgen
  rcases genCall_ok hname hgen with ⟨hrestarts, hjump⟩ | ⟨hplain, rfl, hcall⟩
  · exact st.restartCall hop hrestarts hjump hcode.symm hless
  · exact st.ordinaryCall hop hname hplain hcovered.symm hcall hcode.symm hlater hless

end Step

end Routine

end TreeCompiler.Asm
