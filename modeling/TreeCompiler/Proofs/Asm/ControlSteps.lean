import TreeCompiler.Proofs.Asm.StepCases

namespace TreeCompiler.Asm

open Code

/-- Machines that stop in this way after so many steps show what activations can do. -/
def Image.Simulates (im : Image) (e : Halt) (n : Nat) : Prop :=
  ∀ (r : Routine im) {before entry g lines behind a s}, r.At before entry g lines behind a s →
    im.host.run n s = .error e → r.Ends before entry a n e

/-- Behind its entry a function gives up the arrays of an earlier round and takes in its arguments. -/
theorem Placed.entry_ensures {h : Host} {options : Options} {p : Code.Program} {site : Site} {start : Nat}
    {params : List Insn} {opened : GenState} {body : List Line} {before heap : Heap} {entry s : State}
    {vs : List Word} (hp : p.WellFormed) (hplaced : Placed h options p site start params opened body)
    (address : Bytes → Word) (hfits : site.frame.Fits)
    (hentered : Entered site before entry heap s) (hpassed : Passed s ((s.regs .rbp).toNat + 16) 0 vs)
    (hlength : vs.length = site.func.params.length) :
    h.Ensures False (rewind site.frame ++ params) s.next fun t =>
      Alive site before entry heap [] t ∧ Tracks site address opened.cache t ∧
        ∀ o, some o ∈ site.func.operands →
          site.frame.contents t o = Code.bindArgs (site.frame.contents s) site.func.params vs o := by
  have hfresh : ∀ q ∈ site.func.params, ∀ reg, Cache.empty.get reg ≠ q.operand := by
    intro q hq reg
    obtain ⟨name, hname⟩ := (hp.valid _ hplaced.mem hplaced.internal).params q hq
    simp [hname]
  refine Host.Ensures.append (rewind_ensures (hentered.of_keeps (.next s)) hfits
    fun t halive hregs hrbp hmem => ?_)
  have hcontents : site.frame.contents t = site.frame.contents s := Frame.contents_congr hmem hrbp
  have hpassed' : Passed t ((t.regs .rbp).toNat + 16) 0 vs := by
    rw [hrbp]
    refine ⟨fun j v reg hv hreg => ?_, fun j v hv hj => ?_⟩
    · rw [hregs reg]
      exact hpassed.inRegs j v reg hv hreg
    · rw [hmem]
      exact hpassed.onStack j v hv hj
  refine ((bindParams_ensures hplaced.bind rfl (hplaced.sound hp hfits)
    (fun q hq => Code.Func.mem_operands_of_param hq) (hp.shaped _ hplaced.mem hplaced.internal).params hfresh).2
      t vs hlength (Tracks.empty site address t) halive.framed.rbp_le hpassed').mono ?_
  rintro u ⟨hbound, htracks⟩
  refine ⟨halive.bound hbound, htracks, fun o ho => ?_⟩
  rw [hbound.contents o ho, hcontents]

namespace Routine

variable {im : Image} {r : Routine im} {before heap : Heap} {entry s : State} {a a' : Activation} {e : Halt}
  {n m : Nat} {vs : List Word}

theorem Ends.build {d : Operand} {elems : List Word} {base : Word}
    (hnext : a.next? im.address r.site.func = some (.build d elems)) (hfresh : a.heap base = none)
    (hends : r.Ends before entry (a.stepBuild d base elems) n e) : r.Ends before entry a n e := by
  obtain ⟨o, heap, hrun, hshows⟩ := hends
  exact ⟨o, heap, .build base hnext hfresh hrun, hshows⟩

/-- A function with its arguments in place runs from its entry. -/
theorem restart (r : Routine im) (hentered : Entered r.site before entry heap s)
    (hpassed : Passed s ((s.regs .rbp).toNat + 16) 0 vs) (hlength : vs.length = r.site.func.params.length)
    (hpc : s.pc = Placed.entryLine r.start r.site.frame) (hrun : im.host.run n s = .error e)
    (hhalts : e ≠ .fault) (hless : ∀ m, m < n → im.Simulates e m) :
    ∃ junk, r.Ends before entry (r.site.func.start vs junk heap) n e := by
  have hcode := r.placed.hasCode_entry
  rw [← hpc] at hcode
  obtain ⟨m, rfl, hrest⟩ := Host.run_silent hcode rfl hrun
  have hshaped := im.wellFormed.shaped _ r.placed.mem r.placed.internal
  have hensures := r.placed.entry_ensures im.wellFormed im.address r.fits hentered hpassed hlength
  obtain ⟨k, t, rfl, ⟨halive, htracks, hcontents⟩, htpc, hend⟩ :=
    Host.run_past hcode.tail hensures hrest hhalts
  refine ⟨r.site.frame.contents s, Ends.mono
    (hless k (by omega) r ⟨r.placed.cut_zero im.wellFormed, ?_, ?_, halive,
    htracks, fun o ho _ => (hcontents o ho).symm, [], ?_, rfl⟩ hend) (by omega)⟩
  · rw [htpc, State.next_pc, hpc]
    rfl
  · obtain ⟨init, y, hlast, _⟩ := hshaped.last
    simp [Code.Func.start, hlast]
  · simp [(r.placed.opened_keeps im.wellFormed).pending]

/-- A function that is called with its arguments in place runs from its symbol. -/
theorem enter {site : Site} {start : Nat} {params : List Insn} {opened : GenState} {body : List Line}
    (hplaced : Placed im.host im.options im.program site start params opened body)
    (hpassed : Passed entry ((entry.regs .rsp).toNat + 8) 0 vs)
    (hlength : vs.length = site.func.params.length) (hheld : Held entry.mem heap)
    (hshared : ∀ b ws, heap b = some ws → site.argsEnd entry ≤ b.toNat) (hpc : entry.pc = start)
    (hrun : im.host.run n entry = .error e) (hhalts : e ≠ .fault) (hless : ∀ m, m < n → im.Simulates e m) :
    ∃ r : Routine im, r.site = site ∧ ∃ junk, r.Ends heap entry (site.func.start vs junk heap) n e := by
  have hcode := hplaced.code
  rw [← hpc] at hcode
  obtain ⟨m, rfl, hrest⟩ := Host.run_silent hcode rfl hrun
  have hopen := hcode.tail
  rw [innerLines] at hopen
  obtain ⟨k, t, rfl, ⟨hentered, hpassed, hfits⟩, htpc, hend⟩ :=
    Host.run_past hopen (prologue_ensures hpassed hheld hshared) hrest hhalts
  let r : Routine im := ⟨site, start, params, opened, body, hplaced, hfits⟩
  have htpc : t.pc = Placed.entryLine start site.frame := by
    rw [htpc, State.next_pc, hpc]
    rfl
  obtain ⟨junk, hends⟩ := r.restart hentered hpassed hlength htpc hend hhalts
    fun j hj => hless j (by omega)
  exact ⟨r, rfl, junk, hends.mono (by omega)⟩

/-- A machine that went to a label shows an activation that went there. -/
theorem jumpTo {name : String} (hname : name ∈ Code.labels r.site.func.code) {t : State} {pos k : Nat}
    (hpc : t.pc = Placed.bodyLine r.start r.site.frame r.params + pos) (hpos : pos ≤ r.body.length)
    (halive : Alive r.site before entry a.heap a.arrays t)
    (hstore : ∀ o, some o ∈ r.site.func.operands → Operand.isStorage (some o) = true →
      a.store o = r.site.frame.contents t o) (hargs : a.args = []) (hk : k < n)
    (hrun : (t.goto (im.host.mark? t.pc name) >>= im.host.run k) = .error e)
    (hless : ∀ m, m < n → im.Simulates e m) :
    ∃ i, r.site.func.labelIndex? name = some i ∧ r.Ends before entry { a with index := i } n e := by
  obtain ⟨i, y, hy, hlabel⟩ := Code.exists_getElem?_of_mem_labels hname
  obtain ⟨g, lines, behind, hcut, hcache, hpending, hmark⟩ := r.placed.cut_label im.wellFormed hy hlabel
  refine ⟨i, r.valid.labelIndex?_eq hy hlabel, ?_⟩
  obtain ⟨hop, _⟩ := Instr.label?_eq_some_iff.mp hlabel
  rw [hpc, hmark pos hpos] at hrun
  have hlines := hcut.lines
  rw [List.append_assoc] at hlines
  have hcode := r.placed.hasCode_behind hlines
  obtain ⟨m, rfl, hrest⟩ := Host.run_silent
    (s := { t with pc := Placed.bodyLine r.start r.site.frame r.params + lines.length }) hcode rfl hrun
  have hnext : ({ a with index := i } : Activation).next? im.address r.site.func =
      some (.goto { a with index := i + 1 }) := by
    obtain ⟨op, dst, src1, src2⟩ := y
    cases hop
    exact Activation.Does.label.next? hy
  refine .goto hnext (Ends.mono (hless m (by omega) r ⟨hcut, ?_, r.succ_lt hy (by simp [hop]), ?_⟩ hrest)
    (by omega))
  · simp [State.next, Nat.add_assoc]
  · have hkeeps : t.Keeps ({ t with pc := Placed.bodyLine r.start r.site.frame r.params + lines.length } :
        State).next := ⟨rfl, rfl, rfl⟩
    refine ⟨halive.of_keeps hkeeps, hcache ▸ .empty .., fun o ho hstorage => ?_, [], by simp [hpending], hargs⟩
    rw [hkeeps.contents]
    exact hstore o ho hstorage

/-- A machine that stands at the end of a function returns the value in its first register. -/
theorem leave {t : State} {k : Nat} {given : Option Word}
    (hcode : im.host.HasCode t.pc (.mark "exit" :: epilogue))
    (halive : Alive r.site before entry a.heap a.arrays t)
    (hnext : a.next? im.address r.site.func = some (.ret given))
    (hgiven : ∀ w, given = some w → t.regs (.tracked .rax) = w) (hk : k ≤ n)
    (hrun : im.host.run k t = .error e) (hhalts : e ≠ .fault) : r.Ends before entry a n e := by
  obtain ⟨m, rfl, hrest⟩ := Host.run_silent hcode rfl hrun
  have htail := hcode.tail
  rw [← List.append_nil epilogue] at htail
  have hkeeps := State.Keeps.next t
  obtain ⟨j, u, hj, hrsp, hrbp, hregs, hmem, hresumes⟩ :=
    run_epilogue htail (halive.framed.of_keeps hkeeps) hrest hhalts
  refine ⟨.returned (t.regs (.tracked .rax)), _, .ret _ hnext hgiven, u, j, by omega, ?_, hresumes⟩
  refine ⟨hregs .rax, hrsp, hrbp, fun c hc hcovers => ?_, ?_, halive.shape⟩
  · rw [hmem, ← halive.framed.above c hc hcovers]
    rfl
  · rw [hmem]
    exact halive.held.free a.arrays

namespace Step

variable (st : r.Step before entry a e n)

/-- The values handed over are those of the operands that are pending. -/
theorem handed : ∃ os : List Operand, st.g.pending.toList = os.map some ∧
    (∀ o ∈ os, some o ∈ r.site.func.operands) ∧ a.args.length = st.g.pending.size ∧
      a.args = os.map ((r.site.frame.contents st.s).word im.address) := by
  obtain ⟨os, hos, hargs⟩ := st.shows.args
  have hreadable : ∀ o ∈ os, r.site.Readable (some o) := fun o ho =>
    st.ready.readable (some o) (by
      rw [← Array.mem_toList_iff, hos]
      exact List.mem_map_of_mem ho)
  refine ⟨os, hos, fun o ho => (hreadable o ho).1, ?_, ?_⟩
  · rw [hargs, List.length_map, ← Array.length_toList, hos, List.length_map]
  · rw [hargs]
    exact List.map_congr_left fun o ho => st.word (hreadable o ho).1 (hreadable o ho).2

theorem array (hop : st.x.op = .array) (hlater : r.Later before entry e n a.index) :
    r.Ends before entry a n e := by
  obtain ⟨os, hos, hmem, hsize, hargs⟩ := st.handed
  have hfit := st.ready.args
  simp only [Code.ArgsFit, hop] at hfit
  have hgen := st.gen
  simp only [genInstr, hop, GenM.bind_eq_ok_iff, GenM.pure_eq_ok_iff, Prod.mk.injEq] at hgen
  obtain ⟨xs, _, hgen, ⟨hcode, hcovered⟩, rfl⟩ := hgen
  obtain ⟨d, hd, hpending, _, hensures⟩ := genArray_ensures (h := im.host) hgen hos st.mem st.sound
    st.places hmem
  have hnext := st.next (.array (hsize ▸ hfit.1)) hop hd rfl rfl
  have harrays : r.site.frame.hasArrays = true := by
    rw [Frame.hasArrays_ofFunc r.placed.frame, List.any_eq_true]
    exact ⟨st.x, st.mem, by simp [hop]⟩
  have halive := st.shows.alive
  have hlines := st.hasCode
  rw [← hcode] at hlines
  obtain ⟨m, t, rfl, ⟨u, hbuilt, hwrote, htracks⟩, hpc, hrest⟩ :=
    Host.run_past hlines (hensures st.s st.shows.tracks halive.settled halive.framed.rbp_le) st.run st.halts
  obtain ⟨hfresh, halive⟩ := halive.build hbuilt harrays
  rw [← hargs] at halive
  have hshows : Matches r.site im.address before entry st.g' (a.stepBuild d (u.regs .rsp) a.args) t := by
    refine ⟨halive.wrote r.fits hwrote, htracks, fun o ho hstorage => ?_, [], by simp [hpending], rfl⟩
    rw [hwrote.contents r.sound.apart r.fits (hd ▸ st.dst_mem) ho, hbuilt.contents r.fits]
    simp only [Activation.stepBuild, Activation.stepPut, Store.put?, Store.put]
    split
    · rfl
    · exact st.shows.store o ho hstorage
  refine .build hnext hfresh (st.advance hcovered.symm (by simp [hop]) hlater (Nat.le_add_right m _) rfl ?_
    hshows hrest)
  rw [hpc, ← hcode, List.length_map]

theorem lines_le : st.lines.length ≤ r.body.length := by
  rw [st.cut.lines, List.length_append, List.length_append]
  omega

theorem jump (hop : st.x.op = .jump) (hless : ∀ m, m < n → im.Simulates e m) :
    r.Ends before entry a n e := by
  obtain ⟨name, hname⟩ : ∃ name, st.x.dst = some (.label name) := st.meets.parts hop rfl rfl rfl
  have htarget := r.valid.targets st.x st.mem name (by simp [Instr.target?, hop, hname])
  have hgen := st.gen
  simp only [genInstr, hop, hname, GenM.pure_eq_ok_iff, Prod.mk.injEq] at hgen
  obtain ⟨⟨hcode, _⟩, _⟩ := hgen
  have hlines := st.hasCode
  rw [← hcode] at hlines
  obtain ⟨m, rfl, hrest⟩ := Host.run_exec hlines st.run
  obtain ⟨i, hi, hends⟩ := jumpTo htarget st.pc st.lines_le st.shows.alive st.shows.store
    (st.shows.args_nil (st.pending (by rw [hop]; rfl))) (Nat.lt_succ_self m) hrest hless
  exact .goto (st.next (.jump hi) hop hname rfl rfl) hends

/-- A conditional jump compares its operand with zero first. -/
theorem compared (hop : st.x.op = .jumpIfFalse) : st.covered = false ∧ ∃ name o xs,
    st.x.dst = some (.label name) ∧ st.x.src1 = some o ∧ st.code = xs.map .insn ++ [.insn (.jumpIfZero name)] ∧
      st.g.Keeps st.g' ∧ im.host.Ensures False xs st.s fun t => st.s.Keeps t ∧
        Tracks r.site im.address st.g'.cache t ∧ t.flags = some (.ofDifference (a.word im.address o) 0) := by
  have hvalue := (st.meets.parts hop rfl rfl rfl).2
  obtain ⟨name, hname⟩ : ∃ name, st.x.dst = some (.label name) := (st.meets.parts hop rfl rfl rfl).1
  have hgen := st.gen
  simp only [genInstr, hop, hname, GenM.bind_eq_ok_iff, GenM.pure_eq_ok_iff, Prod.mk.injEq] at hgen
  obtain ⟨xs, _, hload, ⟨hcode, hcovered⟩, rfl⟩ := hgen
  obtain ⟨o, ho, hkeeps, hload⟩ := load_ensures (h := im.host) hload st.sound st.places st.src1_mem
  rw [ho] at hvalue
  have hword := st.word (ho ▸ st.src1_mem) hvalue
  refine ⟨hcovered.symm, name, o, xs ++ [.compareZero .rax], hname, ho, by simp [← hcode], hkeeps,
    .append ((hload st.s False st.shows.tracks).mono ?_)⟩
  rintro t ⟨ht, htracks⟩
  rw [Host.ensures_compareZero, Host.ensures_nil]
  have hst : st.s.Keeps t := ht ▸ .setAdvance ..
  refine ⟨hst.trans ⟨rfl, rfl, rfl⟩, htracks.congr (fun _ => rfl) (Frame.contents_congr rfl rfl), ?_⟩
  rw [hword, ht]
  simp

theorem jumpIfFalse (hop : st.x.op = .jumpIfFalse) (hlater : r.Later before entry e n a.index)
    (hless : ∀ m, m < n → im.Simulates e m) : r.Ends before entry a n e := by
  obtain ⟨hcovered, name, o, xs, hname, ho, hcode, hkeeps, hensures⟩ := st.compared hop
  have htarget := r.valid.targets st.x st.mem name (by simp [Instr.target?, hop, hname])
  have hnone := st.pending (by rw [hop]; rfl)
  have hlines := st.hasCode
  rw [hcode, List.append_assoc] at hlines
  obtain ⟨m, t, hn, ⟨hst, htracks, hflags⟩, hpc, hrest⟩ := Host.run_past hlines hensures st.run st.halts
  have hjump := hlines.right
  rw [List.length_map, ← hpc] at hjump
  obtain ⟨k, rfl, hend⟩ := Host.run_exec hjump hrest
  have hzero : (Flags.ofDifference (a.word im.address o) 0).zero = decide (a.word im.address o = 0) := by
    simp [Flags.ofDifference]
  simp only [Host.exec, hflags, hzero, decide_eq_true_eq] at hend
  have halive := st.shows.alive.of_keeps hst
  have hstore : ∀ o, some o ∈ r.site.func.operands → Operand.isStorage (some o) = true →
      a.store o = r.site.frame.contents t o := fun o ho hstorage => by
    rw [hst.contents]
    exact st.shows.store o ho hstorage
  have hlength : xs.length + 1 = st.code.length := by simp [hcode]
  split at hend
  · next hfalse =>
    have hposition : t.pc = Placed.bodyLine r.start r.site.frame r.params + (st.lines.length + xs.length) := by
      rw [hpc, st.pc, Nat.add_assoc]
    have hpos : st.lines.length + xs.length ≤ r.body.length := by
      rw [st.cut.lines]
      simp only [List.length_append]
      omega
    obtain ⟨i, hi, hends⟩ := jumpTo htarget hposition hpos halive hstore (st.shows.args_nil hnone)
      (by omega) hend hless
    exact .goto (st.next (.taken hfalse hi) hop hname ho rfl) hends
  · next htrue =>
    have hnext := st.next (.passed htrue) hop hname ho rfl
    have hshows : Matches r.site im.address before entry st.g' a.step t.next := by
      have hnextKeeps := State.Keeps.next t
      refine ⟨halive.of_keeps hnextKeeps, htracks.congr (fun _ => rfl) hnextKeeps.contents,
        fun o ho hstorage => ?_, [], by simp [hkeeps.pending, hnone], st.shows.args_nil hnone⟩
      rw [hnextKeeps.contents]
      exact hstore o ho hstorage
    refine .goto hnext (st.advance hcovered (by simp [hop]) hlater ?_ rfl ?_ hshows hend)
    · omega
    · rw [State.next_pc, hpc, Nat.add_assoc, hlength]

/-- A return puts its operand into the first register, and the last one needs no jump. -/
theorem value (hop : st.x.op = .ret) : st.covered = false ∧ ∃ xs : List Insn,
    st.code = (xs ++ if a.index + 1 < r.site.func.code.length then [Insn.jump "exit"] else []).map .insn ∧
      im.host.Ensures False xs st.s fun t => st.s.Keeps t ∧
        ∀ w, st.x.src1.map (a.word im.address) = some w → t.regs (.tracked .rax) = w := by
  obtain ⟨hcovered, xs, hcode, hensures⟩ := genInstr_ret st.gen st.mem st.sound st.places hop
  refine ⟨hcovered, xs, hcode, (hensures st.s st.shows.tracks).mono ?_⟩
  rintro t ⟨hst, hvalue⟩
  refine ⟨hst, fun w hw => ?_⟩
  obtain ⟨o, ho, rfl⟩ := Option.map_eq_some_iff.mp hw
  rw [hvalue o ho, st.word (ho ▸ st.src1_mem)
    ((st.meets.parts hop rfl ho rfl).resolve_left (Option.some_ne_none o))]

theorem ret (hop : st.x.op = .ret) : r.Ends before entry a n e := by
  obtain ⟨hcovered, xs, hcode, hensures⟩ := st.value hop
  have hnext := st.next .ret hop rfl rfl rfl
  have hlines := st.hasCode
  rw [hcode, List.map_append, List.append_assoc] at hlines
  obtain ⟨m, t, hn, ⟨hst, hvalue⟩, hpc, hrest⟩ := Host.run_past hlines hensures st.run st.halts
  have hbehind := hlines.right
  rw [List.length_map, ← hpc] at hbehind
  have halive := st.shows.alive.of_keeps hst
  split at hbehind
  · next hinside =>
    obtain ⟨k, rfl, hend⟩ := Host.run_exec hbehind hrest
    have hposition : t.pc = Placed.bodyLine r.start r.site.frame r.params +
        (st.lines.length + xs.length) := by
      rw [hpc, st.pc, Nat.add_assoc]
    have hpos : st.lines.length + xs.length ≤ r.body.length := by
      rw [st.cut.lines, hcode]
      simp only [List.length_append, List.length_map]
      omega
    rw [Host.exec, hposition, r.placed.mark?_exit im.wellFormed hpos] at hend
    have hexit := r.placed.hasCode_behind (List.append_nil r.body).symm
    have hkeeps : t.Keeps { t with
      pc := Placed.bodyLine r.start r.site.frame r.params + r.body.length } := ⟨rfl, rfl, rfl⟩
    exact leave (k := k) hexit (halive.of_keeps hkeeps) hnext hvalue (by omega) hend st.halts
  · next hlast =>
    have hrest_nil : st.rest = [] := by
      obtain ⟨_, hgen⟩ := st.cut.gen
      rw [hcovered, if_neg (by simp), List.drop_eq_nil_of_le (by omega)] at hgen
      simp only [genCode, GenM.pure_eq_ok_iff] at hgen
      exact hgen.1.symm
    rw [hrest_nil] at hbehind
    exact leave hbehind halive hnext hvalue (by omega) hrest st.halts

end Step

end Routine

end TreeCompiler.Asm
