import TreeCompiler.Proofs.Asm.JourneySteps

/-!
Entering a function, starting it again, leaving it and calling another keep the ledger of the arrays,
and so does a whole journey.
-/

namespace TreeCompiler.Asm

open Code

variable {h : Host} {options : Options} {p : Code.Program} {k : Station h options p} {address : Bytes → Word}
  {before heap : Heap} {entry s t u v z : State} {c c' : Point} {l l' : Ledger} {x : Instr} {vs : List Word}

/-- Whatever stands where arguments are passed are the arguments. -/
theorem exists_passed (s : State) (top n : Nat) : ∃ vs : List Word, vs.length = n ∧ Passed s top 0 vs := by
  let value (j : Nat) : Word :=
    Reg.args[j]?.elim (s.mem.read (top + 8 * (j - 6))) fun r => s.regs (.tracked r)
  have hvalue : ∀ (j : Nat) w, ((List.range n).map value)[j]? = some w → value j = w := by
    intro j w hw
    rw [List.getElem?_map, Option.map_eq_some_iff] at hw
    obtain ⟨i, hi, rfl⟩ := hw
    obtain ⟨_, hi⟩ := List.getElem?_eq_some_iff.mp hi
    rw [← hi, List.getElem_range]
  refine ⟨(List.range n).map value, by simp, fun j w r hw hr => ?_, fun j w hw hj => ?_⟩
  · rw [Nat.zero_add] at hr
    rw [← hvalue j w hw]
    simp only [value, hr, Option.elim_some]
  · have hnone : Reg.args[j]? = none := List.getElem?_eq_none (by simpa [Reg.args] using hj)
    rw [← hvalue j w hw, Nat.zero_add]
    simp only [value, hnone, Option.elim_none]

theorem Host.symbol?_inj {a b : String} {i : Nat} (ha : h.symbol? a = some i) (hb : h.symbol? b = some i) : a = b := by
  obtain ⟨hlt, hfirst, _⟩ := List.idxOf?_eq_some_iff.mp ha
  obtain ⟨_, hsecond, _⟩ := List.idxOf?_eq_some_iff.mp hb
  exact Line.symbol.inj (hfirst.symm.trans hsecond)

/-- The instructions of a call hold one that calls. -/
theorem Balanced.call_index {name name' : String} {space i : Nat} {before after : List Insn}
    (hbalanced : Balanced name space before after)
    (hi : (callCode name space before after)[i]? = some (.call name')) : i = before.length := by
  rw [callCode] at hi
  rcases Nat.lt_trichotomy i before.length with hlt | heq | hgt
  · rw [List.getElem?_append_left hlt] at hi
    cases hbalanced.plain _ (List.mem_of_getElem? hi)
  · exact heq
  · obtain ⟨j, rfl⟩ := Nat.exists_eq_add_of_lt hgt
    rw [List.getElem?_append_right (by omega), Nat.add_assoc, Nat.add_sub_cancel_left, List.getElem?_cons_succ] at hi
    rcases List.mem_append.mp (List.mem_of_getElem? hi) with hmem | hmem
    · split at hmem <;> simp at hmem
    · cases isPlain_of_allLevel hbalanced.kept _ hmem

namespace Station

/-- A function with its arguments in place comes from its entry to its first point. -/
theorem kept_first (hp : p.WellFormed) (hfits : k.site.frame.Fits) (hentered : Entered k.site before entry heap s)
    (hpassed : Passed s ((s.regs .rbp).toNat + 16) 0 vs) (hlength : vs.length = k.site.func.params.length)
    (hpc : s.pc = k.entryLine) (hrun : h.run (k.line k.first - k.entryLine) s = .ok t) :
    k.Kept address before entry k.first (.opening heap) t := by
  have hcode := k.placed.hasCode_entry
  rw [← entryLine, ← hpc] at hcode
  have hcount : k.line k.first - k.entryLine = (rewind k.site.frame ++ k.params).length + 1 := by
    simp only [line, first, entryLine, Placed.bodyLine, List.length_nil]
    omega
  rw [hcount] at hrun
  obtain ⟨⟨halive, htracks, _⟩, htpc⟩ :=
    (k.placed.entry_ensures hp address hfits hentered hpassed hlength).of_run (s := s.next) hcode.tail
      (Host.run_of_isSilent hcode.getElem? rfl hrun)
  refine ⟨hfits, .refl, ?_, halive, htracks, ⟨[], ?_, rfl⟩, (fun b hb => by simp [Ledger.opening] at hb),
    List.nodup_nil⟩
  · rw [htpc, State.next_pc, hpc]
    simp only [line, first, entryLine, Placed.bodyLine, List.length_nil]
    omega
  · simp [first, (k.placed.opened_keeps hp).pending]

/-- A function that is called comes from its symbol to its first point. -/
theorem kept_enter (hp : p.WellFormed) (hheld : Held entry.mem before)
    (hshared : ∀ b ws, before b = some ws → k.site.argsEnd entry ≤ b.toNat) (hstart : entry.pc = k.start)
    (hrun : h.run (k.line k.first - k.start) entry = .ok t) :
    k.Kept address before entry k.first (.opening before) t := by
  have hcode := k.placed.code
  rw [← hstart] at hcode
  have hcount : k.line k.first - k.start =
      (prologue k.site.frame).length + (k.line k.first - k.entryLine) + 1 := by
    simp only [line, first, entryLine, Placed.bodyLine, Placed.entryLine, List.length_nil]
    omega
  rw [hcount] at hrun
  obtain ⟨s, hopen, hrest⟩ := Host.exists_of_run_add (Host.run_of_isSilent hcode.getElem? rfl hrun)
  have hinner := hcode.tail
  rw [innerLines] at hinner
  obtain ⟨vs, hlength, hpassed⟩ := exists_passed entry ((entry.regs .rsp).toNat + 8) k.site.func.params.length
  obtain ⟨⟨hentered, hpassed, hfits⟩, hpc⟩ :=
    (prologue_ensures (h := h) hpassed hheld hshared).of_run (s := entry.next) hinner hopen
  refine kept_first hp hfits hentered hpassed hlength ?_ hrest
  rw [hpc, State.next_pc, hstart]
  rfl

/-- A line of the code of an instruction stands inside the lines of its function. -/
theorem Front.range {code rest : List Line} {covered : Bool} (hp : p.WellFormed)
    (fr : k.Front address before entry x c l c' s code rest covered) (pc : Nat) (hlo : s.pc ≤ pc)
    (hhi : pc ≤ s.pc + code.length) :
    ∃ pos, pos ≤ k.body.length ∧ pc = Placed.bodyLine k.start k.site.frame k.params + pos := by
  have hbefore := fr.point.before_le hp k.placed
  have hinside := fr.inside
  have hline := fr.pc
  simp only [line] at hinside hline
  exact ⟨pc - Placed.bodyLine k.start k.site.frame k.params, by omega, by omega⟩

/-- The machine stands at the line of an ordinary call: the arguments are placed, and behind the call
    their space is given back and the result kept. -/
structure AtCall (k : Station h options p) (address : Bytes → Word) (f : Func) (os : List Operand) (u v : State)
    (c' : Point) : Prop where
  point : Boundary options k.site k.opened c'
  pending : c'.state.pending = #[]
  count : os.length = f.params.length
  calling : Calling k.site address os u v
  behind : ∃ zs rest dst, k.line c' = v.pc + 1 + zs.length ∧ h.HasCode (v.pc + 1) (zs.map .insn ++ rest) ∧
    ∀ z, h.Ensures False zs z fun t => ∃ w, w.mem = z.mem ∧ w.regs .rbp = z.regs .rbp ∧
      w.regs .rsp = z.regs .rsp + BitVec.ofNat 64 (callSpace os.length) ∧
        Stored h k.site (z.regs (.tracked .rax)) w t dst ∧ Tracks k.site address c'.state.cache t

/-- An ordinary call has one line that calls. -/
theorem Front.call_line {rest : List Line} {covered : Bool} {name name' : String} {ys zs : List Insn} {pc : Nat}
    (fr : k.Front address before entry x c l c' s ((ys ++ Insn.call name :: zs).map .insn) rest covered)
    (hop : x.op = .call) (hplain : k.site.restarts c.index x = false) (hlo : k.line c ≤ pc) (hhi : pc < k.line c')
    (hline : h.lines[pc]? = some (.insn (.call name'))) : pc = s.pc + ys.length ∧ name' = name := by
  have hbehind : s.pc ≤ pc := by
    refine Nat.le_of_not_lt fun hlt => ?_
    obtain ⟨_, hsilent, hl⟩ := fr.announced pc hlo hlt
    cases hline.symm.trans hsilent
    cases hl
  obtain ⟨i, rfl⟩ := Nat.exists_eq_add_of_le hbehind
  have hi : i < (ys ++ Insn.call name :: zs).length := by
    have hpc := fr.pc
    rw [List.length_map] at hpc
    omega
  rw [fr.hasCode.left.getElem?_add (by rw [List.length_map]; exact hi), List.getElem?_map,
    Option.map_eq_some_iff] at hline
  obtain ⟨_, hget, heq⟩ := hline
  cases heq
  obtain ⟨xs, hxs, hshape⟩ := genInstr_gives_call hop _ _ _ fr.gen
  obtain rfl := List.map_injective_iff.mpr (fun _ _ heq => Line.insn.inj heq) hxs
  have hcall : (ys ++ Insn.call name :: zs)[ys.length]? = some (.call name) := by simp
  cases hshape with
  | restart hagain =>
    rw [hagain] at hplain
    cases hplain
  | plain _ _ _ heq hbalanced =>
    obtain rfl : i = ys.length := by
      rw [heq] at hget hcall
      rw [hbalanced.call_index hget, hbalanced.call_index hcall]
    cases hcall.symm.trans hget
    exact ⟨rfl, rfl⟩

section Kept

variable (hp : p.WellFormed) (hplaces : h.Places address (StringTable.ofProgram p))
  (hkept : k.Kept address before entry c l u)
include hp hplaces hkept

/-- A call of the function itself in last position gives up the arrays and comes to the first point. -/
theorem Kept.restarts (hrestarts : k.Restarts c u t) : k.Kept address before entry k.first (.opening l.left) t := by
  obtain ⟨⟨x, hx, hop, hagain⟩, c', hnext, hrun⟩ := hrestarts
  obtain ⟨s, code, rest, covered, fr, _, hrun⟩ := hkept.execute hp hx hnext hrun
  obtain ⟨os, hos, hmem, _⟩ := fr.handed
  have hgen := fr.gen
  simp only [genInstr, hop, GenM.bind_eq_ok_iff, GenM.pure_eq_ok_iff, Prod.mk.injEq] at hgen
  obtain ⟨⟨xs, covered'⟩, g, hgen, ⟨rfl, _⟩, _⟩ := hgen
  rcases genCall_ok (Site.restarts_iff.mp hagain).1 hgen with ⟨_, hjump⟩ | ⟨hplain, _⟩
  · rw [hos] at hjump
    obtain ⟨hlength, _, ys, rfl, hensures⟩ := tailJump_ensures (h := h) hjump (fr.sound hp).fits (fr.places hplaces)
      fun o ho => ((fr.sound hp).reads (hmem o ho)).2
    have halive := fr.shows.alive
    obtain ⟨w, hrebound, hwpc, hjump, hrest⟩ :=
      (hensures s fr.shows.tracks.holds halive.framed.rbp_le).of_run_append fr.hasCode hrun
    rw [Nat.add_comm] at hrest
    obtain ⟨y, hexec, hrest⟩ := Host.exec_of_run hjump hrest
    obtain ⟨pos, hpos, hpc⟩ := fr.range hp w.pc (by omega) (by
      rw [hwpc, List.length_map, List.length_append]
      omega)
    obtain ⟨hlo, hhi⟩ := Placed.range k.start k.site.frame k.params hpos
    simp only [Host.exec, hpc, k.placed.mark?_entry hlo hhi, State.goto, Except.ok.injEq] at hexec
    subst hexec
    have hpassed := hrebound.passed
    rw [← hrebound.rbp] at hpassed
    have hkeeps : w.Keeps { w with pc := k.entryLine } := ⟨rfl, rfl, rfl⟩
    exact kept_first hp fr.fits ((halive.rebound hrebound hlength).of_keeps hkeeps)
      ⟨hpassed.inRegs, hpassed.onStack⟩ (by rw [List.length_map, hlength]) rfl hrest
  · rw [hagain] at hplain
    cases hplain

/-- A return comes from its point to the end of the function, with the frame as it was. -/
theorem Kept.ends (hleaves : k.Leaves c u z) :
    ∃ w, u.Keeps w ∧ h.HasCode w.pc (.mark "exit" :: epilogue) ∧ h.run (epilogue.length + 1) w = .ok z := by
  obtain ⟨⟨x, hx, hop⟩, c', hnext, hrun⟩ := hleaves
  obtain ⟨s, code, rest, covered, fr, hus, hrun⟩ := hkept.execute hp hx hnext hrun
  obtain ⟨rfl, xs, rfl, hensures⟩ := genInstr_ret fr.gen fr.mem (fr.sound hp) (fr.places hplaces) hop
  obtain ⟨y, ⟨hsy, _⟩, hypc, hjump, hrest⟩ := (hensures s fr.shows.tracks).of_run_append fr.hasCode hrun
  have hexit := k.placed.hasCode_behind (List.append_nil k.body).symm
  split at hrest
  · next hinside =>
    rw [if_pos hinside] at hjump
    rw [List.length_singleton, Nat.add_comm] at hrest
    obtain ⟨w, hexec, hrest⟩ := Host.exec_of_run hjump hrest
    obtain ⟨pos, hpos, hpc⟩ := fr.range hp y.pc (by omega) (by
      rw [hypc, List.length_map, List.length_append]
      omega)
    simp only [Host.exec, hpc, k.placed.mark?_exit hp hpos, State.goto, Except.ok.injEq] at hexec
    subst hexec
    have hyw : y.Keeps { y with pc := Placed.bodyLine k.start k.site.frame k.params + k.body.length } :=
      ⟨rfl, rfl, rfl⟩
    exact ⟨_, hus.trans (hsy.trans hyw), hexit, hrest⟩
  · next hlast =>
    have hindex : k.site.func.code[c'.index]? = none := by
      rw [fr.index]
      exact List.getElem?_eq_none (by simpa using hlast)
    have hline := fr.pc
    simp only [line, fr.point.before_of_last hp k.placed hindex, if_neg hlast, List.append_nil,
      List.length_map] at hline
    rw [List.length_nil, Nat.zero_add] at hrest
    exact ⟨y, hus.trans hsy, by rw [hypc, ← hline]; exact hexit, hrest⟩

/-- A function that returns leaves the arrays of its callers and what else its caller owns. -/
theorem Kept.leaves (hleaves : k.Leaves c u z) :
    Returned k.site entry before l.left (z.regs (.tracked .rax)) z ∧
      h.lineAt (entry.mem.read (entry.regs .rsp).toNat) = some z.pc := by
  obtain ⟨w, huw, hcode, hrun⟩ := hkept.ends hp hplaces hleaves
  have halive := (hkept.shows.alive.of_keeps huw).of_keeps (.next w)
  have hrun : h.run (2 + 1) w.next = .ok z := Host.run_of_isSilent hcode.getElem? rfl hrun
  have hcode : h.HasCode w.next.pc ([Insn.mov .rsp .rbp, .pop .rbp].map .insn ++ [.insn .ret]) := hcode.tail
  obtain ⟨y, hclose, hret⟩ := Host.exists_of_run_add hrun
  obtain ⟨⟨hrsp, hrbp, hregs, hmem⟩, hpc⟩ := (epilogue_ensures halive.framed).of_run hcode hclose
  have hlast : h.HasCode y.pc [.insn .ret] := hpc ▸ hcode.right
  obtain ⟨z', hexec, hend⟩ := Host.exec_of_run hlast hret
  cases hend
  have haddress : y.mem.read (y.regs .rsp).toNat = entry.mem.read (entry.regs .rsp).toNat := by
    rw [hmem, hrsp, halive.framed.returnAddress]
  rw [exec_ret, haddress] at hexec
  split at hexec
  · cases hline : h.lineAt (entry.mem.read (entry.regs .rsp).toNat) with
    | none =>
      rw [hline] at hexec
      cases hexec
    | some pc =>
      rw [hline] at hexec
      cases hexec
      refine ⟨⟨rfl, ?_, ?_, fun a ha hcovers => ?_, ?_, halive.shape⟩, rfl⟩
      · simp [hrsp]
      · simp [State.set_regs_ne, hrbp]
      · simp only [State.set_mem, hmem]
        exact halive.framed.above a ha hcovers
      · simp only [State.set_mem, hmem]
        exact halive.held.free l.arrays
  · cases hexec

theorem Kept.atCall {name : String} (hcalls : k.Calls c u name v c') :
    ∃ f os, p.func? name = some f ∧ k.AtCall address f os u v c' := by
  obtain ⟨⟨x, hx, hop, hplain⟩, hnext, hline, hinside, hrun⟩ := hcalls
  obtain ⟨lead, code, rest, covered, fr, hlength, hlead⟩ := hkept.front hp hx hnext
  obtain ⟨os, hos, hmem, _⟩ := fr.handed
  have hgen := fr.gen
  simp only [genInstr, hop, GenM.bind_eq_ok_iff, GenM.pure_eq_ok_iff, Prod.mk.injEq] at hgen
  obtain ⟨⟨xs, covered'⟩, g, hgen, ⟨rfl, _⟩, hg⟩ := hgen
  have hfit := fr.ready.args
  simp only [Code.ArgsFit, hop] at hfit
  obtain ⟨_, ⟨name', hname, harity⟩, _⟩ := hfit
  obtain ⟨f, hf, hparams⟩ := Option.map_eq_some_iff.mp harity
  rcases genCall_ok hname hgen with ⟨hagain, _⟩ | ⟨_, _, hcall⟩
  · rw [hplain] at hagain
    cases hagain
  · rw [hos, hg] at hcall
    obtain ⟨hkeeps, ys, zs, rfl, hys, hzs⟩ :=
        plainCall_ensures (h := h) hcall (fr.sound hp) (fr.places hplaces) hmem
      (Instr.dst_mem fr.mem)
    obtain ⟨hpc, rfl⟩ := fr.call_line hop hplain hinside.1 hinside.2 hline
    rw [State.advance_pc, hkept.pc] at hpc
    rw [show v.pc - k.line c = lead + ys.length by omega] at hrun
    obtain ⟨s, hfirst, hrun⟩ := Host.exists_of_run_add hrun
    cases hlead.symm.trans hfirst
    have hlines := fr.hasCode
    rw [List.map_append, List.append_assoc] at hlines
    obtain ⟨hcalling, hvpc⟩ := (hys _ fr.shows.tracks fr.shows.alive.settled).of_run hlines hrun
    have hcall := hlines.right
    rw [List.length_map, ← hvpc] at hcall
    refine ⟨f, os, hf, fr.point, by rw [hkeeps.pending], ?_, ?_, zs, rest, x.dst, ?_, hcall.tail, hzs⟩
    · rw [hparams, ← Array.length_toList, hos, List.length_map]
    · exact ⟨hcalling.rbp, hcalling.rsp, hcalling.room, hcalling.mem, hcalling.passed⟩
    · rw [hlength, hpc]
      simp only [List.length_map, List.length_append, List.length_cons]
      omega

end Kept

/-- Behind a call the caller goes on with its arrays, of which the callee may have changed elements. -/
theorem Kept.resumes {f : Func} {os : List Operand} (hkept : k.Kept address before entry c l u)
    (hat : k.AtCall address f os u v c') (hsmall : (u.regs .rsp).toNat < 2 ^ 63) (hpc : z.pc = v.pc + 1)
    (hrsp : z.regs .rsp = v.regs .rsp) (hrbp : z.regs .rbp = v.regs .rbp)
    (hmem : ∀ a, (u.regs .rsp).toNat ≤ a → ¬ l.heap.Covers a → z.mem a = u.mem a) (hheld : Held z.mem heap)
    (hshape : heap.SameShape l.heap) (hrun : h.run (k.line c' - (v.pc + 1)) z = .ok t) :
    k.Kept address before entry c' ⟨heap, l.arrays, []⟩ t := by
  obtain ⟨zs, rest, dst, hline, hcode, hensures⟩ := hat.behind
  rw [show k.line c' - (v.pc + 1) = zs.length by omega] at hrun
  rw [← hpc] at hcode
  obtain ⟨⟨w, hwmem, hwrbp, hwrsp, hstored, htracks⟩, htpc⟩ := (hensures z).of_run hcode hrun
  obtain ⟨halive, _⟩ := hkept.shows.alive.resumed hkept.fits hat.calling hsmall hrsp hrbp hmem hheld hshape hwmem
    hwrbp hwrsp
  have halive : Alive k.site before entry heap l.arrays t := by
    cases dst with
    | none => exact halive.of_keeps hstored
    | some d => exact halive.wrote hkept.fits hstored
  refine ⟨hkept.fits, hat.point, by rw [htpc, hpc, hline], halive, htracks, ⟨[], by simp [hat.pending], rfl⟩,
    fun b hb => ?_, hkept.shows.nodup⟩
  obtain ⟨ws, hws⟩ := hkept.shows.built b hb
  obtain ⟨ws', hws', _⟩ := hshape.symm.exists_some hws
  exact ⟨ws', hws'⟩

theorem Journey.start (hjourney : Journey address k entry before c l u) : entry.pc = k.start := by
  induction hjourney with
  | enter hstart => exact hstart
  | step _ _ ih => exact ih
  | call _ _ _ _ _ _ ih => exact ih
  | foreign _ _ _ _ _ _ _ ih => exact ih
  | restart _ _ ih => exact ih

/-- Along a journey the ledger is kept. -/
theorem Journey.kept (hp : p.WellFormed) (hplaces : h.Places address (StringTable.ofProgram p))
    (hjourney : Journey address k entry before c l u) (hheld : Held entry.mem before)
    (hshared : ∀ b ws, before b = some ws → k.site.argsEnd entry ≤ b.toNat) :
    k.Kept address before entry c l u := by
  induction hjourney with
  | enter hstart hrun => exact kept_enter hp hheld hshared hstart hrun
  | step _ hexecutes ih => exact (ih hheld hshared).executes hp hplaces hexecutes
  | restart _ hrestarts ih => exact (ih hheld hshared).restarts hp hplaces hrestarts
  | @call k k' entry u v w y z t before name c d c' l m _ hcalls hcall hcallee hleaves hrun ih ihcallee =>
    have hkept := ih hheld hshared
    obtain ⟨f, os, hf, hat⟩ := hkept.atCall hp hplaces hcalls
    have hvpc : v.pc < h.lines.length := (List.getElem?_eq_some_iff.mp hcalls.line).1
    simp only [Host.step, hcalls.line] at hcall
    obtain ⟨hsymbol, hinvoked⟩ := Invoked.of_exec hvpc hcall
    -- The callee is the function at whose symbol the machine arrived.
    rw [hcallee.start] at hsymbol
    obtain rfl := Host.symbol?_inj hsymbol k'.placed.symbol
    rw [Code.Program.func?_of_mem hp.names k'.placed.mem] at hf
    cases hf
    obtain ⟨hheld', hshared'⟩ := hkept.shows.alive.invoked hinvoked hat.calling hat.count
    obtain ⟨hreturned, hline⟩ := (ihcallee hheld' hshared').leaves hp hplaces hleaves
    have hzpc : z.pc = v.pc + 1 := Option.some.inj (hline.symm.trans hinvoked.returnAddress)
    have hend := hinvoked.argsEnd_le hat.calling hat.count
    refine hkept.resumes hat (hat.calling.room hinvoked.room.2).2 hzpc ?_ (hreturned.rbp.trans hinvoked.rbp)
      (fun a ha hcovers => ?_) hreturned.held hreturned.shape hrun
    · rw [hreturned.rsp, hinvoked.rsp, BitVec.sub_add_cancel]
    · rw [hreturned.above a (by omega) hcovers, hinvoked.mem_of_calling hat.calling ha]
  | @foreign k entry u v z t before g c c' l _ hcalls hg _ haccess hanswered hrun ih =>
    have hkept := ih hheld hshared
    obtain ⟨f, os, hf, hat⟩ := hkept.atCall hp hplaces hcalls
    rw [Code.Program.func?_of_mem hp.names hg] at hf
    cases hf
    have hroom := hat.calling.room (Host.push_bound haccess).2
    have hmem : ∀ a, (u.regs .rsp).toNat ≤ a → z.mem a = u.mem a := fun a ha => by
      have hcount := hat.count
      rw [hanswered.mem a (by omega), hat.calling.mem a ha]
    refine hkept.resumes hat hroom.2 hanswered.pc hanswered.rsp hanswered.rbp (fun a ha _ => hmem a ha) ?_
      (.refl l.heap) hrun
    refine hkept.shows.alive.held.congr fun a hcovers => hmem a (Nat.le_of_not_lt fun hlt => ?_)
    exact hkept.shows.alive.not_covers_below hroom.2 hlt hcovers

end Station

end TreeCompiler.Asm
