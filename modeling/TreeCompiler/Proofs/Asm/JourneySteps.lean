import TreeCompiler.Proofs.Asm.Journeys

/-!
Each instruction that is executed leads from a state that shows a ledger to one that shows the ledger
after it.
-/

namespace TreeCompiler.Asm

open Code

namespace Host

variable {h : Host} {s t : State} {trap : Prop} {xs : List Insn} {ls ms : List Line} {Q : State → Prop}
  {m n : Nat}

variable {pc i : Nat} {l : Line}

theorem HasCode.getElem?_add (hcode : h.HasCode pc ls) (hi : i < ls.length) :
    h.lines[pc + i]? = ls[i]? := by
  obtain ⟨rest, hrest⟩ := hcode
  rw [← List.getElem?_drop, ← hrest, List.getElem?_append_left hi]

theorem exists_of_run_add (hrun : h.run (m + n) s = .ok t) : ∃ u, h.run m s = .ok u ∧ h.run n u = .ok t := by
  induction m generalizing s with
  | zero => exact ⟨s, rfl, by rwa [Nat.zero_add] at hrun⟩
  | succ m ih =>
    rw [Nat.add_right_comm, run_succ] at hrun
    obtain ⟨w, hstep, hrest⟩ := bind_eq_ok_iff.mp hrun
    obtain ⟨u, hfirst, hrest⟩ := ih hrest
    exact ⟨u, bind_eq_ok_iff.mpr ⟨w, hstep, hfirst⟩, hrest⟩

/-- A machine that gets past an instruction has executed it. -/
theorem exec_of_run {x : Insn} (hcode : h.HasCode s.pc (.insn x :: ls)) (hrun : h.run (n + 1) s = .ok t) :
    ∃ u, h.exec s x = .ok u ∧ h.run n u = .ok t := by
  obtain ⟨u, hstep, hrest⟩ := bind_eq_ok_iff.mp hrun
  simp only [step, hcode.getElem?] at hstep
  exact ⟨u, hstep, hrest⟩

theorem step_of_isSilent (hline : h.lines[s.pc]? = some l) (hsilent : l.isSilent = true) :
    h.step s = .ok s.next := by
  simp only [step, hline]
  cases l <;> first | rfl | simp [Line.isSilent] at hsilent

/-- A machine that gets past a line without effect has passed over it. -/
theorem run_of_isSilent (hline : h.lines[s.pc]? = some l) (hsilent : l.isSilent = true)
    (hrun : h.run (n + 1) s = .ok t) : h.run n s.next = .ok t := by
  rwa [run_succ, step_of_isSilent hline hsilent] at hrun

/-- Lines without effect are passed over. -/
theorem run_of_silent (hcode : h.HasCode s.pc (ls ++ ms)) (hsilent : ∀ l ∈ ls, l.isSilent = true) :
    h.run ls.length s = .ok (s.advance ls.length) := by
  induction ls generalizing s with
  | nil => rfl
  | cons l ls ih =>
    have hrest := ih (s := s.next) hcode.tail fun l hl => hsilent l (by simp [hl])
    rw [List.length_cons, run_succ, step_of_isSilent (HasCode.getElem? hcode) (hsilent l (by simp))]
    refine hrest.trans ?_
    simp [State.next, State.advance, Nat.add_comm, Nat.add_left_comm]

/-- A machine that gets past instructions that ensure a property has that property. -/
theorem Ensures.of_run (hensures : h.Ensures trap xs s Q) (hcode : h.HasCode s.pc (xs.map .insn ++ ls))
    (hrun : h.run xs.length s = .ok t) : Q t ∧ t.pc = s.pc + xs.length := by
  induction xs generalizing s with
  | nil =>
    cases hrun
    exact ⟨ensures_nil.mp hensures, rfl⟩
  | cons x xs ih =>
    obtain ⟨u, hexec, hrest⟩ := exec_of_run hcode hrun
    rw [ensures_cons, hexec] at hensures
    have hcode' : h.HasCode u.pc (xs.map .insn ++ ls) := hensures.1 ▸ HasCode.tail hcode
    obtain ⟨hQ, hpc⟩ := ih hensures.2 hcode' hrest
    exact ⟨hQ, by rw [hpc, hensures.1, List.length_cons]; omega⟩

/-- A machine that gets past instructions stands before those that follow them. -/
theorem Ensures.of_run_append {ys : List Insn} (hensures : h.Ensures trap xs s Q)
    (hcode : h.HasCode s.pc ((xs ++ ys).map .insn ++ ls))
    (hrun : h.run (((xs ++ ys).map Line.insn).length + n) s = .ok t) :
    ∃ u, Q u ∧ u.pc = s.pc + xs.length ∧ h.HasCode u.pc (ys.map .insn ++ ls) ∧
      h.run (ys.length + n) u = .ok t := by
  rw [List.map_append, List.append_assoc] at hcode
  rw [List.length_map, List.length_append, Nat.add_assoc] at hrun
  obtain ⟨u, hfirst, hrest⟩ := exists_of_run_add hrun
  obtain ⟨hQ, hpc⟩ := hensures.of_run hcode hfirst
  have hbehind := HasCode.right hcode
  rw [List.length_map, ← hpc] at hbehind
  exact ⟨u, hQ, hpc, hbehind, hrest⟩

/-- What is found as a mark is one. -/
theorem getElem?_of_mark? {name : String} (hmark : h.mark? pc name = some i) :
    h.lines[i]? = some (.mark name) := by
  obtain ⟨j, hj, rfl⟩ := Option.map_eq_some_iff.mp hmark
  obtain ⟨hlt, hget, _⟩ := List.idxOf?_eq_some_iff.mp hj
  have hfound := (List.takeWhile_prefix fun l => !Line.isSymbol l).getElem hlt
  rw [← List.getElem?_drop, ← hget, hfound]
  exact List.getElem?_eq_getElem _

end Host

variable {address : Bytes → Word} {x : Instr}

/-- Only what hands a value over or is about the elements of arrays is entered in the ledger. -/
theorem Ledger.eq_of_after? {σ τ : Store} {l l' : Ledger}
    (hop : x.op ∉ [.arg, .array, .index, .setIndex]) (hledger : l.after? address x σ τ = some l') : l' = l := by
  unfold after? at hledger
  split at hledger
  · next hkind _ => simp [hkind] at hop
  · next hkind _ => simp [hkind] at hop
  · next hkind _ _ => simp [hkind] at hop
  · next hkind _ _ _ => simp [hkind] at hop
  · exact (Option.some.inj hledger).symm

/-- The length of whatever an operand holds is written to a place, be it an array or not. -/
theorem genInstr_len {h : Host} {site : Site} {g g' : GenState} {code : List Line}
    {covered : Bool} {i : Nat} (hop : x.op = .unary .len)
    (hgen : genInstr site i x g = .ok ((code, covered), g')) (hx : x ∈ site.func.code)
    (hsound : site.Sound g.strings) (hplaces : h.Places address g.strings) :
    ∃ d xs, code = xs.map .insn ∧ ∀ s, Tracks site address g.cache s →
      h.Ensures False xs s fun t => ∃ v, Wrote h site d v s t ∧ Tracks site address g'.cache t := by
  simp only [genInstr, hop, GenM.bind_eq_ok_iff, GenM.pure_eq_ok_iff, Prod.mk.injEq] at hgen
  obtain ⟨arg, g₁, harg, keep, _, hkeep, ⟨rfl, rfl⟩, rfl⟩ := hgen
  obtain ⟨o, ho, hkeeps, harg⟩ := load_ensures (h := h) harg hsound hplaces (Instr.src1_mem hx)
  obtain ⟨d, hd, _, hkeep⟩ := replace_ensures (h := h) hkeep (hkeeps.strings ▸ hsound) (Instr.dst_mem hx)
  refine ⟨d, _, rfl, fun s htracks => ?_⟩
  rw [List.append_assoc]
  refine Host.Ensures.append ((harg s _ htracks).mono ?_)
  rintro t ⟨ht, htracks⟩
  have hst : s.Keeps t := ht ▸ .setAdvance ..
  rw [unaryCode, List.cons_append, List.nil_append, Host.ensures_load]
  intro _ _
  have htu := fun v => (State.Keeps.set t .rax v).trans (.next _)
  refine (hkeep _ _ (htracks.forget .rax (fun r hr => ?_) (htu _).contents)).mono ?_
  · simp [State.set_regs_ne, hr]
  · rintro w ⟨hwrote, htracks⟩
    exact ⟨_, hwrote.of_keeps (hst.trans (htu _)), htracks⟩

namespace Station

variable {h : Host} {options : Options} {p : Code.Program} {k : Station h options p} {address : Bytes → Word}
  {before : Heap} {entry s t u : State} {c c' : Point} {l l' : Ledger} {x : Instr} {code rest : List Line}
  {covered : Bool}

/-- A state at a point of a function that can be used shows a ledger there. -/
structure Kept (k : Station h options p) (address : Bytes → Word) (before : Heap) (entry : State) (c : Point)
    (l : Ledger) (u : State) : Prop where
  fits : k.site.frame.Fits
  point : Boundary options k.site k.opened c
  pc : u.pc = k.line c
  shows : Shows k.site address before entry c.state l u

/-- A state is about to execute the code of an instruction between two points. -/
structure Front (k : Station h options p) (address : Bytes → Word) (before : Heap) (entry : State) (x : Instr)
    (c : Point) (l : Ledger) (c' : Point) (s : State) (code rest : List Line) (covered : Bool) : Prop where
  fits : k.site.frame.Fits
  instr : k.site.func.code[c.index]? = some x
  gen : genInstr k.site c.index x c.state = .ok ((code, covered), c'.state)
  index : c'.index = if covered then c.index + 2 else c.index + 1
  ready : Ready k.site p.arity (x :: k.site.func.code.drop (c.index + 1)) c.state
  strings : c.state.strings = StringTable.ofProgram p
  point : Boundary options k.site k.opened c'
  hasCode : h.HasCode s.pc (code ++ rest)
  inside : k.line c ≤ s.pc
  announced : ∀ pc, k.line c ≤ pc → pc < s.pc → ∃ l, h.lines[pc]? = some l ∧ l.isSilent = true
  pc : k.line c' = s.pc + code.length
  shows : Shows k.site address before entry c.state l s

/-- What announces an instruction has no effect. -/
theorem Kept.front (hp : p.WellFormed) (hkept : k.Kept address before entry c l u)
    (hx : k.site.func.code[c.index]? = some x) (hnext : Next options k.site c c') :
    ∃ lead code rest covered, k.Front address before entry x c l c' (u.advance lead) code rest covered ∧
      k.line c' = k.line c + lead + code.length ∧ h.run lead u = .ok (u.advance lead) := by
  obtain ⟨hx', hgen⟩ := hnext
  cases hx.symm.trans hx'
  rename_i code covered g
  obtain ⟨behind, hcut⟩ := hkept.point.cut hp k.placed
  obtain ⟨code', covered', g', rest, hgen', rfl, _, _⟩ := hcut.step (k.placed.legal hp) hx
  cases hgen.symm.trans hgen'
  have hready := hcut.ready
  rw [Code.drop_of_getElem? hx] at hready
  have hlines := k.placed.hasCode_behind hcut.lines
  rw [← Station.line, ← hkept.pc, List.append_assoc, List.append_assoc] at hlines
  refine ⟨(announcement options x).length, code, _, covered, ⟨hkept.fits, hx, hgen, rfl, hready, hcut.strings,
    hkept.point.next (.intro hx hgen), hlines.right, ?_, fun pc hlo hhi => ?_, ?_, hkept.shows.congr rfl rfl⟩, ?_,
    Host.run_of_silent hlines Layout.isSilent_announcement⟩
  · rw [State.advance_pc, hkept.pc]
    omega
  · rw [State.advance_pc, hkept.pc] at hhi
    have hi : pc - k.line c < (announcement options x).length := by omega
    have hline := hlines.left.getElem?_add hi
    rw [hkept.pc, Nat.add_sub_cancel' hlo, List.getElem?_eq_getElem hi] at hline
    exact ⟨_, hline, Layout.isSilent_announcement _ (List.getElem_mem hi)⟩
  · rw [State.advance_pc, hkept.pc]
    simp only [line, List.length_append]
    omega
  · simp only [line, List.length_append]
    omega

namespace Front

variable (hp : p.WellFormed) (fr : k.Front address before entry x c l c' s code rest covered)
include fr

theorem mem : x ∈ k.site.func.code :=
  List.mem_of_getElem? fr.instr

include hp in
theorem sound : k.site.Sound c.state.strings :=
  fr.strings ▸ k.placed.sound hp fr.fits

theorem places (hplaces : h.Places address (StringTable.ofProgram p)) : h.Places address c.state.strings :=
  fr.strings ▸ hplaces

include hp in
theorem meets : x.Meets :=
  (hp.valid _ k.placed.mem k.placed.internal).meets x fr.mem

/-- Nothing is pending at an instruction that neither hands over nor takes values. -/
theorem pending (hop : x.op.passesArgs = false) : c.state.pending = #[] :=
  Array.size_eq_zero_iff.mp ((Code.ArgsFit.of_op hop).mp fr.ready.args).1

/-- Going on behind the instruction. -/
theorem advance (hpc : t.pc = s.pc + code.length) (hshows : Shows k.site address before entry c'.state l' t) :
    k.Kept address before entry c' l' t :=
  ⟨fr.fits, fr.point, by rw [hpc, fr.pc], hshows⟩

variable {xs : List Insn} {d : Operand}

/-- An instruction that gives a place a value. -/
theorem writes {trap : Prop} (hcode : code = xs.map .insn)
    (hop : x.op.passesArgs = false) (hkeeps : c.state.Keeps c'.state)
    (hensures : h.Ensures trap xs s fun t => ∃ v, Wrote h k.site d v s t ∧ Tracks k.site address c'.state.cache t)
    (hrun : h.run code.length s = .ok t) : k.Kept address before entry c' l t := by
  subst hcode
  rw [List.length_map] at hrun
  obtain ⟨⟨v, hwrote, htracks⟩, hpc⟩ := hensures.of_run fr.hasCode hrun
  exact fr.advance (by rw [hpc, List.length_map]) (fr.shows.put fr.fits hwrote htracks hkeeps (fr.pending hop))

include hp in
/-- An instruction that gives a place a computed value. -/
theorem computes {value : Heap → Store → Option Word} {v : Word}
    (hcode : code = xs.map .insn) (hop : x.op.passesArgs = false) (hd : x.dst = some d)
    (hcomputes : Computes h k.site address c.state c'.state xs d value)
    (hvalue : value l.heap (k.site.frame.contents s) = some v) (hrun : h.run code.length s = .ok t) :
    k.Kept address before entry c' l t ∧ k.site.frame.contents t d = v := by
  have hensures := hcomputes.ensures s l.heap v fr.shows.tracks fr.shows.alive.held hvalue
  refine ⟨fr.writes hcode hop hcomputes.keeps (hensures.mono fun t ht => ⟨v, ht⟩) hrun, ?_⟩
  subst hcode
  rw [List.length_map] at hrun
  have hmem : some d ∈ k.site.func.operands := hd ▸ Instr.dst_mem fr.mem
  rw [(hensures.of_run fr.hasCode hrun).1.1.contents (fr.sound hp).apart fr.fits hmem hmem, Store.put_same]

/-- The values handed over are those of the operands that are pending. -/
theorem handed : ∃ os : List Operand, c.state.pending.toList = os.map some ∧
    (∀ o ∈ os, some o ∈ k.site.func.operands) ∧ l.args = os.map ((k.site.frame.contents s).word address) := by
  obtain ⟨os, hos, hargs⟩ := fr.shows.args
  refine ⟨os, hos, fun o ho => (fr.ready.readable (some o) ?_).1, hargs⟩
  rw [← Array.mem_toList_iff, hos]
  exact List.mem_map_of_mem ho

variable (hrun : h.run code.length s = .ok t)
include hrun

theorem nop (hop : x.op = .nop) : k.Kept address before entry c' l t := by
  have hgen := fr.gen
  simp only [genInstr, hop, GenM.pure_eq_ok_iff, Prod.mk.injEq] at hgen
  obtain ⟨⟨rfl, _⟩, hg⟩ := hgen
  cases hrun
  exact fr.advance rfl (hg ▸ fr.shows)

include hp in
theorem arg (hop : x.op = .arg)
    (hledger : l.after? address x (k.site.frame.contents s) (k.site.frame.contents t) = some l') :
    k.Kept address before entry c' l' t := by
  obtain ⟨o, ho⟩ : ∃ o, x.src1 = some o := by
    cases hsrc : x.src1 with
    | none => cases (fr.meets hp).parts hop rfl hsrc rfl
    | some o => exact ⟨o, rfl⟩
  have hgen := fr.gen
  simp only [genInstr, hop, genArg, GenM.bind_eq_ok_iff, GenM.get_eq_ok_iff] at hgen
  obtain ⟨_, _, ⟨_, _, ⟨rfl, rfl⟩, hpush⟩, hgen⟩ := hgen
  split at hpush
  · cases hpush
    obtain ⟨hcode, hg⟩ := GenM.pure_eq_ok_iff.mp hgen
    obtain ⟨rfl, _⟩ := Prod.mk.inj hcode
    cases hrun
    simp only [Ledger.after?, hop, ho, Option.some.injEq] at hledger
    subst hledger
    obtain ⟨os, hos, hargs⟩ := fr.shows.args
    refine fr.advance rfl (hg ▸ ⟨fr.shows.alive, fr.shows.tracks, ⟨os ++ [o], ?_, ?_⟩, fr.shows.built,
      fr.shows.nodup⟩)
    · simp [hos, ho]
    · rw [List.map_append, hargs]
      rfl
  · exact (GenM.fail_ne_ok _ hpush).elim

include hp in
theorem label (hop : x.op = .label) : k.Kept address before entry c' l t := by
  obtain ⟨name, hname⟩ := (fr.meets hp).parts hop rfl rfl rfl
  obtain ⟨rfl, _, hg⟩ := genInstr_label (Instr.label?_eq_some_iff.mpr ⟨hop, hname⟩) fr.gen
  cases Host.run_of_isSilent fr.hasCode.getElem? rfl hrun
  have hsame := fr.shows.congr (t := s.next) rfl rfl
  exact fr.advance rfl (hg ▸ ⟨hsame.alive, .empty .., hsame.args, hsame.built, hsame.nodup⟩)

section Values

variable (hplaces : h.Places address (StringTable.ofProgram p))
include hp hplaces

theorem binary {op : Code.BinaryOp} (hop : x.op = .binary op) : k.Kept address before entry c' l t := by
  obtain ⟨d, a, b, xs, hd, _, _, hcode, _, hcomputes, htrap⟩ :=
    genInstr_binary fr.gen fr.mem (fr.sound hp) (fr.places hplaces) hop
  cases hvalue : op.eval ((k.site.frame.contents s).word address a) ((k.site.frame.contents s).word address b) with
  | some v => exact (fr.computes hp hcode (by rw [hop]; rfl) hd hcomputes hvalue hrun).1
  | none =>
    subst hcode
    rw [List.length_map] at hrun
    exact ((htrap s fr.shows.tracks hvalue).of_run fr.hasCode hrun).1.elim

theorem compare {op : Code.CompareOp} (hop : x.op = .compare op) : k.Kept address before entry c' l t := by
  obtain ⟨d, a, b, xs, hd, _, _, hcode, _, hcomputes⟩ :=
    genInstr_compare fr.gen fr.mem (fr.sound hp) (fr.places hplaces) hop
  exact (fr.computes hp hcode (by rw [hop]; rfl) hd hcomputes rfl hrun).1

theorem move (hop : x.op = .move ∨ x.op = .load ∨ x.op = .store) : k.Kept address before entry c' l t := by
  obtain ⟨d, o, xs, hd, _, hcode, _, hcomputes⟩ :=
    genInstr_move fr.gen fr.mem (fr.sound hp) (fr.places hplaces) hop
  refine (fr.computes hp hcode ?_ hd hcomputes rfl hrun).1
  rcases hop with hop | hop | hop <;> rw [hop] <;> rfl

theorem setIndex (hop : x.op = .setIndex)
    (hledger : l.after? address x (k.site.frame.contents s) (k.site.frame.contents t) = some l') :
    k.Kept address before entry c' l' t := by
  obtain ⟨a, b, o, xs, ha, hb, ho, rfl, _, hkeeps, hensures⟩ :=
    genInstr_setIndex fr.gen fr.mem (fr.sound hp) (fr.places hplaces) hop
  simp only [Ledger.after?, hop, ha, hb, ho, Option.map_eq_some_iff] at hledger
  obtain ⟨heap, hset, rfl⟩ := hledger
  rw [List.length_map] at hrun
  obtain ⟨⟨u, hkept, htracks, hregs, hmem⟩, hpc⟩ := (hensures s fr.shows.tracks).of_run fr.hasCode hrun
  have hnone := fr.pending (by rw [hop]; rfl)
  have halive := fr.shows.alive.of_keeps hkept
  have hcontents := halive.contents_set fr.fits hset hregs hmem
  refine fr.advance (by rw [hpc, List.length_map]) ⟨halive.set hset hregs hmem,
    htracks.congr (fun r => by rw [hregs]) hcontents,
      ⟨[], by simp [hkeeps.pending, hnone], fr.shows.args_nil hnone⟩,
    fun b hb => ?_, fr.shows.nodup⟩
  obtain ⟨ws, hws⟩ := fr.shows.built b hb
  obtain ⟨ws', hws', _⟩ := (Heap.SameShape.of_set? hset).symm.exists_some hws
  exact ⟨ws', hws'⟩

omit hrun

/-- The value of an operation on one operand, where it has one. -/
theorem unary {op : Code.UnaryOp} (hop : x.op = .unary op) (hrun : h.run code.length s = .ok t) :
    k.Kept address before entry c' l t ∧ ∃ d o, x.dst = some d ∧ x.src1 = some o ∧
      ∀ v, op.eval l.heap ((k.site.frame.contents s).word address o) = some v → k.site.frame.contents t d = v := by
  obtain ⟨d, o, xs, hd, ho, hcode, _, hcomputes⟩ :=
    genInstr_unary fr.gen fr.mem (fr.sound hp) (fr.places hplaces) hop
  have hvalue := fun v hv => fr.computes hp hcode (by rw [hop]; rfl) hd hcomputes (v := v) hv hrun
  refine ⟨?_, d, o, hd, ho, fun v hv => (hvalue v hv).2⟩
  cases heval : op.eval l.heap ((k.site.frame.contents s).word address o) with
  | some v => exact (hvalue v heval).1
  | none =>
    have hlen : op = .len := by
      cases op with
      | len => rfl
      | _ => cases heval
    subst hlen
    obtain ⟨_, xs, hcode, hensures⟩ := genInstr_len hop fr.gen fr.mem (fr.sound hp) (fr.places hplaces)
    exact fr.writes hcode (by rw [hop]; rfl) hcomputes.keeps (hensures s fr.shows.tracks) hrun

/-- An element of an array is what the ledger says. -/
theorem element (hop : x.op = .index)
    (hledger : l.after? address x (k.site.frame.contents s) (k.site.frame.contents t) = some l')
    (hrun : h.run code.length s = .ok t) :
    k.Kept address before entry c' l' t ∧ ∃ d a b, x.dst = some d ∧ x.src1 = some a ∧ x.src2 = some b ∧
      l.heap.get? ((k.site.frame.contents s).word address a) ((k.site.frame.contents s).word address b) =
        some (k.site.frame.contents t d) := by
  obtain ⟨d, a, b, xs, hd, ha, hb, hcode, _, hcomputes⟩ :=
    genInstr_index fr.gen fr.mem (fr.sound hp) (fr.places hplaces) hop
  simp only [Ledger.after?, hop, ha, hb, Option.map_eq_some_iff] at hledger
  obtain ⟨v, hv, rfl⟩ := hledger
  obtain ⟨hkept, hvalue⟩ := fr.computes hp hcode (by rw [hop]; rfl) hd hcomputes hv hrun
  exact ⟨hkept, d, a, b, hd, ha, hb, hvalue ▸ hv⟩

/-- A new array is made of the values handed over, as many as the instruction says, at an address
    where there was none. -/
theorem array (hop : x.op = .array)
    (hledger : l.after? address x (k.site.frame.contents s) (k.site.frame.contents t) = some l')
    (hrun : h.run code.length s = .ok t) :
    k.Kept address before entry c' l' t ∧ ∃ d, x.dst = some d ∧ Operand.isLength x.src1 l.args.length = true ∧
      l.heap (k.site.frame.contents t d) = none ∧ l'.heap (k.site.frame.contents t d) = some l.args := by
  obtain ⟨os, hos, hmem, hargs⟩ := fr.handed
  have hgen := fr.gen
  simp only [genInstr, hop, GenM.bind_eq_ok_iff, GenM.pure_eq_ok_iff, Prod.mk.injEq] at hgen
  obtain ⟨xs, g, hgen, ⟨rfl, _⟩, hg⟩ := hgen
  rw [hg] at hgen
  obtain ⟨d, hd, hpending, _, hensures⟩ := genArray_ensures (h := h) hgen hos fr.mem (fr.sound hp)
    (fr.places hplaces) hmem
  have harrays : k.site.frame.hasArrays = true := by
    rw [Frame.hasArrays_ofFunc k.placed.frame, List.any_eq_true]
    exact ⟨x, fr.mem, by simp [hop]⟩
  have halive := fr.shows.alive
  rw [List.length_map] at hrun
  obtain ⟨⟨u, hbuilt, hwrote, htracks⟩, hpc⟩ :=
    (hensures s fr.shows.tracks halive.settled halive.framed.rbp_le).of_run fr.hasCode hrun
  have hdst : some d ∈ k.site.func.operands := hd ▸ Instr.dst_mem fr.mem
  have haddress : k.site.frame.contents t d = u.regs .rsp := by
    rw [hwrote.contents (fr.sound hp).apart fr.fits hdst hdst, Store.put_same]
  simp only [Ledger.after?, hop, hd, haddress, Option.some.injEq] at hledger
  subst hledger
  obtain ⟨hfresh, halive⟩ := halive.build hbuilt harrays
  rw [← hargs] at halive
  have hfit := fr.ready.args
  simp only [Code.ArgsFit, hop] at hfit
  have hcount : l.args.length = c.state.pending.size := by
    rw [hargs, List.length_map, ← Array.length_toList, hos, List.length_map]
  refine ⟨fr.advance (by rw [hpc, List.length_map]) ⟨halive.wrote fr.fits hwrote, htracks,
    ⟨[], by simp [hpending], rfl⟩, fun b hb => ?_, List.nodup_cons.mpr ⟨fun hin => ?_, fr.shows.nodup⟩⟩,
    d, hd, hcount ▸ hfit.1, haddress ▸ hfresh, by simp [Heap.build, haddress]⟩
  · by_cases heq : b = u.regs .rsp
    · exact ⟨l.args, by simp [Heap.build, heq]⟩
    · obtain ⟨ws, hws⟩ := fr.shows.built b ((List.mem_cons.mp hb).resolve_left heq)
      exact ⟨ws, by simp [Heap.build, heq, hws]⟩
  · obtain ⟨ws, hws⟩ := fr.shows.built _ hin
    rw [hfresh] at hws
    cases hws

/-- A conditional jump compares its operand with zero. -/
theorem tests (hop : x.op = .jumpIfFalse) : ∃ name o ys, x.target? = some name ∧ x.src1 = some o ∧
    code = (ys ++ [Insn.jumpIfZero name]).map .insn ∧ c.state.Keeps c'.state ∧
      h.Ensures False ys s fun t => s.Keeps t ∧ Tracks k.site address c'.state.cache t ∧
        t.flags = some (.ofDifference ((k.site.frame.contents s).word address o) 0) := by
  obtain ⟨name, hname⟩ : ∃ name, x.dst = some (.label name) := ((fr.meets hp).parts hop rfl rfl rfl).1
  have hgen := fr.gen
  simp only [genInstr, hop, hname, GenM.bind_eq_ok_iff, GenM.pure_eq_ok_iff, Prod.mk.injEq] at hgen
  obtain ⟨test, g, hload, ⟨hcode, _⟩, hg⟩ := hgen
  rw [hg] at hload
  obtain ⟨o, ho, hkeeps, hload⟩ := load_ensures (h := h) hload (fr.sound hp) (fr.places hplaces)
    (Instr.src1_mem fr.mem)
  refine ⟨name, o, test ++ [.compareZero .rax], by simp [Instr.target?, hop, hname], ho,
    by simp [← hcode], hkeeps, ?_⟩
  refine Host.Ensures.append ((hload s False fr.shows.tracks).mono ?_)
  rintro t ⟨ht, htracks⟩
  rw [Host.ensures_compareZero, Host.ensures_nil]
  have hst : s.Keeps t := ht ▸ .setAdvance ..
  refine ⟨hst.trans ⟨rfl, rfl, rfl⟩, htracks.congr (fun _ => rfl) (Frame.contents_congr rfl rfl), ?_⟩
  rw [ht]
  simp

variable {name : String}

/-- A jump that is taken goes from the last line of its code to the mark of its label. -/
theorem goes (hjumps : Jumps address (k.site.frame.contents s) x) (hname : x.target? = some name)
    (hrun : h.run (code.length + 1) s = .ok t) :
    ∃ u, s.Keeps u ∧ u.pc + 1 = s.pc + code.length ∧ s.pc ≤ u.pc ∧
      ∀ pc, h.mark? u.pc name = some pc → h.run 1 { u with pc } = .ok t := by
  rcases hjumps with hop | ⟨hop, hzero⟩
  · have hgen := fr.gen
    have hdst : x.dst = some (.label name) := by
      unfold Instr.target? at hname
      split at hname <;> simp_all
    simp only [genInstr, hop, hdst, GenM.pure_eq_ok_iff, Prod.mk.injEq] at hgen
    obtain ⟨⟨rfl, _⟩, _⟩ := hgen
    obtain ⟨w, hexec, hend⟩ := Host.exec_of_run fr.hasCode hrun
    refine ⟨s, .refl s, rfl, Nat.le_refl _, fun pc hpc => ?_⟩
    simp only [Host.exec, State.goto, hpc, Except.ok.injEq] at hexec
    rwa [hexec]
  · obtain ⟨name', o, ys, hname', ho, rfl, hkeeps, hensures⟩ := fr.tests hp hplaces hop
    cases hname.symm.trans hname'
    obtain ⟨u, ⟨hst, _, hflags⟩, hpc, hjump, hlast⟩ := hensures.of_run_append fr.hasCode hrun
    obtain ⟨w, hexec, hend⟩ := Host.exec_of_run hjump hlast
    rw [ho, Option.map_some, Option.some.injEq] at hzero
    refine ⟨u, hst, ?_, by omega, fun pc hmark => ?_⟩
    · rw [hpc, List.length_map, List.length_append, List.length_singleton, Nat.add_assoc]
    · have hflag : (Flags.ofDifference ((k.site.frame.contents s).word address o) 0).zero = true := by
        simp [Flags.ofDifference, hzero]
      simp only [Host.exec, hflags, hflag, if_true, State.goto, hmark, Except.ok.injEq] at hexec
      rwa [hflags, hexec]

/-- A jump that is taken leads behind its label. -/
theorem jumps {y : Instr} {b d : Point} (hjumps : Jumps address (k.site.frame.contents s) x)
    (hname : x.target? = some name) (hb : Boundary options k.site k.opened b)
    (hy : k.site.func.code[b.index]? = some y) (hlabel : y.label? = some name) (hbehind : Next options k.site b d)
    (hrun : h.run (code.length + 1) s = .ok t) : k.Kept address before entry d l t := by
  obtain ⟨u, hsu, hupc, hle, hend⟩ := fr.goes hp hplaces hjumps hname hrun
  obtain ⟨d', hbehind', _, hcache, hmark⟩ := hb.label hp k.placed hy hlabel
  cases hbehind.unique hbehind'
  -- The jump stands inside the function, so it finds the mark.
  have hbefore := fr.point.before_le hp k.placed
  have hinside := fr.inside
  have hline := fr.pc
  simp only [line] at hinside hline
  obtain ⟨pc, hpc, hpoint⟩ := hmark (u.pc - Placed.bodyLine k.start k.site.frame k.params) (by omega)
  rw [Nat.add_sub_cancel' (by omega)] at hpc
  cases Host.run_of_isSilent (s := { u with pc }) (Host.getElem?_of_mark? hpc) rfl (hend pc hpc)
  have hst : s.Keeps ({ u with pc } : State).next := ⟨hsu.mem, hsu.rsp, hsu.rbp⟩
  have hnone := fr.pending (by rcases hjumps with hop | ⟨hop, _⟩ <;> rw [hop] <;> rfl)
  obtain ⟨behind, hcut⟩ := hb.cut hp k.placed
  have hready := hcut.ready
  rw [Code.drop_of_getElem? hy] at hready
  have hop := (Instr.label?_eq_some_iff.mp hlabel).1
  have hpending : d.state.pending = #[] := by
    obtain ⟨hy', hgen⟩ := hbehind
    cases hy.symm.trans hy'
    obtain ⟨_, _, rfl⟩ := genInstr_label hlabel hgen
    exact Array.size_eq_zero_iff.mp ((Code.ArgsFit.of_op (by rw [hop]; rfl)).mp hready.args).1
  exact ⟨fr.fits, hb.next hbehind, hpoint, fr.shows.alive.of_keeps hst, hcache ▸ .empty ..,
    ⟨[], by simp [hpending], fr.shows.args_nil hnone⟩, fr.shows.built, fr.shows.nodup⟩

include hrun

/-- A conditional jump that is not taken. -/
theorem falls (hop : x.op = .jumpIfFalse) (hstays : ¬ Jumps address (k.site.frame.contents s) x) :
    k.Kept address before entry c' l t := by
  obtain ⟨name, o, ys, _, ho, rfl, hkeeps, hensures⟩ := fr.tests hp hplaces hop
  obtain ⟨u, ⟨hst, htracks, hflags⟩, hpc, hjump, hlast⟩ := hensures.of_run_append (n := 0) fr.hasCode hrun
  obtain ⟨w, hexec, hend⟩ := Host.exec_of_run hjump hlast
  cases hend
  have hne : (k.site.frame.contents s).word address o ≠ 0 := fun hzero =>
      hstays (.inr ⟨hop, by rw [ho, Option.map_some, hzero]⟩)
  have hzero : (Flags.ofDifference ((k.site.frame.contents s).word address o) 0).zero = false := by
    simpa [Flags.ofDifference] using hne
  simp only [Host.exec, hflags, hzero, Bool.false_eq_true, if_false, Except.ok.injEq] at hexec
  subst hexec
  have hnone := fr.pending (by rw [hop]; rfl)
  have hsu : s.Keeps u.next := hst.trans (.next u)
  refine fr.advance ?_ ⟨fr.shows.alive.of_keeps hsu, htracks.congr (fun _ => rfl) (State.Keeps.next u).contents,
    ⟨[], by simp [hkeeps.pending, hnone], fr.shows.args_nil hnone⟩, fr.shows.built, fr.shows.nodup⟩
  rw [State.next_pc, hpc, List.length_map, List.length_append, List.length_singleton, Nat.add_assoc]

/-- An instruction that hands control on to the next one keeps the ledger. -/
theorem stays (hop : x.op ≠ .call ∧ x.op ≠ .ret ∧ x.op ≠ .exit)
    (hstays : ¬ Jumps address (k.site.frame.contents s) x)
    (hledger : l.after? address x (k.site.frame.contents s) (k.site.frame.contents t) = some l') :
    k.Kept address before entry c' l' t := by
  obtain ⟨hcall, hret, hexit⟩ := hop
  have hsame := fun hop => Ledger.eq_of_after? hop hledger
  cases hkind : x.op with
  | index => exact (fr.element hp hplaces hkind hledger hrun).1
  | setIndex => exact fr.setIndex hp hrun hplaces hkind hledger
  | array => exact (fr.array hp hplaces hkind hledger hrun).1
  | arg => exact fr.arg hp hrun hkind hledger
  | call => contradiction
  | ret => contradiction
  | exit => contradiction
  | jump => exact absurd (.inl hkind) hstays
  | unknown n =>
    have hgen := fr.gen
    simp only [genInstr, hkind] at hgen
    exact (GenM.fail_ne_ok _ hgen).elim
  | nop =>
    rw [hsame (by simp [hkind])]
    exact fr.nop hrun hkind
  | binary op =>
    rw [hsame (by simp [hkind])]
    exact fr.binary hp hrun hplaces hkind
  | compare op =>
    rw [hsame (by simp [hkind])]
    exact fr.compare hp hrun hplaces hkind
  | unary op =>
    rw [hsame (by simp [hkind])]
    exact (fr.unary hp hplaces hkind hrun).1
  | label =>
    rw [hsame (by simp [hkind])]
    exact fr.label hp hrun hkind
  | jumpIfFalse =>
    rw [hsame (by simp [hkind])]
    exact fr.falls hp hrun hplaces hkind hstays
  | move | load | store =>
    rw [hsame (by simp [hkind])]
    exact fr.move hp hrun hplaces (by simp [hkind])

end Values

end Front

/-- The state before the code of an instruction, behind what announces it. -/
theorem Kept.execute (hp : p.WellFormed) (hkept : k.Kept address before entry c l u)
    (hx : k.site.func.code[c.index]? = some x) (hnext : Next options k.site c c') {n : Nat}
    (hrun : h.run (k.line c' - k.line c + n) u = .ok t) : ∃ s code rest covered,
      k.Front address before entry x c l c' s code rest covered ∧ u.Keeps s ∧
        h.run (code.length + n) s = .ok t := by
  obtain ⟨lead, code, rest, covered, fr, hline, hlead⟩ := hkept.front hp hx hnext
  rw [show k.line c' - k.line c + n = lead + (code.length + n) by omega] at hrun
  obtain ⟨s, hfirst, hrest⟩ := Host.exists_of_run_add hrun
  cases hlead.symm.trans hfirst
  exact ⟨_, code, rest, covered, fr, ⟨rfl, rfl, rfl⟩, hrest⟩

/-- Executing an instruction keeps the ledger. -/
theorem Kept.executes (hp : p.WellFormed) (hplaces : h.Places address (StringTable.ofProgram p))
    (hkept : k.Kept address before entry c l u) (hexecutes : k.Executes address x c l u c' l' t) :
    k.Kept address before entry c' l' t := by
  obtain ⟨hx, hop, hledger, hgoes⟩ := hexecutes
  cases hgoes with
  | straight hstays hnext hrun =>
    obtain ⟨s, code, rest, covered, fr, hus, hrest⟩ := hkept.execute (n := 0) hp hx hnext hrun
    rw [← hus.contents] at hstays hledger
    exact fr.stays hp hrest hplaces hop hstays hledger
  | jump hjumps hname hnext hb hy hlabel hbehind hrun =>
    obtain ⟨s, code, rest, covered, fr, hus, hrest⟩ := hkept.execute hp hx hnext hrun
    rw [← hus.contents] at hjumps
    have hsame : l' = l := Ledger.eq_of_after? (by rcases hjumps with hop | ⟨hop, _⟩ <;> simp [hop]) hledger
    exact hsame ▸ fr.jumps hp hplaces hjumps hname hb hy hlabel hbehind hrest

/-- An instruction that does not jump hands control on to the next one. -/
theorem Executes.front (hp : p.WellFormed) (hkept : k.Kept address before entry c l u)
    (hexecutes : k.Executes address x c l u c' l' t) (hop : x.op ≠ .jump ∧ x.op ≠ .jumpIfFalse) :
    ∃ s code rest covered, k.Front address before entry x c l c' s code rest covered ∧ u.Keeps s ∧
      h.run code.length s = .ok t := by
  cases hexecutes.goes with
  | straight _ hnext hrun => exact hkept.execute (n := 0) hp hexecutes.instr hnext hrun
  | jump hjumps => rcases hjumps with hjump | ⟨hjump, _⟩ <;> simp [hjump] at hop

end Station

end TreeCompiler.Asm
