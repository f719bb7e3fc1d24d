import TreeCompiler.Proofs.Asm.Agreement
import TreeCompiler.Proofs.Asm.Boundaries
import TreeCompiler.Proofs.Asm.Image

/-!
A function that runs in two texts, one of which reuses what registers hold where the other may not.
Between two instructions both machines are in the same state, and what the generator knows of the
registers is true of it.
-/

namespace TreeCompiler.Asm

open Code

/-- The arguments are taken in alike in both texts. -/
theorem Placed.params_agree {σ : Twin} {h h' : Host} {options options' : Options} {p : Code.Program}
    {start start' : Nat} {params params' : List Insn} {opened opened' : GenState} {body body' : List Line}
    (hplaced : Placed h options p σ.site start params opened body)
    (hplaced' : Placed h' options' p σ.site start' params' opened' body') (hp : p.WellFormed)
    (htable : σ.strings = StringTable.ofProgram p) (hreuse : options'.reuse = σ.reuse) :
    opened' = { opened with reuse := σ.reuse } ∧ params' = params ∧
      σ.Agrees σ.site.Calm σ.site.Calm .empty params params' opened.cache := by
  have hbind := hplaced.bind
  have hbind' := hplaced'.bind
  rw [hreuse] at hbind'
  rw [← htable] at hbind hbind'
  refine (Twin.bindParams_pairs (fun o ho => List.mem_append_left _ ho)
    (hp.shaped _ hplaced.mem hplaced.internal).params (fun o ho r => ?_) rfl _ _ _ _ hbind hbind').2
  obtain ⟨q, hq, rfl⟩ := List.mem_map.mp ho
  obtain ⟨name, hname⟩ := (hp.valid _ hplaced.mem hplaced.internal).params q hq
  simp [hname]

/-- A function of a program that stands in two texts like each other. -/
structure Tandem extends Twin where
  options : Options
  options' : Options
  program : Code.Program
  start : Nat
  start' : Nat
  params : List Insn
  opened : GenState
  body : List Line
  body' : List Line
  wellFormed : program.WellFormed
  table : strings = StringTable.ofProgram program
  reuses : options'.reuse = reuse
  placed : Placed host options program site start params opened body
  placed' : Placed host' options' program site start' params { opened with reuse } body'

namespace Tandem

variable (τ : Tandem)

/-- Where the lines of the instructions start in the first text. -/
abbrev base : Nat := Placed.bodyLine τ.start τ.site.frame τ.params

/-- Where the lines of the instructions start in the second text. -/
abbrev base' : Nat := Placed.bodyLine τ.start' τ.site.frame τ.params

/-- Walks in the first text. -/
abbrev Walk (n : Nat) (s t : State) : Prop := τ.host.Walk τ.site.frame τ.answers n s t

/-- Walks in the second text. -/
abbrev Walk' (n : Nat) (s t : State) : Prop := τ.host'.Walk τ.site.frame τ.answers n s t

/-- Points of the two texts before the same instruction, with the same knowledge. -/
structure Abreast (a a' : Point) : Prop where
  boundary : Boundary τ.options τ.site τ.opened a
  boundary' : Boundary τ.options' τ.site { τ.opened with reuse := τ.reuse } a'
  index : a'.index = a.index
  state : a'.state = { a.state with reuse := τ.reuse }

/-- The lines of an instruction in both texts. -/
structure Stride (a a' : Point) (x : Instr) (b b' : Point) (xs : List Insn) (e : Ending) (ys : List Insn) :
    Prop where
  next : Next τ.options τ.site a b
  next' : Next τ.options' τ.site a' b'
  abreast : τ.Abreast b b'
  before : b.before = a.before ++ (announcement τ.options x ++ xs.map .insn ++ e.lines)
  before' : b'.before = a'.before ++ (announcement τ.options' x ++ ys.map .insn ++ e.lines)
  suits : e.Suits x
  agrees : τ.Agrees τ.site.Calm τ.site.Calm a.state.cache xs ys b.state.cache

variable {τ} {a a' b b' c : Point} {x : Instr} {xs ys : List Insn} {e : Ending} {s u v : State} {m n : Nat}

theorem abreast_zero : τ.Abreast ⟨0, τ.opened, []⟩ ⟨0, { τ.opened with reuse := τ.reuse }, []⟩ :=
  ⟨.refl, .refl, rfl, rfl⟩

theorem Abreast.exists_stride (habreast : τ.Abreast a a') (hx : τ.site.func.code[a.index]? = some x) :
    ∃ b b' xs e ys, τ.Stride a a' x b b' xs e ys := by
  obtain ⟨behind, hcut⟩ := habreast.boundary.cut τ.wellFormed τ.placed
  obtain ⟨b, hnext⟩ := habreast.boundary.exists_next τ.wellFormed τ.placed hx
  obtain ⟨b', hnext'⟩ := habreast.boundary'.exists_next τ.wellFormed τ.placed' (habreast.index ▸ hx)
  have hb := habreast.boundary.next hnext
  have hb' := habreast.boundary'.next hnext'
  refine ⟨b, b', ?_⟩
  obtain ⟨hx₁, hgen⟩ := id hnext
  obtain ⟨hx₂, hgen'⟩ := id hnext'
  cases hx.symm.trans hx₁
  cases hx₁.symm.trans (habreast.index ▸ hx₂)
  rw [habreast.index, habreast.state] at hgen'
  have hpending : ∀ o ∈ a.state.pending.toList, o ∈ τ.site.func.operands :=
    fun o ho => (hcut.ready.readable o (by simpa using ho)).1
  have hmem := List.mem_of_getElem? hx
  have hpairs := Twin.genInstr_pairs (i := a.index) hmem ((τ.placed.legal τ.wellFormed).meets x hmem) hpending
  obtain ⟨_, hstate, hcovered, xs, e, ys, hsplits⟩ := hpairs (hcut.strings.trans τ.table.symm) _ _ _ _ hgen hgen'
  dsimp only at hcovered hsplits
  subst hcovered
  refine ⟨xs, e, ys, hnext, hnext', ⟨hb, hb', ?_, hstate⟩, ?_, ?_, hsplits.suits, hsplits.agrees⟩
  · simp only [habreast.index]
  · simp only [hsplits.lines, List.append_assoc]
  · simp only [hsplits.lines', List.append_assoc]

/-- Every point of the first text has one beside it in the second. -/
theorem exists_abreast (ha : Boundary τ.options τ.site τ.opened a) : ∃ a', τ.Abreast a a' := by
  induction ha with
  | refl => exact ⟨_, abreast_zero⟩
  | tail _ hnext ih =>
    obtain ⟨b', hb⟩ := ih
    obtain ⟨x, hx⟩ := hnext.exists_instr
    obtain ⟨d, d', _, _, _, hstride⟩ := hb.exists_stride hx
    cases hstride.next.unique hnext
    exact ⟨d', hstride.abreast⟩

theorem isStraight_lines (options : Options) (x : Instr) {zs : List Insn} (hzs : ∀ z ∈ zs, z.isStraight = true) :
    ∀ l ∈ announcement options x ++ zs.map .insn, l.isStraight = true := by
  intro l hl
  rcases List.mem_append.mp hl with hl | hl
  · unfold announcement at hl
    split at hl
    · rw [List.mem_singleton.mp hl]
      rfl
    · cases hl
  · obtain ⟨z, hz, rfl⟩ := List.mem_map.mp hl
    exact hzs z hz

theorem isSilent_announcement (options : Options) (x : Instr) :
    ∀ l ∈ announcement options x, l.isSilent = true := by
  intro l hl
  unfold announcement at hl
  split at hl
  · rw [List.mem_singleton.mp hl]
    rfl
  · cases hl

namespace Stride

variable (hstride : τ.Stride a a' x b b' xs e ys)
include hstride

theorem hasCode :
    ∃ rest, τ.host.HasCode (τ.base + a.before.length)
    (announcement τ.options x ++ xs.map .insn ++ (e.lines ++ rest)) := by
  obtain ⟨rest, hcut⟩ := hstride.abreast.boundary.cut τ.wellFormed τ.placed
  have hbody := hcut.lines
  rw [hstride.before, List.append_assoc] at hbody
  exact ⟨rest ++ .mark "exit" :: epilogue, by simpa using τ.placed.hasCode_behind hbody⟩

theorem hasCode' :
    ∃ rest, τ.host'.HasCode (τ.base' + a'.before.length)
    (announcement τ.options' x ++ ys.map .insn ++ (e.lines ++ rest)) := by
  obtain ⟨rest, hcut⟩ := hstride.abreast.boundary'.cut τ.wellFormed τ.placed'
  have hbody := hcut.lines
  rw [hstride.before', List.append_assoc] at hbody
  exact ⟨rest ++ .mark "exit" :: epilogue, by simpa using τ.placed'.hasCode_behind hbody⟩

/-- What the lines before the ending do in the first text, they do in the second. -/
theorem does (hs : τ.Holds τ.site.Calm a.state.cache s)
    (hdoes : τ.host.Does τ.site.frame τ.answers (announcement τ.options x ++ xs.map .insn) s v) :
    τ.Holds τ.site.Calm b.state.cache v ∧ ∃ k, τ.Walk' k (s.moved (τ.base' + a'.before.length))
      (v.moved (τ.base' + a'.before.length + (announcement τ.options' x ++ ys.map Line.insn).length)) := by
  obtain ⟨u, hquiet, hxs⟩ := Host.does_append.mp hdoes
  rw [Host.does_silent (isSilent_announcement _ x)] at hquiet
  have hu : τ.Holds τ.site.Calm a.state.cache u := by
    rw [hquiet]
    exact ⟨hs.1.congr rfl (fun _ => rfl) rfl, hs.2⟩
  obtain ⟨hys, hv⟩ := hstride.agrees.does u v
    (τ.base' + a'.before.length + (announcement τ.options' x).length) hu hxs
  refine ⟨hv, (announcement τ.options' x ++ ys.map Line.insn).length, ?_⟩
  obtain ⟨rest, hcode⟩ := hstride.hasCode'
  refine Host.Does.walk ?_ hcode
  rw [Host.does_append]
  refine ⟨u.moved (τ.base' + a'.before.length + (announcement τ.options' x).length), ?_, ?_⟩
  · rw [Host.does_silent (isSilent_announcement _ x), hquiet]
    rfl
  · rw [List.length_append, List.length_map, ← Nat.add_assoc]
    exact hys

end Stride

/-- No point at the line of this one comes before it. -/
def First (τ : Tandem) (d : Point) : Prop :=
  ∀ c, Boundary τ.options τ.site τ.opened c → c.before.length = d.before.length →
    Relation.ReflTransGen (Next τ.options τ.site) d c

/-- Where control goes when an instruction is over: to a point, back to the entry, or to the exit.
    -/
inductive Lands (τ : Tandem) (s : State) : Nat → Prop where
  | point {d d' : Point} (habreast : τ.Abreast d d') (hfirst : τ.First d) (hpc : s.pc = τ.base + d.before.length)
      (hholds : τ.Holds τ.site.Calm d.state.cache s) : Lands τ s (τ.base' + d'.before.length)
  | entry (hpc : s.pc = Placed.entryLine τ.start τ.site.frame + 1)
      (hcalm : τ.site.Calm (s.regs .rsp) (s.regs .rbp)) : Lands τ s (Placed.entryLine τ.start' τ.site.frame + 1)
  | exit (hpc : s.pc = τ.base + τ.body.length + 1) : Lands τ s (τ.base' + τ.body'.length + 1)

/-- A jump leads to places that belong together. -/
theorem lands_of_jump {name : String} {pos pos' pc : Nat}
    (hname : name = "entry" ∨ name = "exit" ∨ name ∈ Code.labels τ.site.func.code)
    (hpos : pos ≤ τ.body.length) (hpos' : pos' ≤ τ.body'.length)
    (hmark : τ.host.mark? (τ.base + pos) name = some pc)
    (hcalm : τ.site.Calm (s.regs .rsp) (s.regs .rbp)) :
    ∃ pc', τ.host'.mark? (τ.base' + pos') name = some pc' ∧ τ.Lands (s.moved (pc + 1)) (pc' + 1) := by
  rcases hname with rfl | rfl | hname
  · obtain ⟨hlo, hhi⟩ := Placed.range τ.start τ.site.frame τ.params hpos
    obtain ⟨hlo', hhi'⟩ := Placed.range τ.start' τ.site.frame τ.params hpos'
    cases hmark.symm.trans (τ.placed.mark?_entry hlo hhi)
    exact ⟨_, τ.placed'.mark?_entry hlo' hhi', .entry rfl hcalm⟩
  · cases hmark.symm.trans (τ.placed.mark?_exit τ.wellFormed hpos)
    exact ⟨_, τ.placed'.mark?_exit τ.wellFormed hpos', .exit rfl⟩
  · obtain ⟨i, x, hx, hlabel⟩ := Code.exists_getElem?_of_mem_labels hname
    have hi : i < τ.site.func.code.length := (List.getElem?_eq_some_iff.mp hx).1
    rcases Boundary.exists_at τ.wellFormed τ.placed (Nat.le_of_lt hi) with ⟨a, ha, rfl⟩ | ⟨y, hy, hret, _⟩
    · obtain ⟨a', habreast⟩ := exists_abreast ha
      obtain ⟨b, b', _, _, _, hstride⟩ := habreast.exists_stride hx
      obtain ⟨d, hd, hgrows, hempty, hfound⟩ := ha.label τ.wellFormed τ.placed hx hlabel
      cases hd.unique hstride.next
      obtain ⟨d', hd', _, _, hfound'⟩ :=
        habreast.boundary'.label τ.wellFormed τ.placed' (habreast.index ▸ hx) hlabel
      cases hd'.unique hstride.next'
      obtain ⟨_, hpc, hline⟩ := hfound pos hpos
      cases hmark.symm.trans hpc
      obtain ⟨pc', hpc', hline'⟩ := hfound' pos' hpos'
      refine ⟨pc', hpc', ?_⟩
      rw [hline']
      refine .point hstride.abreast (fun c hc => ha.first_of_next hd hgrows hc) hline ⟨?_, hcalm⟩
      rw [hempty]
      exact .empty ..
    · cases hx.symm.trans hy
      rw [(Instr.label?_eq_some_iff.mp hlabel).1] at hret
      cases hret

section Jumps

variable {name : String} {pos pos' : Nat}

/-- A jump is taken alike in both texts. -/
theorem moves_jump (hname : name = "entry" ∨ name = "exit" ∨ name ∈ Code.labels τ.site.func.code)
    (hpos : pos ≤ τ.body.length) (hpos' : pos' ≤ τ.body'.length) (hpc : s.pc = τ.base + pos)
    (hline : τ.host.lines[s.pc]? = some (.insn (.jump name)))
    (hline' : τ.host'.lines[τ.base' + pos']? = some (.insn (.jump name)))
    (hcalm : τ.site.Calm (s.regs .rsp) (s.regs .rbp)) (hmoves : τ.host.Moves τ.site.frame τ.answers s u) :
    ∃ pc', τ.host'.Moves τ.site.frame τ.answers (s.moved (τ.base' + pos')) (u.moved pc') ∧ τ.Lands u pc' := by
  cases hmoves with
  | passes hother hpasses =>
    cases hline.symm.trans hother
    cases hpasses.isStraight
  | jump hother hmark =>
    cases hline.symm.trans hother
    rw [hpc] at hmark
    obtain ⟨pc', hmark', hlands⟩ := lands_of_jump hname hpos hpos' hmark hcalm
    exact ⟨pc' + 1, .jump hline' hmark', hlands⟩
  | taken hother _ _ _ => cases hline.symm.trans hother
  | passed hother _ _ => cases hline.symm.trans hother

/-- A conditional jump is taken in both texts or passed in both. -/
theorem moves_branch (hname : name ∈ Code.labels τ.site.func.code)
    (hpos : pos ≤ τ.body.length) (hpos' : pos' ≤ τ.body'.length) (hpc : s.pc = τ.base + pos)
    (hline : τ.host.lines[s.pc]? = some (.insn (.jumpIfZero name)))
    (hline' : τ.host'.lines[τ.base' + pos']? = some (.insn (.jumpIfZero name)))
    (hcalm : τ.site.Calm (s.regs .rsp) (s.regs .rbp)) (hmoves : τ.host.Moves τ.site.frame τ.answers s u) :
    ∃ pc', τ.host'.Moves τ.site.frame τ.answers (s.moved (τ.base' + pos')) (u.moved pc') ∧
      (τ.Lands u pc' ∨ u = s.next ∧ pc' = τ.base' + pos' + 1) := by
  cases hmoves with
  | passes hother hpasses =>
    cases hline.symm.trans hother
    cases hpasses.isStraight
  | jump hother _ => cases hline.symm.trans hother
  | taken hother hflags hzero hmark =>
    cases hline.symm.trans hother
    rw [hpc] at hmark
    obtain ⟨pc', hmark', hlands⟩ := lands_of_jump (.inr (.inr hname)) hpos hpos' hmark hcalm
    exact ⟨pc' + 1, .taken hline' hflags hzero hmark', .inl hlands⟩
  | passed hother hflags hzero =>
    cases hline.symm.trans hother
    exact ⟨_, .passed hline' hflags hzero, .inr ⟨rfl, rfl⟩⟩

end Jumps

/-- Over the line of an ending control lands alike in both texts. -/
theorem Stride.lands {pos pos' : Nat} {rest rest' : List Line} (hstride : τ.Stride a a' x b b' xs e ys)
    (habreast : τ.Abreast a a') (hx : τ.site.func.code[a.index]? = some x) (he : e.lines.length = 1)
    (hpos : b.before.length = pos + e.lines.length) (hpos' : b'.before.length = pos' + e.lines.length)
    (hgrows : a.before.length < b.before.length) (hpc : v.pc = τ.base + pos)
    (hline : τ.host.HasCode v.pc (e.lines ++ rest)) (hline' : τ.host'.HasCode (τ.base' + pos') (e.lines ++ rest'))
    (hv : τ.Holds τ.site.Calm b.state.cache v) (hmoves : τ.host.Moves τ.site.frame τ.answers v u) :
    ∃ pc', τ.host'.Moves τ.site.frame τ.answers (v.moved (τ.base' + pos')) (u.moved pc') ∧ τ.Lands u pc' := by
  have hinside := hstride.abreast.boundary.before_le τ.wellFormed τ.placed
  have hinside' := hstride.abreast.boundary'.before_le τ.wellFormed τ.placed'
  have htarget : ∀ name, x.target? = some name → name ∈ Code.labels τ.site.func.code :=
    (τ.wellFormed.valid _ τ.placed.mem τ.placed.internal).targets x (List.mem_of_getElem? hx)
  rw [he] at hpos hpos'
  have hnext : τ.Lands v.next (τ.base' + pos' + 1) := by
    rw [Nat.add_assoc, ← hpos']
    refine .point hstride.abreast (fun c hc => habreast.boundary.first_of_next hstride.next hgrows hc) ?_
      ⟨hv.1.congr rfl (fun _ => rfl) rfl, hv.2⟩
    rw [State.next_pc, hpc, hpos, Nat.add_assoc]
  cases e with
  | through => cases he
  | mark name =>
    have hpasses := hmoves.passes_of_isStraight hline.getElem? rfl
    obtain rfl : u = v.next := hpasses.2
    exact ⟨_, .passes hline'.getElem? (hpasses.moved τ.like _), hnext⟩
  | jump name =>
    exact moves_jump (hstride.suits.imp id (Or.imp id (htarget name))) (by omega) (by omega) hpc hline.getElem?
      hline'.getElem? hv.2 hmoves
  | branch name =>
    obtain ⟨pc', hmoves', hlands | ⟨rfl, rfl⟩⟩ :=
        moves_branch (htarget name hstride.suits) (by omega) (by omega) hpc
      hline.getElem? hline'.getElem? hv.2 hmoves
    · exact ⟨pc', hmoves', hlands⟩
    · exact ⟨_, hmoves', hnext⟩

/-- A walk from a point ends inside the lines of the instruction, or the instruction has no lines in
    the first text, or it is over and control lands somewhere. -/
theorem Stride.pass (hstride : τ.Stride a a' x b b' xs e ys) (habreast : τ.Abreast a a')
    (hx : τ.site.func.code[a.index]? = some x) (hpc : s.pc = τ.base + a.before.length)
    (hs : τ.Holds τ.site.Calm a.state.cache s) (hwalk : τ.Walk n s u) :
    (u.pc = s.pc + n ∧ a.before.length + n < b.before.length) ∨
      (b.before.length = a.before.length ∧ τ.Holds τ.site.Calm b.state.cache s ∧
        ∃ k, τ.Walk' k (s.moved (τ.base' + a'.before.length)) (s.moved (τ.base' + b'.before.length))) ∨
      ∃ m v pc' k, m < n ∧ τ.Walk m v u ∧ τ.Walk' k (s.moved (τ.base' + a'.before.length)) (v.moved pc') ∧
        τ.Lands v pc' := by
  obtain ⟨rest, hcode⟩ := hstride.hasCode
  obtain ⟨rest', hcode'⟩ := hstride.hasCode'
  have hlength : b.before.length =
      a.before.length + (announcement τ.options x ++ xs.map Line.insn).length + e.lines.length := by
    rw [hstride.before, List.length_append, List.length_append, Nat.add_assoc]
  have hlength' : b'.before.length =
      a'.before.length + (announcement τ.options' x ++ ys.map Line.insn).length + e.lines.length := by
    rw [hstride.before', List.length_append, List.length_append, Nat.add_assoc]
  rw [← hpc] at hcode
  rcases Host.Walk.through hwalk hcode (isStraight_lines _ x hstride.agrees.straight) with
    ⟨hn, hu⟩ | ⟨m, v, rfl, hdoes, hwalk⟩
  · exact .inl ⟨hu, by omega⟩
  · obtain ⟨hv, k, hwalk'⟩ := hstride.does hs hdoes
    have hvpc := hdoes.pc
    have hend := hcode.right
    have hend' := hcode'.right
    rw [← hvpc] at hend
    rw [hpc, Nat.add_assoc] at hvpc
    rw [Nat.add_assoc] at hwalk' hend'
    rcases e.lines_length with rfl | he
    · rw [Ending.lines, List.length_nil, Nat.add_zero] at hlength hlength'
      rw [← hlength'] at hwalk'
      rw [← hlength] at hvpc
      by_cases hnone : (announcement τ.options x ++ xs.map Line.insn).length = 0
      · rw [List.length_eq_zero_iff.mp hnone] at hdoes
        cases hdoes
        exact .inr (.inl ⟨by omega, hv, k, hwalk'⟩)
      · exact .inr (.inr ⟨m, v, _, k, by omega, hwalk, hwalk', .point hstride.abreast
          (fun c hc => habreast.boundary.first_of_next hstride.next (by omega) hc) hvpc hv⟩)
    · cases m with
      | zero =>
        cases hwalk
        exact .inl ⟨by rw [hvpc, hpc]; omega, by omega⟩
      | succ m =>
        obtain ⟨w, hmoves, hwalk⟩ := hwalk
        obtain ⟨pc', hmoves', hlands⟩ := hstride.lands habreast hx he hlength hlength' (by omega) hvpc hend hend' hv
          hmoves
        exact .inr (.inr ⟨m, w, pc', k + 1, by omega, hwalk, hwalk'.trans ⟨_, hmoves', rfl⟩, hlands⟩)

/-- Behind the entry both texts give up the arrays of an earlier round and take in the arguments. -/
theorem opening_agrees : τ.Agrees τ.site.Calm τ.site.Calm .empty (rewind τ.site.frame ++ τ.params)
    (rewind τ.site.frame ++ τ.params) τ.opened.cache := by
  obtain ⟨_, _, hparams⟩ := τ.placed.params_agree (σ := τ.toTwin) τ.placed' τ.wellFormed τ.table τ.reuses
  refine Twin.Agrees.trans (.fixed_ensures ?_ fun s hholds => ?_) hparams
  · unfold rewind
    split <;> simp [Insn.isPlain]
  · unfold rewind
    split
    · rw [Host.ensures_leaFrame]
      intro _
      rw [Host.ensures_nil]
      have hrbp : (s.set .rsp (s.regs .rbp - BitVec.ofNat 64 τ.site.frame.size)).next.regs .rbp = s.regs .rbp := by
        simp [State.set_regs_ne]
      have hle : ((s.set .rsp (s.regs .rbp - BitVec.ofNat 64 τ.site.frame.size)).next.regs .rbp).toNat ≤ 2 ^ 47 := by
        rw [hrbp]
        exact hholds.2.1
      refine ⟨hholds.1.congr hrbp (fun r => by simp [State.set_regs_ne]) (Frame.contents_congr rfl hrbp), hle,
        Site.Settled.of_rsp τ.sound.fits ?_ hle⟩
      rw [hrbp]
      simp
    · exact Host.ensures_nil.mpr hholds

/-- From the entry a walk comes to the first instruction, unless it ends before. -/
theorem enter (hpc : s.pc = Placed.entryLine τ.start τ.site.frame + 1)
    (hcalm : τ.site.Calm (s.regs .rsp) (s.regs .rbp)) (hwalk : τ.Walk n s u) :
    u.pc < τ.base ∨ ∃ m v k, m ≤ n ∧ τ.Walk m v u ∧ v.pc = τ.base ∧
      τ.Walk' k (s.moved (Placed.entryLine τ.start' τ.site.frame + 1)) (v.moved τ.base') ∧
        τ.Holds τ.site.Calm τ.opened.cache v := by
  have hcode := τ.placed.hasCode_entry.tail
  rw [← hpc] at hcode
  have hagrees := opening_agrees (τ := τ)
  have hstraight : ∀ l ∈ (rewind τ.site.frame ++ τ.params).map Line.insn, l.isStraight = true := by
    intro l hl
    obtain ⟨z, hz, rfl⟩ := List.mem_map.mp hl
    exact hagrees.straight z hz
  rcases Host.Walk.through hwalk hcode hstraight with ⟨hn, hu⟩ | ⟨m, v, rfl, hdoes, hwalk⟩
  · rw [List.length_map] at hn
    exact .inl (by unfold base Placed.bodyLine; omega)
  · obtain ⟨hdoes', hv⟩ := hagrees.does s v (Placed.entryLine τ.start' τ.site.frame + 1)
      ⟨.empty .., hcalm⟩ hdoes
    have hvpc := hdoes.pc
    rw [hpc, List.length_map] at hvpc
    exact .inr ⟨m, v, _, by omega, hwalk, hvpc, hdoes'.walk τ.placed'.hasCode_entry.tail, hv⟩

/-- Where the first text returns from the function. -/
abbrev back (τ : Tandem) : Nat := τ.base + τ.body.length + 3

/-- Where the second text returns from the function. -/
abbrev back' (τ : Tandem) : Nat := τ.base' + τ.body'.length + 3

/-- From the exit a walk comes to the return of the function, unless it ends before. -/
theorem leave (hpc : s.pc = τ.base + τ.body.length + 1) (hwalk : τ.Walk n s u) :
    (τ.base + τ.body.length < u.pc ∧ u.pc < τ.back) ∨
      u.pc = τ.back ∧ ∃ k, τ.Walk' k (s.moved (τ.base' + τ.body'.length + 1)) (u.moved τ.back') := by
  have hcode : τ.host.HasCode (τ.base + τ.body.length + 1)
      ([Insn.mov .rsp .rbp, .pop .rbp].map .insn ++ [.insn .ret]) :=
    (τ.placed.hasCode_behind (List.append_nil τ.body).symm).tail
  have hcode' : τ.host'.HasCode (τ.base' + τ.body'.length + 1)
      ([Insn.mov .rsp .rbp, .pop .rbp].map .insn ++ [.insn .ret]) :=
    (τ.placed'.hasCode_behind (List.append_nil τ.body').symm).tail
  rw [← hpc] at hcode
  rcases Host.Walk.through hwalk hcode (by simp [Line.isStraight, Insn.isStraight]) with
    ⟨hn, hu⟩ | ⟨m, v, rfl, hdoes, hwalk⟩
  · simp only [List.length_map, List.length_cons, List.length_nil] at hn
    exact .inl ⟨by omega, by unfold back; omega⟩
  · have hvpc := hdoes.pc
    cases m with
    | zero =>
      cases hwalk
      exact .inr ⟨by rw [hvpc, hpc]; rfl, 2, (hdoes.moved τ.like _).walk hcode'⟩
    | succ m =>
      obtain ⟨w, hmoves, _⟩ := hwalk
      refine absurd ?_ hmoves.ne_ret
      rw [hvpc]
      exact hcode.right.getElem?

/-- The line of a point, or the one at which the function returns. -/
def goalLine (τ : Tandem) : Option Point → Nat
  | some c => τ.base + c.before.length
  | none => τ.back

/-- The second text comes to the point beside the goal, or returns, in the same state as the first.
    -/
def Follows (τ : Tandem) (goal : Option Point) (s : State) (pc' : Nat) (u : State) : Prop :=
  match goal with
  | some c => τ.Holds τ.site.Calm c.state.cache u ∧ ∃ c' k, τ.Abreast c c' ∧
      τ.Walk' k (s.moved pc') (u.moved (τ.base' + c'.before.length))
  | none => ∃ k, τ.Walk' k (s.moved pc') (u.moved τ.back')

section Follows

variable {goal : Option Point} {pc' pc'' k : Nat}

theorem Follows.after (hfollows : τ.Follows goal v pc'' u) (hwalk' : τ.Walk' k (s.moved pc') (v.moved pc'')) :
    τ.Follows goal s pc' u := by
  cases goal with
  | some c =>
    obtain ⟨hholds, c', k', habreast, hrest⟩ := hfollows
    exact ⟨hholds, c', _, habreast, hwalk'.trans hrest⟩
  | none =>
    obtain ⟨k', hrest⟩ := hfollows
    exact ⟨_, hwalk'.trans hrest⟩

variable (hgoal : ∀ c, goal = some c → Boundary τ.options τ.site τ.opened c)
include hgoal

/-- Lines behind those of the instructions are no points. -/
theorem goalLine_of_behind (hu : u.pc = τ.goalLine goal) (hbehind : τ.base + τ.body.length < u.pc) :
    goal = none := by
  cases goal with
  | none => rfl
  | some c =>
    have hle := (hgoal c rfl).before_le τ.wellFormed τ.placed
    simp only [goalLine] at hu
    omega

theorem follows_exit (hpc : s.pc = τ.base + τ.body.length + 1) (hwalk : τ.Walk n s u)
    (hu : u.pc = τ.goalLine goal) :
    τ.Follows goal s (τ.base' + τ.body'.length + 1) u := by
  rcases leave hpc hwalk with ⟨hlo, hhi⟩ | ⟨hback, hwalk'⟩
  · obtain rfl := goalLine_of_behind hgoal hu hlo
    exact absurd hu (Nat.ne_of_lt hhi)
  · obtain rfl := goalLine_of_behind hgoal hu (by rw [hback]; unfold back; omega)
    exact hwalk'

/-- Behind its last instruction a function goes to its exit. -/
theorem follows_last (habreast : τ.Abreast a a') (hlast : τ.site.func.code[a.index]? = none)
    (hpc : s.pc = τ.base + a.before.length) (hwalk : τ.Walk (n + 1) s u) (hu : u.pc = τ.goalLine goal) :
    τ.Follows goal s (τ.base' + a'.before.length) u := by
  have hbody := habreast.boundary.before_of_last τ.wellFormed τ.placed hlast
  have hbody' := habreast.boundary'.before_of_last τ.wellFormed τ.placed' (habreast.index ▸ hlast)
  have hcode := τ.placed.hasCode_behind (List.append_nil τ.body).symm
  have hcode' := τ.placed'.hasCode_behind (List.append_nil τ.body').symm
  rw [hbody] at hpc
  rw [hbody']
  rw [← hpc] at hcode
  obtain ⟨v, hmoves, hwalk⟩ := hwalk
  have hpasses := hmoves.passes_of_isStraight hcode.getElem? rfl
  have hexit := follows_exit hgoal (by rw [hpasses.pc, hpc]) hwalk hu
  exact hexit.after (k := 1) ⟨_, .passes hcode'.getElem? (hpasses.moved τ.like _), rfl⟩

/-- Where a walk from a point in the first text comes to another point or to the return, the second
    text follows. -/
theorem follows (hu : u.pc = τ.goalLine goal) (n : Nat) :
    ∀ {a a' : Point} {s : State}, τ.Abreast a a' →
      s.pc = τ.base + a.before.length → τ.Holds τ.site.Calm a.state.cache s → τ.Walk n s u →
        (n = 0 → ∀ c, goal = some c → Relation.ReflTransGen (Next τ.options τ.site) a c) →
          τ.Follows goal s (τ.base' + a'.before.length) u := by
  induction n using Nat.strongRecOn with
  | ind n hless =>
    intro a a' s habreast hpc hs hwalk hahead
    induction hleft : τ.site.func.code.length - a.index using Nat.strongRecOn generalizing a a' with
    | ind left hindex =>
      by_cases hdone : n = 0 ∧ goal = some a
      · obtain ⟨rfl, rfl⟩ := hdone
        cases hwalk
        exact ⟨hs, a', 0, habreast, rfl⟩
      -- From here on the goal is at another line, or behind this point at the same line.
      have hbehind : ∀ {b}, Next τ.options τ.site a b → n = 0 → ∀ c, goal = some c →
          Relation.ReflTransGen (Next τ.options τ.site) b c := by
        intro b hnext hzero c hc
        cases Relation.ReflTransGen.cases_head (hahead hzero c hc) with
        | inl heq => exact absurd ⟨hzero, heq ▸ hc⟩ hdone
        | inr hstep =>
          obtain ⟨d, hd, hreaches⟩ := hstep
          cases hnext.unique hd
          exact hreaches
      cases hx : τ.site.func.code[a.index]? with
      | none =>
        cases n with
        | succ n => exact follows_last hgoal habreast hx hpc hwalk hu
        | zero =>
          cases hwalk
          cases goal with
          | none =>
            have hle := habreast.boundary.before_le τ.wellFormed τ.placed
            simp only [goalLine, back] at hu
            omega
          | some c =>
            cases Relation.ReflTransGen.cases_head (hahead rfl c rfl) with
            | inl heq => exact absurd ⟨rfl, congrArg some heq.symm⟩ hdone
            | inr hstep =>
              obtain ⟨d, hd, _⟩ := hstep
              obtain ⟨y, hy⟩ := hd.exists_instr
              cases hx.symm.trans hy
      | some x =>
        obtain ⟨b, b', xs, e, ys, hstride⟩ := habreast.exists_stride hx
        rcases hstride.pass habreast hx hpc hs hwalk with
          ⟨hpcu, hinside⟩ | ⟨hline, hb, k, hwalk'⟩ | ⟨m, v, pc', k, hm, hwalk, hwalk', hlands⟩
        · cases goal with
          | none =>
            have hle := hstride.abreast.boundary.before_le τ.wellFormed τ.placed
            simp only [goalLine, back] at hu
            omega
          | some c =>
            simp only [goalLine] at hu
            by_cases hzero : n = 0
            · have hle := (grows_of_reaches (hbehind hstride.next hzero c rfl)).1
              omega
            · have hle := habreast.boundary.not_inside hstride.next (hgoal c rfl) (by omega)
              omega
        · have hlt := hstride.next.index_lt
          have hsize := (List.getElem?_eq_some_iff.mp hx).1
          exact (hindex _ (by omega) hstride.abreast (by omega) hb (hbehind hstride.next) rfl).after hwalk'
        · cases hlands with
          | point hd hfirst hpcv hv =>
            refine (hless m hm hd hpcv hv hwalk fun hzero c hc => ?_).after hwalk'
            subst hzero
            cases hwalk
            subst hc
            refine hfirst c (hgoal c rfl) ?_
            simp only [goalLine] at hu
            omega
          | entry hpcv hcalm =>
            rcases enter hpcv hcalm hwalk with hearly | ⟨m', w, k', hm', hwalk, hpcw, hwalk'', hw⟩
            · cases goal <;> simp only [goalLine, back] at hu <;> omega
            · exact ((hless m' (by omega) abreast_zero (by simpa using hpcw) hw hwalk
                fun _ c hc => hgoal c hc).after hwalk'').after hwalk'
          | exit hpcv => exact (follows_exit hgoal hpcv hwalk hu).after hwalk'

end Follows

end Tandem

end TreeCompiler.Asm
