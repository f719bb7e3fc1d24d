import TreeCompiler.Proofs.Asm.Lockstep
import TreeCompiler.Proofs.Asm.Refinement

/-!
What the generator knows of the registers is true in every run of a function, so the text that takes
values from registers does what the text does that takes them from memory each time.
-/

namespace TreeCompiler.Asm

open Code

/-- The last line of a placed function, at which it returns. -/
def Placed.lastLine (start : Nat) (frame : Frame) (params : List Insn) (body : List Line) : Nat :=
  start + (innerLines frame params body).length

theorem Placed.lastLine_eq (start : Nat) (frame : Frame) (params : List Insn) (body : List Line) :
    lastLine start frame params body = bodyLine start frame params + body.length + 3 := by
  simp only [lastLine, bodyLine, entryLine, innerLines, epilogue, List.length_append, List.length_cons,
    List.length_map, List.length_nil]
  omega

namespace Host

variable (h : Host) (options : Options) (p : Code.Program) (f : Func) (answers : Answers)

/-- A run of a function from its symbol arrives at a point between two of its instructions. -/
def Arrives (s : State) (a : Point) (t : State) : Prop :=
  ∃ site start params opened body n, site.func = f ∧ Placed h options p site start params opened body ∧
    Boundary options site opened a ∧ s.pc = start ∧
      t.pc = Placed.bodyLine start site.frame params + a.before.length ∧ h.Walk site.frame answers n s t

/-- A run of a function from its symbol arrives at its return. -/
def Returns (s t : State) : Prop :=
  ∃ site start params opened body n, site.func = f ∧ Placed h options p site start params opened body ∧
    s.pc = start ∧ t.pc = Placed.lastLine start site.frame params body ∧ h.Walk site.frame answers n s t

/-- A run arrives before the instruction at an index, in a state that is looked at without its line. -/
def ArrivesAt (s : State) (i : Nat) (t : State) : Prop :=
  ∃ a pc, a.index = i ∧ h.Arrives options p f answers s a (t.moved pc)

/-- A run returns, in a state that is looked at without its line. -/
def ReturnsWith (s t : State) : Prop :=
  ∃ pc, h.Returns options p f answers s (t.moved pc)

/-- A register holds an operand at a point: what stands in the slot of a variable or a temporary, or
    what the code that loads a literal puts into the register. -/
def HoldsOperand (a : Point) (t : State) (r : Reg) (o : Operand) : Prop :=
  match o with
  | .const c => ∃ x g u, loadConst c r a.state = .ok ([x], g) ∧ h.exec t x = .ok u ∧
      u.regs (.tracked r) = t.regs (.tracked r)
  | o => ∃ frame offset, Frame.ofFunc f = .ok frame ∧ frame.offset? o = some offset ∧
      t.regs (.tracked r) = t.mem.read (t.slotAddress offset)

end Host

variable {h : Host} {options : Options} {p : Code.Program} {site : Site} {start : Nat} {params : List Insn}
  {opened : GenState} {body : List Line}

/-- Opening the frame of a function leaves the stack below its slots. -/
theorem prologue_calm (site : Site) (s : State) :
    h.Ensures False (prologue site.frame) s fun t => site.frame.Fits ∧ site.Calm (t.regs .rsp) (t.regs .rbp) := by
  refine prologue_reserves fun t hsize hnext hbound hrbp hrsp _ _ => ?_
  have hle : (t.regs .rbp).toNat ≤ 2 ^ 47 := by
    rw [hrbp]
    omega
  refine ⟨hsize, hle, Site.Settled.of_rsp hsize ?_ hle⟩
  rw [hrsp, hrbp]

section Placed

variable {h h' : Host} {options options' : Options} {p : Code.Program} {site : Site} {start start' : Nat}
  {params params' : List Insn} {opened opened' : GenState} {body body' : List Line} {answers : Answers}
  {s u : State} {n : Nat}

/-- The lines of a function up to its entry. -/
def entryLines (site : Site) : List Line :=
  .symbol site.func.name :: ((prologue site.frame).map .insn ++ [.mark "entry"])

theorem Placed.hasCode_entryLines (hplaced : Placed h options p site start params opened body) :
    h.HasCode start (entryLines site ++
      ((rewind site.frame ++ params).map .insn ++ (body ++ .mark "exit" :: epilogue))) := by
  simpa [entryLines, innerLines] using hplaced.code

theorem Placed.length_entryLines (start : Nat) (site : Site) :
    start + (entryLines site).length = entryLine start site.frame + 1 := by
  simp only [entryLines, entryLine, List.length_cons, List.length_append, List.length_map, List.length_nil]
  omega

/-- From the symbol a walk comes to the entry, unless it ends before. -/
theorem Placed.entered (hplaced : Placed h options p site start params opened body) (hpc : s.pc = start)
    (hwalk : h.Walk site.frame answers n s u) (hu : entryLine start site.frame < u.pc) :
    site.frame.Fits ∧ ∃ m v, h.Does site.frame answers (entryLines site) s v ∧
      site.Calm (v.regs .rsp) (v.regs .rbp) ∧ h.Walk site.frame answers m v u := by
  have hplain : ∀ x ∈ prologue site.frame, x.isPlain = true := by
    unfold prologue
    split <;> simp [Insn.isPlain]
  have hcode := hplaced.hasCode_entryLines
  rw [← hpc] at hcode
  have hstraight : ∀ l ∈ entryLines site, l.isStraight = true := by
    simp only [entryLines, List.mem_cons, List.mem_append, List.mem_map, List.not_mem_nil, or_false]
    rintro l (rfl | ⟨x, hx, rfl⟩ | rfl)
    · rfl
    · exact Insn.isStraight_of_isPlain (hplain x hx)
    · rfl
  rcases hwalk.through hcode hstraight with ⟨hn, hpcu⟩ | ⟨m, v, rfl, hdoes, hwalk⟩
  · have hlength := length_entryLines start site
    omega
  · obtain ⟨w, hsymbol, hrest⟩ := id hdoes
    obtain ⟨w', hopen, _, hmark, rfl⟩ := Host.does_append.mp hrest
    obtain ⟨hfits, hcalm⟩ := hopen.ensures hplain (prologue_calm site w)
    obtain ⟨_, rfl⟩ := hmark
    exact ⟨hfits, m, _, hdoes, hcalm, hwalk⟩

end Placed

/-- Where a walk from the symbol in the first text comes to a point or to the return, the second text
    follows. -/
theorem Tandem.follows_symbol {τ : Tandem} {goal : Option Point} {s u : State} {n : Nat}
    (hgoal : ∀ c, goal = some c → Boundary τ.options τ.site τ.opened c) (hu : u.pc = τ.goalLine goal)
    (hpc : s.pc = τ.start) (hwalk : τ.Walk n s u) : τ.Follows goal s τ.start' u := by
  have hbase : Placed.entryLine τ.start τ.site.frame < τ.base ∧ τ.base ≤ u.pc := by
    refine ⟨by unfold base Placed.bodyLine; omega, ?_⟩
    cases goal <;> simp only [goalLine, back] at hu <;> omega
  obtain ⟨_, m, v, hdoes, hcalm, hwalk⟩ := τ.placed.entered hpc hwalk (by omega)
  have hvpc := hdoes.pc
  rw [hpc, Placed.length_entryLines] at hvpc
  have hopen := (hdoes.moved τ.like τ.start').walk τ.placed'.hasCode_entryLines
  rw [Placed.length_entryLines] at hopen
  rcases Tandem.enter hvpc hcalm hwalk with hearly | ⟨k, w, k', _, hwalk, hpcw, hwalk', hw⟩
  · omega
  · have hfollows := follows hgoal hu k abreast_zero (by simpa using hpcw) hw hwalk fun _ c hc => hgoal c hc
    exact (hfollows.after hwalk').after hopen

theorem Placed.site_eq {site' : Site}

    (hplaced : Placed h options p site start params opened body) (hfunc : site'.func = site.func)
    (hframe : Frame.ofFunc site'.func = .ok site'.frame)
    (hlabels : collectLabels 0 [] site'.func.code = .ok site'.labels) : site' = site := by
  obtain ⟨func, frame, labels⟩ := site
  obtain ⟨func', frame', labels'⟩ := site'
  obtain rfl : func' = func := hfunc
  cases hplaced.frame.symm.trans hframe
  cases hplaced.labels.symm.trans hlabels
  rfl

/-- A walk from the symbol of a function that comes further than its entry is one of a tandem. -/
theorem exists_tandem {h' : Host} {options' : Options}
    (hp : p.WellFormed)
    (hplaced : Placed h options p site start params opened body) (htext' : genProgram options' p = .ok h'.lines)
    (hlike : h.Like h') (answers : Answers) (hfits : site.frame.Fits) :
    ∃ τ : Tandem, τ.host = h ∧ τ.host' = h' ∧ τ.options = options ∧ τ.options' = options' ∧
      τ.program = p ∧
      τ.site = site ∧ τ.start = start ∧ τ.params = params ∧ τ.opened = opened ∧ τ.body = body ∧
        τ.answers = answers := by
  obtain ⟨site', start', params', opened', body', hfunc, hplaced'⟩ :=
    exists_placed hp htext' hplaced.mem hplaced.internal
  obtain rfl := hplaced.site_eq hfunc hplaced'.frame hplaced'.labels
  let σ : Twin :=
    { host := h, host' := h', like := hlike, site := site', strings := StringTable.ofProgram p
      sound := ⟨hplaced.apart hp, hfits, (hplaced.legal hp).complete.strings⟩, answers
      reuse := options'.reuse }
  obtain ⟨rfl, rfl, _⟩ := hplaced.params_agree (σ := σ) hplaced' hp rfl rfl
  exact ⟨{ σ with
      options, options', program := p, start, start', params := params', opened, body, body'
      wellFormed := hp, table := rfl, reuses := rfl, placed := hplaced
      placed' := hplaced' }, rfl, rfl, rfl, rfl, rfl, rfl, rfl, rfl, rfl, rfl, rfl⟩

/-- What is known of a register to be true is what could be put there. -/
theorem Knows.holdsOperand {a : Point} {t : State} {r : Reg} {o : Operand}
    (hknows : Knows h site a.state.strings a.state.cache t) (hframe : Frame.ofFunc site.func = .ok site.frame)
    (hget : a.state.cache.get r = some o) : h.HoldsOperand site.func a t r o := by
  have hholds := hknows.tracks.holds r o hget
  have hfetches := hknows.fetches r o hget
  have hslot : (∀ c, o ≠ .const c) → (site.frame.contents t).word (h.place a.state.strings) o =
      site.frame.contents t o → ∃ frame offset, Frame.ofFunc site.func = .ok frame ∧
        frame.offset? o = some offset ∧ t.regs (.tracked r) = t.mem.read (t.slotAddress offset) := by
    intro ho hword
    rcases hfetches.kind with ⟨c, rfl⟩ | ⟨offset, hoffset⟩
    · exact absurd rfl (ho c)
    · refine ⟨_, offset, hframe, hoffset, ?_⟩
      rw [hholds, hword, Frame.contents_of_offset? hoffset]
  cases o with
  | const c =>
    -- The literal is put into the register once more, which changes nothing.
    have hput : ∀ v : Word, v = c.word (h.place a.state.strings) →
        (t.set (.tracked r) v).next.regs (.tracked r) = t.regs (.tracked r) := by
      rintro _ rfl
      rw [State.next_regs, State.set_regs_same]
      exact hholds.symm
    cases c with
    | int v => exact ⟨_, _, _, rfl, rfl, hput _ (by simp [Code.Const.word])⟩
    | bool b => exact ⟨_, _, _, rfl, rfl, hput _ (by cases b <;> rfl)⟩
    | str text => exact ⟨_, _, _, rfl, rfl, hput _ rfl⟩
    | void => exact ⟨_, _, _, rfl, rfl, hput _ rfl⟩
    | unknown kind => exact absurd rfl (hfetches.literal kind)
  | temp t => exact hslot (by simp) rfl
  | var name => exact hslot (by simp) rfl
  | label name => exact hslot (by simp) rfl
  | func name => exact hslot (by simp) rfl

section Following

variable {h h' : Host} {options options' : Options} {p : Code.Program} {f : Func} {answers : Answers} {s t : State}
  {a : Point} {start start' i : Nat}

/-- Where a run arrives at a point, what is known there is true, and in another text the function
    arrives before the same instruction in the same state. -/
theorem Host.Arrives.follows (harrives : h.Arrives options p f answers s a t) (hp : p.WellFormed)
    (htext' : genProgram options' p = .ok h'.lines) (hlike : h.Like h') (hstart' : h'.symbol? f.name = some start') :
    (∀ r o, a.state.cache.get r = some o → h.HoldsOperand f a t r o) ∧
      ∃ a' pc, a'.index = a.index ∧ h'.Arrives options' p f answers (s.moved start') a' (t.moved pc) := by
  obtain ⟨site, start, params, opened, body, n, rfl, hplaced, ha, hpc, hgoal, hwalk⟩ := harrives
  have hlate : Placed.entryLine start site.frame < t.pc := by
    rw [hgoal, Placed.bodyLine]
    omega
  obtain ⟨hfits, _⟩ := hplaced.entered hpc hwalk hlate
  obtain ⟨τ, rfl, rfl, rfl, rfl, rfl, rfl, rfl, rfl, rfl, rfl, rfl⟩ :=
    exists_tandem hp hplaced htext' hlike answers hfits
  have hfollows : τ.Follows (some a) s τ.start' t :=
    Tandem.follows_symbol (fun c hc => Option.some.inj hc ▸ ha) hgoal hpc hwalk
  obtain ⟨⟨hknows, _⟩, a', k, habreast, hwalk'⟩ := hfollows
  obtain ⟨behind, hcut⟩ := ha.cut hp hplaced
  rw [τ.table, ← hcut.strings] at hknows
  cases τ.placed'.symbol.symm.trans hstart'
  refine ⟨fun r o hget => hknows.holdsOperand hplaced.frame hget, a', τ.base' + a'.before.length,
    habreast.index, ?_⟩
  exact ⟨τ.site, _, _, _, _, k, rfl, τ.placed', habreast.boundary', rfl, rfl, hwalk'⟩

/-- Where a run returns, the function returns in another text in the same state. -/
theorem Host.Returns.follows (hreturns : h.Returns options p f answers s t) (hp : p.WellFormed)
    (htext' : genProgram options' p = .ok h'.lines) (hlike : h.Like h') (hstart' : h'.symbol? f.name = some start') :
    ∃ pc, h'.Returns options' p f answers (s.moved start') (t.moved pc) := by
  obtain ⟨site, start, params, opened, body, n, rfl, hplaced, hpc, hgoal, hwalk⟩ := hreturns
  have hlate : Placed.entryLine start site.frame < t.pc := by
    rw [hgoal, Placed.lastLine_eq, Placed.bodyLine]
    omega
  obtain ⟨hfits, _⟩ := hplaced.entered hpc hwalk hlate
  obtain ⟨τ, rfl, rfl, rfl, rfl, rfl, rfl, rfl, rfl, rfl, rfl, rfl⟩ :=
    exists_tandem hp hplaced htext' hlike answers hfits
  rw [Placed.lastLine_eq] at hgoal
  have hfollows : τ.Follows none s τ.start' t := Tandem.follows_symbol (by simp) hgoal hpc hwalk
  obtain ⟨k, hwalk'⟩ := hfollows
  cases τ.placed'.symbol.symm.trans hstart'
  refine ⟨τ.back', τ.site, _, _, _, _, k, rfl, τ.placed', rfl, ?_, hwalk'⟩
  rw [Placed.lastLine_eq]
  rfl

theorem Host.ArrivesAt.follows (harrives : h.ArrivesAt options p f answers s i t) (hp : p.WellFormed)
    (htext' : genProgram options' p = .ok h'.lines) (hlike : h.Like h') (hstart' : h'.symbol? f.name = some start') :
    h'.ArrivesAt options' p f answers (s.moved start') i t := by
  obtain ⟨a, pc, rfl, harrives⟩ := harrives
  obtain ⟨_, a', pc', hindex, harrives'⟩ := harrives.follows hp htext' hlike hstart'
  exact ⟨a', pc', hindex, harrives'⟩

theorem Host.ReturnsWith.follows (hreturns : h.ReturnsWith options p f answers s t) (hp : p.WellFormed)
    (htext' : genProgram options' p = .ok h'.lines) (hlike : h.Like h') (hstart' : h'.symbol? f.name = some start') :
    h'.ReturnsWith options' p f answers (s.moved start') t := by
  obtain ⟨pc, hreturns⟩ := hreturns
  exact hreturns.follows hp htext' hlike hstart'

end Following

namespace Host

variable (h : Host)

/-- The move of a function, if it is neither a call nor a store to an element of an array. -/
def move? (s : State) : Option State :=
  match h.lines[s.pc]? with
  | some (.insn (.jump name)) => (h.mark? s.pc name).map fun pc => s.moved (pc + 1)
  | some (.insn (.jumpIfZero name)) =>
    match s.flags, h.mark? s.pc name with
    | some f, some pc => some (if f.zero then s.moved (pc + 1) else s.next)
    | _, _ => none
  | some (.insn (.store (.element ..) _)) => none
  | some (.insn x) => if x.isPlain then (h.exec s x).toOption else none
  | some l => if l.isSilent then some s.next else none
  | none => none

/-- A number of such moves. -/
def walk? : Nat → State → Option State
  | 0, s => some s
  | n + 1, s => (h.move? s).bind (walk? n)

variable {h} {s t : State} (fr : Frame) (answers : Answers)

theorem moves_of_move? (hmove : h.move? s = some t) : h.Moves fr answers s t := by
  unfold move? at hmove
  split at hmove
  · next name hline =>
    obtain ⟨pc, hmark, rfl⟩ := Option.map_eq_some_iff.mp hmove
    exact .jump hline hmark
  · next name hline =>
    split at hmove
    · next f pc hflags hmark =>
      obtain rfl := Option.some.inj hmove
      split
      · next hzero => exact .taken hline hflags hzero hmark
      · next hzero => exact .passed hline hflags (Bool.eq_false_iff.mpr hzero)
    · cases hmove
  · cases hmove
  · next x _ _ helement hline =>
    split at hmove
    · next hplain =>
      refine .passes hline (acts_of_exec hplain ?_ (eq_ok_of_toOption hmove))
      rintro base position src rfl
      exact helement base position src rfl
    · cases hmove
  · next l _ _ _ hinsn hline =>
    split at hmove
    · next hsilent =>
      obtain rfl := Option.some.inj hmove
      refine .passes hline ?_
      cases l with
      | insn x => exact absurd rfl (hinsn x)
      | _ => exact ⟨hsilent, rfl⟩
    · cases hmove
  · cases hmove

theorem walk_of_walk? {n : Nat} (hwalk : h.walk? n s = some t) : h.Walk fr answers n s t := by
  induction n generalizing s with
  | zero => exact (Option.some.inj hwalk).symm
  | succ n ih =>
    obtain ⟨u, hmove, hrest⟩ := Option.bind_eq_some_iff.mp hwalk
    exact ⟨u, moves_of_move? fr answers hmove, ih hrest⟩

end Host

/-- What a function knows of its registers is true wherever it runs, and using it changes nothing.
    -/
theorem known_true_and_reuse_unseen {prog : Tree.Program} {p : Code.Program} (hbuild : buildCode prog = .ok p)
    {options : Options} {h h' : Host} (htext : genProgram { options with reuse := true } p = .ok h.lines)
    (htext' : genProgram { options with reuse := false } p = .ok h'.lines) (hlike : h.Like h') {f : Func}
    {s : State} {start' : Nat} (hsymbol : h.symbol? f.name = some s.pc) (hsymbol' : h'.symbol? f.name = some start')
    (answers : Answers) :
    (∀ a t, h.Arrives { options with reuse := true } p f answers s a t →
      ∀ r o, a.state.cache.get r = some o → h.HoldsOperand f a t r o) ∧
    (∀ i t, h.ArrivesAt { options with reuse := true } p f answers s i t ↔
      h'.ArrivesAt { options with reuse := false } p f answers (s.moved start') i t) ∧
    ∀ t, h.ReturnsWith { options with reuse := true } p f answers s t ↔
      h'.ReturnsWith { options with reuse := false } p f answers (s.moved start') t := by
  have hp := buildCode_wellFormed hbuild
  refine ⟨fun a t harrives => (harrives.follows hp htext' hlike hsymbol').1,
    fun i t => ⟨fun harrives => ?_, fun harrives => ?_⟩, fun t => ⟨fun hreturns => ?_, fun hreturns => ?_⟩⟩
  · exact harrives.follows hp htext' hlike hsymbol'
  · exact harrives.follows hp htext hlike.symm hsymbol
  · exact hreturns.follows hp htext' hlike hsymbol'
  · exact hreturns.follows hp htext hlike.symm hsymbol

/-- The frame and the labels of a function, the instructions that take in its arguments, what is known
    behind them, and the lines of its instructions. -/
def outline? (options : Options) (p : Code.Program) (f : Func) :
    Option (Site × List Insn × GenState × List Line) := do
  let frame ← (Frame.ofFunc f).toOption
  let labels ← (collectLabels 0 [] f.code).toOption
  let site : Site := ⟨f, frame, labels⟩
  let (params, opened) ← (bindParams site 0 (f.params.map (·.operand)) Reg.args
    { strings := StringTable.ofProgram p, reuse := options.reuse }).toOption
  let (body, _) ← (genCode options site 0 false f.code opened).toOption
  return (site, params, opened, body)

theorem Placed.outline?_eq_some

    (hplaced : Placed h options p site start params opened body) :
    outline? options p site.func = some (site, params, opened, body) := by
  obtain ⟨last, hgen⟩ := hplaced.gen
  simp only [Asm.outline?, hplaced.frame, hplaced.labels, hplaced.bind, hgen, Except.toOption, Option.bind_eq_bind,
    Option.bind_some, Option.pure_def]

theorem Host.like_flat {lines lines' : List Line} (hlines : lines.length < 2 ^ 50)
    (hlines' : lines'.length < 2 ^ 50) : (flat lines hlines).Like (flat lines' hlines') :=
  ⟨rfl, rfl⟩

/-- The text of the sum that fetches every value again. -/
def sumLinesFetched : List Line :=
  (genProgram { reuse := false } sumCode).toOption.getD []

theorem length_sumLinesFetched : sumLinesFetched.length < 2 ^ 50 := by
  decide +kernel

/-- In the second round of the sum of two, the register that brought the number still holds it, and
    the sum comes out of both texts. -/
theorem reuse_unseen_in_sum : ∃ f a t u, sumCode.func? "sum" = some f ∧
    (Host.flat sumLines length_sumLines).Arrives {} sumCode f (fun _ _ _ => False) (.calling 5 [2, 0]) a t ∧
      a.state.cache.get .rdi = some (.var "n") ∧ t.regs (.tracked .rdi) = 1 ∧
        (Host.flat sumLines length_sumLines).HoldsOperand f a t .rdi (.var "n") ∧
    u.regs (.tracked .rax) = 3 ∧
      (Host.flat sumLinesFetched length_sumLinesFetched).ReturnsWith { reuse := false } sumCode f
        (fun _ _ _ => False) (.calling 5 [2, 0]) u := by
  have hbuild : buildCode sumTree = .ok sumCode := eq_ok_of_toOption (by decide +kernel)
  have htext : genProgram {} sumCode = .ok (Host.flat sumLines length_sumLines).lines :=
    eq_ok_of_toOption (by decide +kernel)
  have htext' : genProgram { reuse := false } sumCode =
      .ok (Host.flat sumLinesFetched length_sumLinesFetched).lines := eq_ok_of_toOption (by decide +kernel)
  have hsymbol : (Host.flat sumLines length_sumLines).symbol? "sum" = some 5 := by decide +kernel
  have hsymbol' : (Host.flat sumLinesFetched length_sumLinesFetched).symbol? "sum" = some 5 := by decide +kernel
  have hinternal : ∀ g ∈ sumCode.funcs, g.isExternal = false := by decide +kernel
  have houtline : ((sumCode.func? "sum").bind (outline? {} sumCode)).map (fun (site, params, opened, body) =>
      (Placed.bodyLine 5 site.frame params, Placed.lastLine 5 site.frame params body, opened.cache.get .rdi)) =
        some (12, 49, some (.var "n")) := by decide +kernel
  have hround : ((Host.flat sumLines length_sumLines).walk? 32 (.calling 5 [2, 0])).map
      (fun t => (t.pc, t.regs (.tracked .rdi))) = some (12, 1) := by decide +kernel
  have hend : ((Host.flat sumLines length_sumLines).walk? 66 (.calling 5 [2, 0])).map
      (fun t => (t.pc, t.regs (.tracked .rax))) = some (49, 3) := by decide +kernel
  obtain ⟨t, hwalk, ht⟩ := Option.map_eq_some_iff.mp hround
  obtain ⟨u, hwalk', hu⟩ := Option.map_eq_some_iff.mp hend
  obtain ⟨htpc, hrdi⟩ := Prod.mk.inj ht
  obtain ⟨hupc, hrax⟩ := Prod.mk.inj hu
  obtain ⟨f, hfunc⟩ : ∃ f, sumCode.func? "sum" = some f := Option.isSome_iff_exists.mp (by decide +kernel)
  obtain ⟨hf, hname⟩ := Code.Program.mem_of_func? hfunc
  rw [← hname] at hsymbol hsymbol'
  obtain ⟨site, start, params, opened, body, rfl, hplaced⟩ :=
    exists_placed (buildCode_wellFormed hbuild) htext hf (hinternal f hf)
  obtain rfl : start = 5 := Option.some.inj (hplaced.symbol.symm.trans hsymbol)
  rw [hfunc, Option.bind_some, hplaced.outline?_eq_some, Option.map_some, Option.some.injEq, Prod.mk.injEq,
    Prod.mk.injEq] at houtline
  obtain ⟨hbody, hlast, hknown⟩ := houtline
  have harrives : (Host.flat sumLines length_sumLines).Arrives {} sumCode site.func (fun _ _ _ => False)
      (.calling 5 [2, 0]) ⟨0, opened, []⟩ t :=
    ⟨site, 5, params, opened, body, 32, rfl, hplaced, .refl, rfl, htpc.trans hbody.symm,
      Host.walk_of_walk? _ _ hwalk⟩
  have hreturns : (Host.flat sumLines length_sumLines).ReturnsWith {} sumCode site.func (fun _ _ _ => False)
      (.calling 5 [2, 0]) u :=
    ⟨u.pc, site, 5, params, opened, body, 66, rfl, hplaced, rfl, hupc.trans hlast.symm,
      Host.walk_of_walk? _ _ hwalk'⟩
  obtain ⟨hholds, _, hsame⟩ := @known_true_and_reuse_unseen sumTree sumCode hbuild {} _ _ htext htext'
    (Host.like_flat _ _) site.func (.calling 5 [2, 0]) 5 hsymbol hsymbol' fun _ _ _ => False
  exact ⟨_, _, t, u, hfunc, harrives, hknown, hrdi, hholds _ t harrives _ _ hknown, hrax, (hsame u).mp hreturns⟩

end TreeCompiler.Asm
