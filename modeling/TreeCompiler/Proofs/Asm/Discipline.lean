import TreeCompiler.Proofs.Asm.Stages

/-!
The discipline of the stack. Between two instructions it is aligned and ends below the frame, calls give
back what they take, and a function that returns leaves the stack and the frame of its caller as they
were.
-/

namespace TreeCompiler.Asm

open Code

namespace Host

variable (h : Host) (options : Options) (p : Code.Program) (f : Func) (answers : Answers)

/-- A run of a function from its symbol stands at a point between two of its instructions. -/
def Reaches (s : State) (a : Point) (t : State) : Prop :=
  ∃ site start params opened body n, site.func = f ∧ Placed h options p site start params opened body ∧
    Boundary options site opened a ∧ s.pc = start ∧
      t.pc = Placed.bodyLine start site.frame params + a.before.length ∧ h.Walk {} answers n s t

/-- A call takes bytes from the stack for its padding and the arguments that do not fit the registers,
    and what stands right behind it gives back as many. -/
def Balances (u : State) (x : Instr) : Prop :=
  ∃ name n k, x.src1 = some (.func name) ∧ Operand.isLength x.src2 n = true ∧
    h.lines[u.pc + k]? = some (.insn (.call name)) ∧
      (callSpace n ≠ 0 → h.lines[u.pc + k + 1]? = some (.insn (.shrink (callSpace n)))) ∧
        (∀ v, h.Walk {} answers k u v → v.regs .rsp = u.regs .rsp - BitVec.ofNat 64 (callSpace n)) ∧
          ∀ v, h.Walk {} answers (k + if callSpace n = 0 then 1 else 2) u v → v.regs .rsp = u.regs .rsp

end Host

/-- The registers that functions write: those that they compute with and those of the stack. -/
def Register.ofFunctions : List Register :=
  Reg.scratch.map .tracked ++ [.rsp, .rbp]

namespace Layout

variable {ly : Layout} {spared : Prop} {entry s t u : State} {top : Word} {depth : Depth} {answers : Answers}
  {l : Line} {a : Point} {x : Instr}

/-- Lines that hand control on, walked to their end, move the top of the stack as they say. -/
theorem rsp_of_walk {leads : String → Prop} {Q : Depth → Prop} {ls ms : List Line} {v : State}
    (hstands : Stands ly.site.frame spared entry top depth u) (hcode : ly.host.HasCode u.pc (ls ++ ms))
    (hstraight : ∀ l ∈ ls, l.isStraight = true) (hsinks : Sinks leads Q depth ls)
    (hwalk : ly.host.Walk {} answers ls.length u v) :
    ∃ d : Depth, v.regs .rsp = top - BitVec.ofInt 64 d.bytes ∧ Q d := by
  rcases hwalk.through hcode hstraight with ⟨hlt, _⟩ | ⟨m, w, hm, hdoes, hrest⟩
  · omega
  · obtain rfl : m = 0 := by omega
    cases hrest
    obtain ⟨d, hsunk, hQ⟩ := hstands.sunk.does hstands.footing hsinks hdoes
    exact ⟨d, hsunk.rsp, hQ⟩

/-- A call that does not start the function again gives back what it takes. -/
theorem balances (ha : Boundary ly.options ly.site ly.opened a) (hx : ly.site.func.code[a.index]? = some x)
    (hop : x.op = .call) (hplain : ly.site.restarts a.index x = false) (hpc : u.pc = ly.base + a.before.length)
    (hstands : Stands ly.site.frame spared entry top .zero u) : ly.host.Balances answers u x := by
  obtain ⟨behind, hcut⟩ := ha.cut ly.wellFormed ly.placed
  obtain ⟨code, covered, g, rest, hgen, _⟩ := hcut.step (ly.placed.legal ly.wellFormed) hx
  have hnext : Next ly.options ly.site a ⟨_, g, a.before ++ ([] ++ (announcement ly.options x ++ code))⟩ :=
    .intro hx hgen
  obtain ⟨_, behind, hcode⟩ := hasCode_inside ha hnext rfl
  rw [List.append_nil, ← hpc] at hcode
  obtain ⟨xs, rfl, hshape⟩ := genInstr_gives_call hop _ _ _ hgen
  cases hshape with
  | restart hrestarts =>
    rw [hrestarts] at hplain
    cases hplain
  | @plain name n before after _ hname hlength hxs hbalanced =>
    have hrsp := hstands.sunk.rsp_of_zero rfl
    have hsilent : ∀ l ∈ announcement ly.options x, l.isStraight = true := by
      intro l hl
      have hl := isSilent_announcement l hl
      cases l <;> first | exact hl | cases hl
    -- The lines up to the call, and those up to where the bytes are given back.
    let undo : List Insn := if callSpace n = 0 then [] else [.shrink (callSpace n)]
    have hcall : ly.host.HasCode u.pc ((announcement ly.options x ++ before.map .insn) ++
        .insn (.call name) :: (undo.map .insn ++ (after.map .insn ++ behind))) := by
      rw [hxs, callCode] at hcode
      simpa using hcode
    have hgiven : ly.host.HasCode u.pc ((announcement ly.options x ++ (before ++ Insn.call name :: undo).map .insn) ++
        (after.map .insn ++ behind)) := by
      simpa using hcall
    have hbefore : ∀ l ∈ before.map Line.insn, l.isStraight = true := by
      intro l hl
      obtain ⟨y, hy, rfl⟩ := List.mem_map.mp hl
      exact Insn.isStraight_of_isPlain (hbalanced.plain y hy)
    have hundo : ∀ l ∈ (Insn.call name :: undo).map Line.insn, l.isStraight = true := by
      simp only [undo]
      split <;> simp [Line.isStraight, Insn.isStraight]
    refine ⟨name, n, (announcement ly.options x ++ before.map Line.insn).length, hname, hlength,
      hcall.right.getElem?, fun hspace => ?_, fun v hwalk => ?_, fun v hwalk => ?_⟩
    · have hshrink := hcall.right.tail
      simp only [undo, if_neg hspace] at hshrink
      exact hshrink.getElem?
    · have hstraight : ∀ l ∈ announcement ly.options x ++ before.map Line.insn, l.isStraight = true :=
        List.forall_mem_append.mpr ⟨hsilent, hbefore⟩
      obtain ⟨d, hv, hd⟩ := rsp_of_walk hstands hcall hstraight
        (.append (sinks_silent isSilent_announcement (hbalanced.taken ly.site.Leads))) hwalk
      rw [hv, hd, hrsp]
      rfl
    · have hstraight : ∀ l ∈ announcement ly.options x ++ (before ++ Insn.call name :: undo).map Line.insn,
          l.isStraight = true := by
        rw [List.map_append]
        exact List.forall_mem_append.mpr ⟨hsilent, List.forall_mem_append.mpr ⟨hbefore, hundo⟩⟩
      have hmoves : (announcement ly.options x ++ before.map Line.insn).length + (if callSpace n = 0 then 1 else 2) =
          (announcement ly.options x ++ (before ++ Insn.call name :: undo).map Line.insn).length := by
        simp only [undo]
        split <;> simp <;> omega
      have hsinks : Sinks ly.site.Leads (fun d => d.bytes = 0) .zero
          (announcement ly.options x ++ (before ++ Insn.call name :: undo).map .insn) :=
        .append (sinks_silent isSilent_announcement (hbalanced.sinks_undo fun _ hd => hd))
      rw [hmoves] at hwalk
      obtain ⟨d, hv, hd⟩ := rsp_of_walk hstands hgiven hstraight hsinks hwalk
      rw [hv, hd, hrsp]
      simp

section Stage

variable (hstage : ly.Stage spared entry s)
include hstage

/-- At a point between two instructions the stack is aligned and ends below the slots. -/
theorem Stage.at_boundary (hentry : entry.pc = ly.start) (ha : Boundary ly.options ly.site ly.opened a)
    (hpc : s.pc = ly.base + a.before.length) :
    s.regs .rbp = entry.regs .rsp - 8 ∧ 16 ∣ (s.regs .rsp).toNat ∧
      (s.regs .rsp).toNat ≤ (s.regs .rbp - BitVec.ofNat 64 ly.site.frame.size).toNat ∧
        (ly.site.frame.hasArrays = false → s.regs .rsp = s.regs .rbp - BitVec.ofNat 64 ly.site.frame.size) := by
  obtain ⟨top, hstands⟩ := hstage.at_point hentry ha hpc
  rw [hstands.sunk.rbp, hstands.sunk.rsp_of_zero rfl]
  exact ⟨rfl, hstands.footing.aligned, hstands.footing.le, hstands.footing.level⟩

/-- Where a function is called the stack is aligned, whatever was taken from it. -/
theorem Stage.at_call {name : String} (hentry : entry.pc = ly.start)
    (hline : ly.host.lines[s.pc]? = some (.insn (.call name))) : 16 ∣ (s.regs .rsp).toNat := by
  cases hstage.standing hentry hline with
  | frame hl => simp at hl
  | code hstands hsinks =>
    have hbytes := hsinks.1
    have haligned := hstands.footing.aligned
    have hrsp := hstands.sunk.toNat_rsp
    omega
  | ret hl => cases hl

/-- Without arrays the stack ends right below the slots where the function is entered, also by a jump. -/
theorem Stage.at_entry (hentry : entry.pc = ly.start)
    (hline : ly.host.lines[s.pc]? = some (.mark "entry") ∨ ly.host.lines[s.pc]? = some (.insn (.jump "entry")))
    (hmoves : ly.host.Moves {} answers s t) (harrays : ly.site.frame.hasArrays = false) :
    t.regs .rsp = t.regs .rbp - BitVec.ofNat 64 ly.site.frame.size := by
  have hlevel : s.regs .rsp = s.regs .rbp - BitVec.ofNat 64 ly.site.frame.size := by
    obtain ⟨l, hl, hline⟩ : ∃ l, (l = .mark "entry" ∨ l = .insn (.jump "entry")) ∧
        ly.host.lines[s.pc]? = some l := by
      rcases hline with hline | hline
      · exact ⟨_, .inl rfl, hline⟩
      · exact ⟨_, .inr rfl, hline⟩
    cases hstage.standing hentry hline with
    | frame hframe => rcases hl with rfl | rfl <;> simp at hframe
    | @code top depth _ _ hstands hsinks =>
      have hzero : depth.bytes = 0 := by
        rcases hl with rfl | rfl
        · exact hsinks.2.1
        · exact hsinks.1
      rw [hstands.sunk.rsp_of_zero hzero, hstands.sunk.rbp, hstands.footing.level harrays]
    | ret hret => rcases hl with rfl | rfl <;> cases hret
  have hregs : t.regs = s.regs := by
    rcases hline with hline | hline
    · obtain ⟨_, rfl⟩ := hmoves.passes_of_isStraight hline rfl
      rfl
    · cases hmoves with
      | passes hline' hpasses =>
        cases hline.symm.trans hline'
        cases hpasses.1
      | jump => rfl
      | taken hline' => cases hline.symm.trans hline'
      | passed hline' => cases hline.symm.trans hline'
  rw [hregs, hlevel]

/-- Where a function returns, its stack is as it was, and so is what it saved if that was spared. -/
theorem Stage.at_ret (hentry : entry.pc = ly.start) (hline : ly.host.lines[s.pc]? = some (.insn .ret)) :
    s.regs .rsp = entry.regs .rsp ∧ (spared → s.regs .rbp = entry.regs .rbp ∧
      s.mem.read (s.regs .rsp).toNat = entry.mem.read (entry.regs .rsp).toNat) := by
  cases hstage.standing hentry hline with
  | frame hl => simp at hl
  | code _ hsinks => exact hsinks.elim
  | ret _ hrsp hsaved hrbp =>
    refine ⟨hrsp, fun hspared => ?_⟩
    have hlow := hsaved.low
    have haddress := (hsaved.intact hspared).2
    have htop : (entry.regs .rsp - 8).toNat + 8 = (entry.regs .rsp).toNat := by
      have hlt := (entry.regs .rsp).isLt
      rw [BitVec.toNat_sub] at hlow ⊢
      simp only [BitVec.reduceToNat] at hlow ⊢
      omega
    rw [htop] at haddress
    rw [hrsp]
    exact ⟨hrbp hspared, haddress⟩

/-- The lines of a function write no other registers than those of functions. -/
theorem Stage.writes {x : Insn} {r : Register} (hentry : entry.pc = ly.start)
    (hline : ly.host.lines[s.pc]? = some (.insn x)) (hr : r ∈ x.writes) : r ∈ Register.ofFunctions := by
  cases hstage.standing hentry hline with
  | frame hl =>
    simp only [reduceCtorEq, List.map_cons, List.map_nil, List.mem_cons, Line.insn.injEq, List.not_mem_nil, or_false,
      false_or] at hl
    rcases hl with rfl | rfl | rfl | rfl | rfl | rfl <;>
      simp only [Insn.writes, List.mem_cons, List.not_mem_nil, or_false] at hr <;>
        simp [Register.ofFunctions, hr]
  | code _ hsinks => exact hsinks.writes hr
  | ret hl =>
    cases hl
    simp_all [Insn.writes, Register.ofFunctions]

end Stage

end Layout

/-- A move changes no register but those that its line writes, or what a callee changes. -/
theorem Host.Moves.regs {h : Host} {fr : Frame} {answers : Answers} {s t : State} {r : Register}
    (hmoves : h.Moves fr answers s t) (hcall : ∀ name, h.lines[s.pc]? ≠ some (.insn (.call name)))
    (hwrites : ∀ x, h.lines[s.pc]? = some (.insn x) → r ∉ x.writes) : t.regs r = s.regs r := by
  cases hmoves with
  | @passes l _ hline hpasses =>
    cases l with
    | insn x =>
      have hplain : x.isPlain = true ∧ h.exec s x = .ok t := by
        have hacts : h.Acts fr answers s x t := hpasses
        unfold Acts at hacts
        split at hacts
        · exact absurd hline (hcall _)
        · exact ⟨rfl, hacts.1⟩
        · exact hacts
      exact exec_regs hplain.1 hplain.2 (hwrites x hline)
    | _ =>
      obtain ⟨_, rfl⟩ := hpasses
      rfl
  | _ => rfl

/-- A frame without slots is missed by every store. -/
theorem Frame.misses_of_empty (s : State) (a : Nat) : ({} : Frame).Misses s a := by
  intro o offset hoffset
  unfold offset? at hoffset
  split at hoffset
  · simp at hoffset
  · cases hoffset

/-- Callees that do nothing. -/
def Answers.idle : Answers :=
  fun _ s t => t = s

namespace Host

variable (h : Host)

/-- The move of a function whose callees do nothing. -/
def idle? (s : State) : Option State :=
  match h.lines[s.pc]? with
  | some (.insn (.call _)) => some s.next
  | some (.insn (.store (.element base position) src)) => (h.exec s (.store (.element base position) src)).toOption
  | _ => h.move? s

/-- A number of such moves, each of which has a property. -/
def idleWalk? (keeps : State → State → Bool) : Nat → State → Option State
  | 0, s => some s
  | n + 1, s => (h.idle? s).bind fun u => if keeps s u then idleWalk? keeps n u else none

variable {h} {s t : State} {keeps : State → State → Bool} {n : Nat}

theorem moves_of_idle? (hmove : h.idle? s = some t) : h.Moves {} .idle s t := by
  unfold idle? at hmove
  split at hmove
  · next name hline =>
    obtain rfl := Option.some.inj hmove
    exact .passes hline ⟨rfl, rfl, rfl, rfl⟩
  · next base position src hline => exact .passes hline ⟨eq_ok_of_toOption hmove, Frame.misses_of_empty _ _⟩
  · exact moves_of_move? {} .idle hmove

theorem walk_of_idleWalk? (hwalk : h.idleWalk? keeps n s = some t) : h.Walk {} .idle n s t := by
  induction n generalizing s with
  | zero => exact (Option.some.inj hwalk).symm
  | succ n ih =>
    obtain ⟨u, hmove, hrest⟩ := Option.bind_eq_some_iff.mp hwalk
    split at hrest
    · exact ⟨u, moves_of_idle? hmove, ih hrest⟩
    · cases hrest

theorem sparingWalk_of_idleWalk? {bottom : Word} (hkeeps : ∀ s t, keeps s t = true → Spares bottom s t)
    (hwalk : h.idleWalk? keeps n s = some t) : h.SparingWalk .idle bottom n s t := by
  induction n generalizing s with
  | zero => exact (Option.some.inj hwalk).symm
  | succ n ih =>
    obtain ⟨u, hmove, hrest⟩ := Option.bind_eq_some_iff.mp hwalk
    split at hrest
    · next hkept => exact ⟨u, moves_of_idle? hmove, fun _ _ _ => hkeeps s u hkept, ih hrest⟩
    · cases hrest

end Host

/-- A function that passes seven arguments, one of them on the stack, and then writes to an array of
    one element at any position. -/
def pokeTree : Tree.Program where
  body := [
    .func ⟨"log", "abcdefg".toList.map fun c => ⟨String.singleton c, .number⟩, .void, false, true⟩ .missing,
    .func ⟨"poke", [⟨"i", .number⟩], .void, true, false⟩
      (.block [.define "a" .array (.array [.var "i"]), .call "log" (List.replicate 7 (.var "i")),
        .setIndex (.var "a") (.var "i") (.literal (.number 7))])]

def pokeCode : Code.Program :=
  (buildCode pokeTree).toOption.getD ⟨[], []⟩

def pokeLines : List Line :=
  (genProgram {} pokeCode).toOption.getD []

theorem length_pokeLines : pokeLines.length < 2 ^ 50 := by
  decide +kernel

def pokeHost : Host :=
  .flat pokeLines length_pokeLines

/-- A machine that has just called a function with its stack aligned. -/
def State.entering (pc : Nat) (args : List Word) : State where
  regs
    | .rsp => 0x10000000008#64
    | r => (State.calling pc args).regs r
  flags := none
  mem := Memory.write (fun _ => 0) (0x10000000008#64).toNat 0x4000000000000#64
  pc

/-- The discipline of the stack in every run of a function that starts at its symbol with an aligned
    stack. -/
theorem stack_disciplined {prog : Tree.Program} {p : Code.Program} (hbuild : buildCode prog = .ok p)
    {options : Options} {h : Host} (htext : genProgram options p = .ok h.lines) {f : Func} (hf : f ∈ p.funcs)
    {size : Nat} (hsize : frameSize f = .ok size) {s : State} (hsymbol : h.symbol? f.name = some s.pc)
    (haligned : (s.regs .rsp).toNat % 16 = 8) (answers : Answers) :
    (∀ a t, h.Reaches options p f answers s a t →
      t.regs .rbp = s.regs .rsp - 8 ∧ 16 ∣ (t.regs .rsp).toNat ∧
        (t.regs .rsp).toNat ≤ (t.regs .rbp - BitVec.ofNat 64 size).toNat ∧
          ((∀ x ∈ f.code, x.op ≠ .array) → t.regs .rsp = t.regs .rbp - BitVec.ofNat 64 size)) ∧
    (∀ a t x, h.Reaches options p f answers s a t → f.code[a.index]? = some x → x.op = .call →
      restarts f a.index = false → h.Balances answers t x) ∧
    (∀ n t, h.Walk {} answers n s t →
      (∀ name, h.lines[t.pc]? = some (.insn (.call name)) → 16 ∣ (t.regs .rsp).toNat) ∧
      ((h.lines[t.pc]? = some (.mark "entry") ∨ h.lines[t.pc]? = some (.insn (.jump "entry"))) →
        (∀ x ∈ f.code, x.op ≠ .array) → ∀ u, h.Moves {} answers t u →
          u.regs .rsp = u.regs .rbp - BitVec.ofNat 64 size) ∧
      (h.lines[t.pc]? = some (.insn .ret) → t.regs .rsp = s.regs .rsp) ∧
      (∀ x, h.lines[t.pc]? = some (.insn x) → ∀ r ∈ x.writes, r ∈ Register.ofFunctions) ∧
      ((∀ name, h.lines[t.pc]? ≠ some (.insn (.call name))) → ∀ u, h.Moves {} answers t u →
        ∀ r ∉ Register.ofFunctions, u.regs r = t.regs r)) ∧
    ∀ n t, h.SparingWalk answers (s.regs .rsp - 8) n s t → h.lines[t.pc]? = some (.insn .ret) →
      t.regs .rbp = s.regs .rbp ∧ t.mem.read (t.regs .rsp).toNat = s.mem.read (s.regs .rsp).toNat := by
  have hp := buildCode_wellFormed hbuild
  have hinternal : f.isExternal = false := by
    refine Bool.eq_false_iff.mpr fun hexternal => ?_
    rw [symbol?_of_external hp htext hf hexternal] at hsymbol
    cases hsymbol
  obtain ⟨site, start, params, opened, body, rfl, hplaced⟩ := exists_placed hp htext hf hinternal
  let ly : Layout := ⟨h, options, p, site, start, params, opened, body, hp, hplaced⟩
  have hentry : s.pc = ly.start := Option.some.inj (hsymbol.symm.trans hplaced.symbol)
  have hbytes : site.frame.size = size := by
    rw [frameSize, if_neg (by simp [hinternal]), hplaced.frame] at hsize
    exact Except.ok.inj hsize
  have harrays : (∀ x ∈ site.func.code, x.op ≠ .array) → ly.site.frame.hasArrays = false := by
    intro hnone
    rw [Frame.hasArrays_ofFunc hplaced.frame]
    simpa using hnone
  subst hbytes
  have hstages : ∀ n t, h.Walk {} answers n s t → ly.Stage False s t := fun n t hwalk =>
    Layout.stage_of_walk hentry haligned (.symbol rfl) hwalk
  -- A point that the run reached is one of this text of the function.
  have hreached : ∀ a t, h.Reaches options p site.func answers s a t →
      Boundary ly.options ly.site ly.opened a ∧ t.pc = ly.base + a.before.length ∧ ly.Stage False s t := by
    rintro a t ⟨site', start', params', opened', body', n, hfunc, hplaced', ha, hstart, hpc, hwalk⟩
    obtain rfl := hplaced.site_eq hfunc hplaced'.frame hplaced'.labels
    have hsame := hplaced.outline?_eq_some.symm.trans hplaced'.outline?_eq_some
    simp only [Option.some.injEq, Prod.mk.injEq, true_and] at hsame
    obtain ⟨rfl, rfl, rfl⟩ := hsame
    obtain rfl : start = start' := hentry.symm.trans hstart
    exact ⟨ha, hpc, hstages n t hwalk⟩
  refine ⟨fun a t hreaches => ?_, fun a t x hreaches hx hop hplain => ?_, fun n t hwalk => ?_,
    fun n t hwalk hline => ?_⟩
  · obtain ⟨ha, hpc, hstage⟩ := hreached a t hreaches
    obtain ⟨hrbp, hdvd, hle, hlevel⟩ := hstage.at_boundary hentry ha hpc
    exact ⟨hrbp, hdvd, hle, fun hnone => hlevel (harrays hnone)⟩
  · obtain ⟨ha, hpc, hstage⟩ := hreached a t hreaches
    obtain ⟨top, hstands⟩ := hstage.at_point hentry ha hpc
    rw [hplaced.restarts_eq hx hop] at hplain
    exact Layout.balances ha hx hop hplain hpc hstands
  · have hstage := hstages n t hwalk
    refine ⟨fun name hline => hstage.at_call hentry hline,
      fun hline hnone u hmoves => hstage.at_entry hentry hline hmoves (harrays hnone),
      fun hline => (hstage.at_ret hentry hline).1, fun x hline r hr => hstage.writes hentry hline hr,
      fun hcall u hmoves r hr => hmoves.regs hcall fun x hline hx => hr (hstage.writes hentry hline hx)⟩
  · have hstage : ly.Stage True s t := Layout.stage_of_sparingWalk hentry haligned (.symbol rfl) hwalk
    exact (hstage.at_ret hentry hline).2 trivial

/-- An element of an array is written that is there: the stack is aligned at the call, and the function
    returns to where it was called. -/
theorem poke_disciplined : ∃ f t u, pokeCode.func? "poke" = some f ∧
    pokeHost.Walk {} .idle 37 (.entering 7 [0]) t ∧ pokeHost.lines[t.pc]? = some (.insn (.call "log")) ∧
      16 ∣ (t.regs .rsp).toNat ∧
    pokeHost.SparingWalk .idle 0x10000000000#64 54 (.entering 7 [0]) u ∧ pokeHost.lines[u.pc]? = some (.insn .ret) ∧
      u.regs .rsp = 0x10000000008#64 ∧ u.regs .rbp = 0 ∧
        u.mem.read (u.regs .rsp).toNat = (State.entering 7 [0]).mem.read (0x10000000008#64).toNat := by
  have hbuild : buildCode pokeTree = .ok pokeCode := eq_ok_of_toOption (by decide +kernel)
  have htext : genProgram {} pokeCode = .ok pokeHost.lines := eq_ok_of_toOption (by decide +kernel)
  have hsymbol : pokeHost.symbol? "poke" = some 7 := by decide +kernel
  have hframe : (pokeCode.func? "poke").bind (fun f => (frameSize f).toOption) = some 128 := by decide +kernel
  have hcall : (pokeHost.idleWalk? (fun _ _ => true) 37 (.entering 7 [0])).map (·.pc) = some 44 := by decide +kernel
  have hreturn : (pokeHost.idleWalk? (fun s t => Spares 0x10000000000#64 s t) 54 (.entering 7 [0])).map (·.pc) =
      some 61 := by
    decide +kernel
  have hcallLine : pokeHost.lines[44]? = some (.insn (.call "log")) := by decide +kernel
  have hlastLine : pokeHost.lines[61]? = some (.insn .ret) := by decide +kernel
  obtain ⟨f, hfunc⟩ : ∃ f, pokeCode.func? "poke" = some f := Option.isSome_iff_exists.mp (by decide +kernel)
  obtain ⟨hf, hname⟩ := Code.Program.mem_of_func? hfunc
  rw [hfunc, Option.bind_some] at hframe
  rw [← hname] at hsymbol
  obtain ⟨t, hwalk, ht⟩ := Option.map_eq_some_iff.mp hcall
  obtain ⟨u, hwalk', hu⟩ := Option.map_eq_some_iff.mp hreturn
  rw [← ht] at hcallLine
  rw [← hu] at hlastLine
  obtain ⟨_, _, hruns, hends⟩ := @stack_disciplined pokeTree pokeCode hbuild {} pokeHost htext f hf 128
    (eq_ok_of_toOption hframe) (.entering 7 [0]) hsymbol rfl .idle
  have hsparing : pokeHost.SparingWalk .idle 0x10000000000#64 54 (.entering 7 [0]) u :=
    Host.sparingWalk_of_idleWalk? (fun s t hkeeps => of_decide_eq_true hkeeps) hwalk'
  obtain ⟨hrbp, haddress⟩ := hends 54 u hsparing hlastLine
  exact ⟨f, t, u, hfunc, Host.walk_of_idleWalk? hwalk, hcallLine,
    (hruns 37 t (Host.walk_of_idleWalk? hwalk)).1 _ hcallLine, hsparing, hlastLine,
    (hruns 54 u (Host.walk_of_idleWalk? hwalk')).2.2.1 hlastLine, hrbp, haddress⟩

/-- A store past the end of an array can overwrite the return address, and then the return does not find
    it. -/
theorem return_address_overwritten : ∃ f t, buildCode pokeTree = .ok pokeCode ∧
    genProgram {} pokeCode = .ok pokeHost.lines ∧ pokeCode.func? "poke" = some f ∧
      pokeHost.symbol? f.name = some 7 ∧ ((State.entering 7 [18]).regs .rsp).toNat % 16 = 8 ∧
    pokeHost.Walk {} .idle 54 (.entering 7 [18]) t ∧ pokeHost.lines[t.pc]? = some (.insn .ret) ∧
      t.mem.read (t.regs .rsp).toNat ≠
        (State.entering 7 [18]).mem.read ((State.entering 7 [18]).regs .rsp).toNat := by
  have hsymbol : pokeHost.symbol? "poke" = some 7 := by decide +kernel
  have hreturn : (pokeHost.idleWalk? (fun _ _ => true) 54 (.entering 7 [18])).map
      (fun t => (t.pc, t.mem.read (t.regs .rsp).toNat)) = some (61, 7) := by decide +kernel
  have hlastLine : pokeHost.lines[61]? = some (.insn .ret) := by decide +kernel
  have haddress : (State.entering 7 [18]).mem.read ((State.entering 7 [18]).regs .rsp).toNat ≠ 7 := by decide +kernel
  obtain ⟨f, hfunc⟩ : ∃ f, pokeCode.func? "poke" = some f := Option.isSome_iff_exists.mp (by decide +kernel)
  obtain ⟨t, hwalk, ht⟩ := Option.map_eq_some_iff.mp hreturn
  obtain ⟨hpc, hread⟩ := Prod.mk.inj ht
  refine ⟨f, t, eq_ok_of_toOption (by decide +kernel), eq_ok_of_toOption (by decide +kernel), hfunc,
    (Code.Program.mem_of_func? hfunc).2 ▸ hsymbol, rfl, Host.walk_of_idleWalk? hwalk, hpc ▸ hlastLine, ?_⟩
  rw [hread]
  exact haddress.symm

end TreeCompiler.Asm
