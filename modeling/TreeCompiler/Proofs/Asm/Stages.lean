import TreeCompiler.Proofs.Asm.Footing
import TreeCompiler.Proofs.Asm.Reuse

/-!
The stack of a function in every run from its symbol to its return. Each move of the run leads from
one stage of the function to another, and each stage says where the stack stands.
-/

namespace TreeCompiler.Asm

open Code

/-- What the frame of a function saves is what its caller left: the base of the caller's frame and the
    return address. -/
def Intact (entry s : State) : Prop :=
  s.mem.read (entry.regs .rsp - 8).toNat = entry.regs .rbp ∧
    s.mem.read ((entry.regs .rsp - 8).toNat + 8) = entry.mem.read (entry.regs .rsp).toNat

theorem Intact.spares {entry s t : State} (hintact : Intact entry s) (hspares : Spares (entry.regs .rsp - 8) s t) :
    Intact entry t :=
  ⟨hspares.1.trans hintact.1, hspares.2.trans hintact.2⟩

/-- The words that the frame of a function saves have room, and are intact if they are spared. -/
structure Saved (spared : Prop) (entry s : State) : Prop where
  low : (entry.regs .rsp - 8).toNat + 8 ≤ 2 ^ 47
  intact : spared → Intact entry s

theorem Saved.of_mem {spared : Prop} {entry s t : State} (hsaved : Saved spared entry s) (hmem : t.mem = s.mem) :
    Saved spared entry t :=
  ⟨hsaved.low, fun hspared => (hsaved.intact hspared).spares (.of_mem hmem)⟩

namespace Host

variable (h : Host) (answers : Answers) (bottom : Word)

/-- A number of moves in which neither callees nor stores to elements change the words that a frame
    saves. -/
def SparingWalk : Nat → State → State → Prop
  | 0, s, t => t = s
  | n + 1, s, t => ∃ u, h.Moves {} answers s u ∧
      (∀ l, h.lines[s.pc]? = some l → l.isForeign = true → Spares bottom s u) ∧ SparingWalk n u t

end Host

/-- A function that was entered took bytes from its stack. -/
structure Stands (frame : Frame) (spared : Prop) (entry : State) (base : Word) (depth : Depth) (s : State) : Prop where
  footing : Footing frame (entry.regs .rsp - 8) base
  sunk : Sunk (entry.regs .rsp - 8) base depth s
  intact : spared → Intact entry s

namespace Stands

variable {frame : Frame} {spared : Prop} {entry s t : State} {base : Word} {depth : Depth} {leads : String → Prop}
  {Q : Depth → Prop} {h : Host} {answers : Answers} {l : Line} {ls : List Line}

variable (hstands : Stands frame spared entry base depth s)
include hstands

theorem congr (hregs : t.regs = s.regs) (hmem : t.mem = s.mem) : Stands frame spared entry base depth t where
  footing := hstands.footing
  sunk := hstands.sunk.congr (by rw [hregs]) (by rw [hregs])
  intact hspared := (hstands.intact hspared).spares (.of_mem hmem)

theorem passes (hsinks : Sinks leads Q depth (l :: ls)) (hpasses : h.Passes {} answers s l t)
    (hspares : spared → l.isForeign = true → Spares (entry.regs .rsp - 8) s t) :
    ∃ d, Stands frame spared entry base d t ∧ Sinks leads Q d ls := by
  obtain ⟨⟨d, hsunk, hrest⟩, hown⟩ := hstands.sunk.passes hstands.footing hsinks hpasses
  refine ⟨d, ⟨hstands.footing, hsunk, fun hspared => (hstands.intact hspared).spares ?_⟩, hrest⟩
  cases hforeign : l.isForeign with
  | true => exact hspares hspared hforeign
  | false => exact hown hforeign

theorem saved : Saved spared entry s :=
  ⟨hstands.footing.low, hstands.intact⟩

/-- What was taken for good is below a new footing. -/
theorem rebase (htakes : frame.Takes depth) : Stands frame spared entry (s.regs .rsp) .zero s where
  footing := hstands.sunk.rebase hstands.footing htakes
  sunk := .zero hstands.sunk.rbp rfl
  intact := hstands.intact

end Stands

/-- A function that stands in the text of its program. -/
structure Layout where
  host : Host
  options : Options
  program : Code.Program
  site : Site
  start : Nat
  params : List Insn
  opened : GenState
  body : List Line
  wellFormed : program.WellFormed
  placed : Placed host options program site start params opened body

namespace Layout

variable (ly : Layout)

/-- Where the entry of the function is marked. -/
def entryLine : Nat :=
  Placed.entryLine ly.start ly.site.frame

/-- Where the instructions of the function start. -/
def base : Nat :=
  Placed.bodyLine ly.start ly.site.frame ly.params

/-- How far a run of a function has come since its symbol, and where its stack stands there. -/
inductive Stage (spared : Prop) (entry s : State) : Prop where
  | symbol (hs : s = entry)
  | saving (hs : s = entry.next)
  | saved (hpc : s.pc = ly.start + 2) (hrsp : s.regs .rsp = entry.regs .rsp - 8)
      (hsaved : Saved spared entry s)
  | reserving (hpc : s.pc = ly.start + 3) (hsize : ly.site.frame.size ≠ 0)
      (hrbp : s.regs .rbp = entry.regs .rsp - 8) (hrsp : s.regs .rsp = entry.regs .rsp - 8)
      (hsaved : Saved spared entry s)
  | entry {top : Word} (hpc : s.pc = ly.entryLine) (hstands : Stands ly.site.frame spared entry top .zero s)
  | rewinding {top : Word} (hpc : s.pc = ly.entryLine + 1) (harrays : ly.site.frame.hasArrays = true)
      (hstands : Stands ly.site.frame spared entry top .zero s)
  | binding {rest : List Insn} {top : Word} (hpc : s.pc + rest.length = ly.base) (hnonempty : rest ≠ [])
      (hrest : rest <:+ ly.params) (hstands : Stands ly.site.frame spared entry top .zero s)
  | point {a : Point} {top : Word} (ha : Boundary ly.options ly.site ly.opened a)
      (hpc : s.pc = ly.base + a.before.length) (hstands : Stands ly.site.frame spared entry top .zero s)
  | inside {a b : Point} {done rest : List Line} {top : Word} {depth : Depth}
      (ha : Boundary ly.options ly.site ly.opened a) (hnext : Next ly.options ly.site a b)
      (hbefore : b.before = a.before ++ (done ++ rest)) (hdone : done ≠ []) (hrest : rest ≠ [])
      (hpc : s.pc = ly.base + (a.before ++ done).length)
      (hsinks : Sinks ly.site.Leads ly.site.frame.Takes depth rest)
      (hstands : Stands ly.site.frame spared entry top depth s)
  | leaving (hpc : s.pc = ly.base + ly.body.length + 1) (hrbp : s.regs .rbp = entry.regs .rsp - 8)
      (hsaved : Saved spared entry s)
  | restoring (hpc : s.pc = ly.base + ly.body.length + 2) (hrsp : s.regs .rsp = entry.regs .rsp - 8)
      (hsaved : Saved spared entry s)
  | returning (hpc : s.pc = ly.base + ly.body.length + 3) (hrsp : s.regs .rsp = entry.regs .rsp)
      (hsaved : Saved spared entry s) (hrbp : spared → s.regs .rbp = entry.regs .rbp)

variable {ly} {spared : Prop} {entry s t : State} {top : Word} {depth : Depth} {answers : Answers} {l : Line}
  {a b : Point} {done rest : List Line}

variable (ly) in
theorem hasCode_start : ly.host.HasCode ly.start
    (.symbol ly.site.func.name :: .insn (.push .rbp) :: .insn (.mov .rbp .rsp) ::
      ((if ly.site.frame.size = 0 then [] else [.insn (.grow ly.site.frame.size)]) ++
        (.mark "entry" :: ((rewind ly.site.frame ++ ly.params).map .insn ++ (ly.body ++ .mark "exit" :: epilogue)))))
        := by
  have hcode := ly.placed.code
  have hmap : (if ly.site.frame.size = 0 then [] else [Line.insn (.grow ly.site.frame.size)]) =
      (if ly.site.frame.size = 0 then [] else [Insn.grow ly.site.frame.size]).map .insn := by
    split <;> rfl
  rw [hmap]
  simpa [innerLines, prologue] using hcode

theorem entryLine_eq : ly.entryLine = ly.start + 3 + if ly.site.frame.size = 0 then 0 else 1 := by
  unfold entryLine Placed.entryLine prologue
  split <;> simp

theorem base_eq : ly.base = ly.entryLine + 1 + (rewind ly.site.frame).length + ly.params.length := by
  simp only [base, entryLine, Placed.bodyLine, List.length_append]
  omega

/-- A run that is about to take in its parameters, or has none. -/
theorem Stage.bind {rest : List Insn} (hpc : s.pc + rest.length = ly.base) (hrest : rest <:+ ly.params)
    (hstands : Stands ly.site.frame spared entry top .zero s) : ly.Stage spared entry s := by
  cases rest with
  | nil => exact .point (a := ⟨0, ly.opened, []⟩) .refl (by simpa using hpc) hstands
  | cons x rest => exact .binding hpc (by simp) hrest hstands

/-- A run that has just come to the entry, from above or by a jump. -/
theorem Stage.entered (hpc : s.pc = ly.entryLine + 1) (hstands : Stands ly.site.frame spared entry top .zero s) :
    ly.Stage spared entry s := by
  cases harrays : ly.site.frame.hasArrays with
  | true => exact .rewinding hpc harrays hstands
  | false =>
    refine .bind ?_ (List.suffix_refl _) hstands
    rw [base_eq, hpc]
    simp [rewind, harrays]

theorem isSilent_announcement {options : Options} {x : Instr} :
    ∀ l ∈ announcement options x, l.isSilent = true := by
  unfold announcement
  split <;> simp [Line.isSilent]

/-- The lines of an instruction, and what they take from the stack. -/
theorem exists_lines (hnext : Next ly.options ly.site a b) :
    ∃ chunk, b.before = a.before ++ chunk ∧ Sinks ly.site.Leads ly.site.frame.Takes .zero chunk := by
  obtain ⟨hx, hgen⟩ := hnext
  rename_i x code covered g
  have hmem : x ∈ ly.site.func.code := List.mem_of_getElem? hx
  have harrays : x.op = .array → ly.site.frame.hasArrays = true := by
    intro hop
    rw [Frame.hasArrays_ofFunc ly.placed.frame, List.any_eq_true]
    exact ⟨x, hmem, by simp [hop]⟩
  have htargets := (ly.wellFormed.valid _ ly.placed.mem ly.placed.internal).targets x hmem
  exact ⟨_, rfl, .append (sinks_silent isSilent_announcement (genInstr_sinks harrays htargets _ _ _ hgen))⟩

/-- A jump leads to a label, to the entry or to the end of the function, and the stack is as it was. -/
theorem Stage.lands {name : String} {pos pc : Nat} (hleads : ly.site.Leads name) (hpc : s.pc = ly.base + pos)
    (hpos : pos ≤ ly.body.length) (hmark : ly.host.mark? s.pc name = some pc)
    (hstands : Stands ly.site.frame spared entry top .zero s) : ly.Stage spared entry (s.moved (pc + 1)) := by
  rw [hpc] at hmark
  have hstands' : Stands ly.site.frame spared entry top .zero (s.moved (pc + 1)) := hstands.congr rfl rfl
  rcases hleads with rfl | rfl | hname
  · obtain ⟨hlo, hhi⟩ := Placed.range ly.start ly.site.frame ly.params hpos
    cases hmark.symm.trans (ly.placed.mark?_entry hlo hhi)
    exact .entered rfl hstands'
  · cases hmark.symm.trans (ly.placed.mark?_exit ly.wellFormed hpos)
    exact .leaving rfl hstands.sunk.rbp hstands'.saved
  · obtain ⟨i, x, hx, hlabel⟩ := Code.exists_getElem?_of_mem_labels hname
    have hi : i < ly.site.func.code.length := (List.getElem?_eq_some_iff.mp hx).1
    rcases Boundary.exists_at ly.wellFormed ly.placed (Nat.le_of_lt hi) with ⟨a, ha, rfl⟩ | ⟨y, hy, hret, _⟩
    · obtain ⟨b, hnext, _, _, hfound⟩ := ha.label ly.wellFormed ly.placed hx hlabel
      obtain ⟨_, hpc', hline⟩ := hfound pos hpos
      cases hmark.symm.trans hpc'
      exact .point (ha.next hnext) hline hstands'
    · cases hx.symm.trans hy
      rw [(Instr.label?_eq_some_iff.mp hlabel).1] at hret
      cases hret

section Inside

variable (ha : Boundary ly.options ly.site ly.opened a) (hnext : Next ly.options ly.site a b)
include ha hnext

/-- The rest of the lines of an instruction stand behind those that were passed. -/
theorem hasCode_inside (hbefore : b.before = a.before ++ (done ++ rest)) :
    (a.before ++ done).length + rest.length ≤ ly.body.length ∧
      ∃ behind, ly.host.HasCode (ly.base + (a.before ++ done).length) (rest ++ behind) := by
  obtain ⟨behind, hcut⟩ := (ha.next hnext).cut ly.wellFormed ly.placed
  have hbody : ly.body = (a.before ++ done) ++ (rest ++ behind) := by
    rw [hcut.lines, hbefore]
    simp
  have hcode := ly.placed.hasCode_behind hbody
  rw [List.append_assoc] at hcode
  refine ⟨?_, _, hcode⟩
  simp only [hbody, List.length_append]
  omega

/-- A run that passed a line of an instruction is still inside of it, or behind it. -/
theorem Stage.passed (hbefore : b.before = a.before ++ (done ++ l :: rest))
    (hpc : t.pc = ly.base + (a.before ++ done).length + 1)
    (hsinks : Sinks ly.site.Leads ly.site.frame.Takes depth rest)
    (hstands : Stands ly.site.frame spared entry top depth t) : ly.Stage spared entry t := by
  cases rest with
  | nil =>
    refine .point (ha.next hnext) ?_ (hstands.rebase hsinks)
    rw [hpc, hbefore]
    simp only [List.length_append, List.length_cons, List.length_nil]
    omega
  | cons l' rest =>
    have hbefore' : b.before = a.before ++ ((done ++ [l]) ++ l' :: rest) := by
      rw [hbefore]
      simp
    refine .inside ha hnext hbefore' (by simp) (by simp) ?_ hsinks hstands
    rw [hpc]
    simp only [List.length_append, List.length_cons, List.length_nil]
    omega

/-- A move from a line of an instruction. -/
theorem Stage.advance (hbefore : b.before = a.before ++ (done ++ l :: rest))
    (hpc : s.pc = ly.base + (a.before ++ done).length)
    (hsinks : Sinks ly.site.Leads ly.site.frame.Takes depth (l :: rest))
    (hstands : Stands ly.site.frame spared entry top depth s) (hmoves : ly.host.Moves {} answers s t)
    (hspares : spared → ∀ l, ly.host.lines[s.pc]? = some l → l.isForeign = true →
      Spares (entry.regs .rsp - 8) s t) :
    ly.Stage spared entry t := by
  obtain ⟨hinside, behind, hcode⟩ := hasCode_inside ha hnext hbefore
  rw [← hpc] at hcode
  have hline := Host.HasCode.getElem? hcode
  have hpos : (a.before ++ done).length ≤ ly.body.length := by omega
  have hjump : ∀ name pc, depth.bytes = 0 → ly.site.Leads name → ly.host.mark? s.pc name = some pc →
      ly.Stage spared entry (s.moved (pc + 1)) := by
    intro name pc hzero hleads hmark
    exact .lands hleads hpc hpos hmark (hstands.rebase (ly.site.frame.takes_zero hzero))
  cases hmoves with
  | passes hline' hpasses =>
    cases hline.symm.trans hline'
    obtain ⟨d, hstands', hrest⟩ := hstands.passes hsinks hpasses fun hspared => hspares hspared l hline
    exact .passed ha hnext hbefore (by rw [hpasses.pc, hpc]) hrest hstands'
  | jump hline' hmark =>
    cases hline.symm.trans hline'
    exact hjump _ _ hsinks.1 hsinks.2.1 hmark
  | taken hline' _ _ hmark =>
    cases hline.symm.trans hline'
    exact hjump _ _ hsinks.1 hsinks.2.1 hmark
  | passed hline' _ _ =>
    cases hline.symm.trans hline'
    exact .passed ha hnext hbefore (by rw [State.next_pc, hpc]) hsinks.2.2 (hstands.congr rfl rfl)

end Inside

/-- A point between two instructions is before a line of an instruction, or at the end. -/
theorem exists_line (ha : Boundary ly.options ly.site ly.opened a) :
    a.before = ly.body ∨ ∃ a' b l rest, Boundary ly.options ly.site ly.opened a' ∧
      Next ly.options ly.site a' b ∧
      a'.before.length = a.before.length ∧ b.before = a'.before ++ (l :: rest) ∧
        Sinks ly.site.Leads ly.site.frame.Takes .zero (l :: rest) := by
  induction hleft : ly.site.func.code.length - a.index using Nat.strongRecOn generalizing a with
  | ind left ih =>
    cases hx : ly.site.func.code[a.index]? with
    | none => exact .inl (ha.before_of_last ly.wellFormed ly.placed hx)
    | some x =>
      obtain ⟨b, hnext⟩ := ha.exists_next ly.wellFormed ly.placed hx
      obtain ⟨chunk, hbefore, hsinks⟩ := exists_lines hnext
      cases chunk with
      | cons l rest => exact .inr ⟨a, b, l, rest, ha, hnext, rfl, hbefore, hsinks⟩
      | nil =>
        have hlt := hnext.index_lt
        have hindex := (List.getElem?_eq_some_iff.mp hx).1
        rw [List.append_nil] at hbefore
        rw [← hbefore]
        exact ih _ (by omega) (ha.next hnext) rfl

theorem hasCode_binding {rest : List Insn} (hrest : rest <:+ ly.params) (hpc : s.pc + rest.length = ly.base) :
    ly.host.HasCode s.pc (rest.map .insn ++ (ly.body ++ .mark "exit" :: epilogue)) := by
  obtain ⟨done, hdone⟩ := hrest
  have hcode := ly.placed.hasCode_entry.tail
  rw [← hdone, ← List.append_assoc (rewind ly.site.frame), List.map_append, List.append_assoc] at hcode
  have hline : s.pc = Placed.entryLine ly.start ly.site.frame + 1 +
      ((rewind ly.site.frame ++ done).map Line.insn).length := by
    have hlength := congrArg List.length hdone
    rw [base_eq] at hpc
    simp only [entryLine, List.length_append, List.length_map] at hpc hlength ⊢
    omega
  rw [hline]
  exact hcode.right

variable (ly) in
theorem hasCode_end : ly.host.HasCode (ly.base + ly.body.length) (.mark "exit" :: epilogue) := by
  have hcode := ly.placed.hasCode_behind (List.append_nil ly.body).symm
  rwa [List.nil_append] at hcode

variable (ly) in
theorem hasCode_afterBase : ly.host.HasCode (ly.start + 3)
    ((if ly.site.frame.size = 0 then [] else [.insn (.grow ly.site.frame.size)]) ++
      (.mark "entry" :: ((rewind ly.site.frame ++ ly.params).map .insn ++ (ly.body ++ .mark "exit" :: epilogue)))) :=
  ly.hasCode_start.tail.tail.tail

/-- The line that a run stands at is passed, if it does not jump. -/
theorem passes_at {pc : Nat} {ls : List Line} (hcode : ly.host.HasCode pc (l :: ls)) (hpc : s.pc = pc)
    (hl : l.isStraight = true) (hmoves : ly.host.Moves {} answers s t) : ly.host.Passes {} answers s l t :=
  hmoves.passes_of_isStraight (hpc ▸ hcode.getElem?) hl

section Moves

variable (hentry : entry.pc = ly.start) (haligned : (entry.regs .rsp).toNat % 16 = 8)

include haligned in
theorem dvd_bottom : 16 ∣ (entry.regs .rsp - 8).toNat := by
  rw [BitVec.toNat_sub]
  simp only [BitVec.reduceToNat]
  omega

include haligned in
/-- The frame of a function is open when its slots are reserved. -/
theorem stands_opened (hfits : ly.site.frame.Fits) (hsaved : Saved spared entry s)
    (hrbp : s.regs .rbp = entry.regs .rsp - 8)
    (hrsp : s.regs .rsp = entry.regs .rsp - 8 - BitVec.ofNat 64 ly.site.frame.size) :
    Stands ly.site.frame spared entry (entry.regs .rsp - 8 - BitVec.ofNat 64 ly.site.frame.size) .zero s :=
  ⟨.opened hfits hsaved.low (dvd_bottom haligned), .zero hrbp hrsp, hsaved.intact⟩

variable (hmoves : ly.host.Moves {} answers s t)
include hmoves

/-- The base of the caller's frame is saved first. -/
theorem Stage.save (hpc : s.pc = ly.start + 1) (hs : s = entry.next) : ly.Stage spared entry t := by
  have hacts : ly.host.Acts {} answers s (.push .rbp) t := passes_at ly.hasCode_start.tail hpc rfl hmoves
  have hensures : ly.host.Ensures False [.push .rbp] s fun t => t.regs .rsp = entry.regs .rsp - 8 ∧
      (entry.regs .rsp - 8).toNat + 8 ≤ 2 ^ 47 ∧ Intact entry t := by
    rw [Host.ensures_push, hs]
    intro haccess
    rw [Host.ensures_nil]
    obtain ⟨hnext, hlow⟩ := Host.push_bound haccess
    simp only [State.next_regs] at hnext hlow
    refine ⟨by simp, by omega, by simp, ?_⟩
    simp only [State.next_mem, State.next_regs]
    rw [Memory.read_write_of_disjoint _ _ (.inl (by omega)), hnext]
  obtain ⟨hrsp, hlow, hintact⟩ := hacts.ensures rfl hensures
  exact .saved (by rw [hacts.pc, hpc]) hrsp ⟨hlow, fun _ => hintact⟩

include haligned in
/-- The frame starts at the word where the base of the caller's frame is saved. -/
theorem Stage.found (hpc : s.pc = ly.start + 2) (hrsp : s.regs .rsp = entry.regs .rsp - 8)
    (hsaved : Saved spared entry s) : ly.Stage spared entry t := by
  have hacts : ly.host.Acts {} answers s (.mov .rbp .rsp) t := passes_at ly.hasCode_start.tail.tail hpc rfl hmoves
  have hpc' : t.pc = ly.start + 3 := by rw [hacts.pc, hpc]
  obtain ⟨hrbp', hrsp', hmem⟩ : t.regs .rbp = entry.regs .rsp - 8 ∧ t.regs .rsp = entry.regs .rsp - 8 ∧
      t.mem = s.mem := by
    have hexec := hacts.exec rfl
    cases hexec
    exact ⟨by simp [hrsp], by simp [State.set, hrsp], rfl⟩
  by_cases hsize : ly.site.frame.size = 0
  · have hfits : ly.site.frame.Fits := by
      unfold Frame.Fits
      omega
    refine .entry ?_ (stands_opened haligned hfits (hsaved.of_mem hmem) hrbp' ?_)
    · rw [hpc', entryLine_eq, if_pos hsize]
    · rw [hrsp', hsize]
      simp
  · exact .reserving hpc' hsize hrbp' hrsp' (hsaved.of_mem hmem)

include haligned in
/-- The slots are reserved. -/
theorem Stage.reserve (hpc : s.pc = ly.start + 3) (hsize : ly.site.frame.size ≠ 0)
    (hrbp : s.regs .rbp = entry.regs .rsp - 8) (hrsp : s.regs .rsp = entry.regs .rsp - 8)
    (hsaved : Saved spared entry s) : ly.Stage spared entry t := by
  have hcode := ly.hasCode_afterBase
  rw [if_neg hsize] at hcode
  have hacts : ly.host.Acts {} answers s (.grow ly.site.frame.size) t := passes_at hcode hpc rfl hmoves
  have hensures : ly.host.Ensures False [.grow ly.site.frame.size] s fun t =>
      ly.site.frame.Fits ∧ t.regs .rbp = s.regs .rbp ∧
        t.regs .rsp = s.regs .rsp - BitVec.ofNat 64 ly.site.frame.size ∧ t.mem = s.mem := by
    rw [Host.ensures_grow]
    intro hfits
    rw [Host.ensures_nil]
    have hfits := fits_iff.mp hfits
    refine ⟨?_, rfl, ?_, rfl⟩
    · unfold Frame.Fits
      omega
    · simp
  obtain ⟨hfits, hrbp', hrsp', hmem⟩ := hacts.ensures rfl hensures
  refine .entry ?_ (stands_opened haligned hfits (hsaved.of_mem hmem) (hrbp'.trans hrbp) ?_)
  · rw [hacts.pc, hpc, entryLine_eq, if_neg hsize]
  · rw [hrsp', hrsp]

include haligned in
/-- The arrays of an earlier round are given up. -/
theorem Stage.rewind (hpc : s.pc = ly.entryLine + 1) (harrays : ly.site.frame.hasArrays = true)
    (hstands : Stands ly.site.frame spared entry top .zero s) : ly.Stage spared entry t := by
  have hcode := ly.placed.hasCode_entry.tail
  have hrewind : Asm.rewind ly.site.frame = [.leaFrame .rsp ly.site.frame.size] := by
    simp [Asm.rewind, harrays]
  rw [hrewind] at hcode
  have hacts : ly.host.Acts {} answers s (.leaFrame .rsp ly.site.frame.size) t := passes_at hcode hpc rfl hmoves
  have hensures : ly.host.Ensures False [.leaFrame .rsp ly.site.frame.size] s fun t =>
      t.regs .rbp = s.regs .rbp ∧ t.regs .rsp = s.regs .rbp - BitVec.ofNat 64 ly.site.frame.size ∧
        t.mem = s.mem := by
    rw [Host.ensures_leaFrame]
    intro _
    rw [Host.ensures_nil]
    exact ⟨by simp [State.set], by simp, rfl⟩
  obtain ⟨hrbp, hrsp, hmem⟩ := hacts.ensures rfl hensures
  rw [hstands.sunk.rbp] at hrbp hrsp
  refine .bind ?_ (List.suffix_refl _)
    (stands_opened haligned hstands.footing.fits (hstands.saved.of_mem hmem) hrbp hrsp)
  rw [hacts.pc, hpc, base_eq, hrewind]
  rfl

/-- The next argument is taken in. -/
theorem Stage.take {x : Insn} {rest : List Insn} (hpc : s.pc + (x :: rest).length = ly.base)
    (hrest : x :: rest <:+ ly.params) (hstands : Stands ly.site.frame spared entry top .zero s)
    (hspares : spared → (Line.insn x).isForeign = true → Spares (entry.regs .rsp - 8) s t) :
    ly.Stage spared entry t := by
  have hlevel : AllLevel ly.params := bindParams_gives _ _ _ ly.placed.bind
  have hx : x.IsLevel := hlevel x (hrest.subset (by simp))
  have hplain := isPlain_of_allLevel hlevel x (hrest.subset (by simp))
  have hpasses := passes_at (hasCode_binding hrest hpc) rfl (Insn.isStraight_of_isPlain hplain) hmoves
  have hsinks : Sinks ly.site.Leads (· = .zero) .zero [.insn x] := hx ly.site.Leads .zero _ rfl
  obtain ⟨_, hstands', rfl⟩ := hstands.passes hsinks hpasses hspares
  refine .bind ?_ ((List.suffix_cons x rest).trans hrest) hstands'
  rw [hpasses.pc, ← hpc, List.length_cons]
  omega

/-- The frame of the caller comes back. -/
theorem Stage.leave (hpc : s.pc = ly.base + ly.body.length + 1) (hrbp : s.regs .rbp = entry.regs .rsp - 8)
    (hsaved : Saved spared entry s) : ly.Stage spared entry t := by
  have hacts : ly.host.Acts {} answers s (.mov .rsp .rbp) t := passes_at ly.hasCode_end.tail hpc rfl hmoves
  have hexec := hacts.exec rfl
  cases hexec
  exact .restoring (by simp [hpc]) (by simp [hrbp]) (hsaved.of_mem rfl)

theorem Stage.restore (hpc : s.pc = ly.base + ly.body.length + 2) (hrsp : s.regs .rsp = entry.regs .rsp - 8)
    (hsaved : Saved spared entry s) : ly.Stage spared entry t := by
  have hacts : ly.host.Acts {} answers s (.pop .rbp) t := passes_at ly.hasCode_end.tail.tail hpc rfl hmoves
  have hensures : ly.host.Ensures False [.pop .rbp] s fun t => t.regs .rsp = entry.regs .rsp ∧ t.mem = s.mem ∧
      t.regs .rbp = s.mem.read (entry.regs .rsp - 8).toNat := by
    rw [Host.ensures_pop]
    intro _
    rw [Host.ensures_nil]
    refine ⟨?_, rfl, by simp [hrsp]⟩
    simp only [State.next_regs, State.set_regs_ne, ne_eq, reduceCtorEq, not_false_eq_true, State.set_regs_same, hrsp]
    exact BitVec.sub_add_cancel ..
  obtain ⟨hrsp', hmem, hrbp'⟩ := hacts.ensures rfl hensures
  exact .returning (by rw [hacts.pc, hpc]) hrsp' (hsaved.of_mem hmem) fun hspared =>
    hrbp'.trans (hsaved.intact hspared).1

include hentry haligned in
/-- Each move leads from stage to stage. -/
theorem Stage.moves (hstage : ly.Stage spared entry s)
    (hspares : spared → ∀ l, ly.host.lines[s.pc]? = some l → l.isForeign = true →
      Spares (entry.regs .rsp - 8) s t) :
    ly.Stage spared entry t := by
  cases hstage with
  | symbol hs =>
    subst hs
    obtain ⟨_, rfl⟩ := passes_at ly.hasCode_start hentry rfl hmoves
    exact .saving rfl
  | saving hs => exact .save hmoves (by rw [hs, State.next_pc, hentry]) hs
  | saved hpc hrsp hsaved => exact .found haligned hmoves hpc hrsp hsaved
  | reserving hpc hsize hrbp hrsp hsaved => exact .reserve haligned hmoves hpc hsize hrbp hrsp hsaved
  | entry hpc hstands =>
    obtain ⟨_, rfl⟩ := passes_at ly.placed.hasCode_entry hpc rfl hmoves
    exact .entered (by rw [State.next_pc, hpc]) (hstands.congr rfl rfl)
  | rewinding hpc harrays hstands => exact .rewind haligned hmoves hpc harrays hstands
  | @binding rest top hpc hnonempty hrest hstands =>
    cases rest with
    | nil => exact absurd rfl hnonempty
    | cons x rest =>
      exact .take hmoves hpc hrest hstands fun hspared => hspares hspared _ (hasCode_binding hrest hpc).getElem?
  | point ha hpc hstands =>
    rcases exists_line ha with hlast | ⟨a', b, l, rest, ha', hnext, hlength, hbefore, hsinks⟩
    · obtain ⟨_, rfl⟩ := passes_at ly.hasCode_end (hlast ▸ hpc) rfl hmoves
      exact .leaving (by rw [State.next_pc, hpc, hlast]) hstands.sunk.rbp (hstands.saved.of_mem rfl)
    · have hpc' : s.pc = ly.base + (a'.before ++ []).length := by rw [List.append_nil, hpc, hlength]
      exact .advance ha' hnext hbefore hpc' hsinks hstands hmoves hspares
  | @inside a b done rest top depth ha hnext hbefore hdone hrest hpc hsinks hstands =>
    cases rest with
    | nil => exact absurd rfl hrest
    | cons l rest => exact .advance ha hnext hbefore hpc hsinks hstands hmoves hspares
  | leaving hpc hrbp hsaved => exact .leave hmoves hpc hrbp hsaved
  | restoring hpc hrsp hsaved => exact .restore hmoves hpc hrsp hsaved
  | returning hpc =>
    have hcode := ly.hasCode_end.tail.tail.tail
    rw [show ly.base + ly.body.length + 1 + 1 + 1 = s.pc by omega] at hcode
    exact absurd hcode.getElem? hmoves.ne_ret

omit hmoves

include hentry haligned in
/-- Every run from the symbol comes to some stage. -/
theorem stage_of_walk {n : Nat} (hstage : ly.Stage False entry s) (hwalk : ly.host.Walk {} answers n s t) :
    ly.Stage False entry t := by
  induction n generalizing s with
  | zero =>
    cases hwalk
    exact hstage
  | succ n ih =>
    obtain ⟨u, hmoves, hrest⟩ := hwalk
    exact ih (.moves hentry haligned hmoves hstage fun hspared => hspared.elim) hrest

include hentry haligned in
theorem stage_of_sparingWalk {n : Nat} (hstage : ly.Stage True entry s)
    (hwalk : ly.host.SparingWalk answers (entry.regs .rsp - 8) n s t) : ly.Stage True entry t := by
  induction n generalizing s with
  | zero =>
    cases hwalk
    exact hstage
  | succ n ih =>
    obtain ⟨u, hmoves, hspares, hrest⟩ := hwalk
    exact ih (.moves hentry haligned hmoves hstage fun _ => hspares) hrest

end Moves

/-- At a point between two instructions nothing is taken from the stack but for arrays. -/
theorem Stage.at_point (hstage : ly.Stage spared entry s) (hentry : entry.pc = ly.start) {c : Point}
    (hc : Boundary ly.options ly.site ly.opened c) (hpc : s.pc = ly.base + c.before.length) :
    ∃ top, Stands ly.site.frame spared entry top .zero s := by
  have hbase := ly.base_eq
  have hfirst := ly.entryLine_eq
  have hlast := hc.before_le ly.wellFormed ly.placed
  cases hstage with
  | symbol hs =>
    rw [hs] at hpc
    omega
  | saving hs =>
    rw [hs, State.next_pc] at hpc
    omega
  | saved hpc' => omega
  | reserving hpc' hsize =>
    rw [if_neg hsize] at hfirst
    omega
  | entry hpc' hstands => exact ⟨_, hstands⟩
  | rewinding hpc' _ hstands => exact ⟨_, hstands⟩
  | binding _ _ _ hstands => exact ⟨_, hstands⟩
  | point _ _ hstands => exact ⟨_, hstands⟩
  | @inside a b done rest top depth ha hnext hbefore hdone hrest hpc' hsinks hstands =>
    -- Strictly inside the lines of an instruction there is no point.
    have hdone := List.length_pos_iff.mpr hdone
    have hrest := List.length_pos_iff.mpr hrest
    have hlength := congrArg List.length hbefore
    simp only [List.length_append] at hpc' hlength
    have houtside := ha.not_inside hnext hc (by omega)
    omega
  | leaving hpc' => omega
  | restoring hpc' => omega
  | returning hpc' => omega

/-- What stands at the line that a run has come to: a line that opens or closes the frame, a line of
    the code between, or the return. -/
inductive Standing (ly : Layout) (spared : Prop) (entry s : State) (l : Line) : Prop where
  | frame (hl : l = .symbol ly.site.func.name ∨ l ∈ [.push .rbp, .mov .rbp .rsp, .grow ly.site.frame.size,
      .leaFrame .rsp ly.site.frame.size, .mov .rsp .rbp, .pop .rbp].map Line.insn)
  | code {top : Word} {depth : Depth} {Q : Depth → Prop} {rest : List Line}
      (hstands : Stands ly.site.frame spared entry top depth s) (hsinks : Sinks ly.site.Leads Q depth (l :: rest))
  | ret (hl : l = .insn .ret) (hrsp : s.regs .rsp = entry.regs .rsp)
      (hsaved : Saved spared entry s) (hrbp : spared → s.regs .rbp = entry.regs .rbp)

theorem Stage.standing (hstage : ly.Stage spared entry s) (hentry : entry.pc = ly.start)
    (hline : ly.host.lines[s.pc]? = some l) : ly.Standing spared entry s l := by
  have hat : ∀ {pc l' ls}, s.pc = pc → ly.host.HasCode pc (l' :: ls) → l = l' := by
    intro pc l' ls hpc hcode
    rw [hpc] at hline
    exact Option.some.inj (hline.symm.trans hcode.getElem?)
  have hmark : ∀ name, Sinks ly.site.Leads (fun _ => True) .zero [.mark name] := fun _ => ⟨rfl, rfl, trivial⟩
  cases hstage with
  | symbol hs => exact .frame (.inl (hat (by rw [hs, hentry]) ly.hasCode_start))
  | saving hs => exact .frame (.inr (by simp [hat (by rw [hs, State.next_pc, hentry]) ly.hasCode_start.tail]))
  | saved hpc => exact .frame (.inr (by simp [hat hpc ly.hasCode_start.tail.tail]))
  | reserving hpc hsize =>
    have hcode := ly.hasCode_afterBase
    rw [if_neg hsize] at hcode
    exact .frame (.inr (by simp [hat hpc hcode]))
  | entry hpc hstands =>
    rw [hat hpc ly.placed.hasCode_entry]
    exact .code hstands (hmark _)
  | rewinding hpc harrays hstands =>
    have hcode := ly.placed.hasCode_entry.tail
    rw [show Asm.rewind ly.site.frame = [.leaFrame .rsp ly.site.frame.size] by simp [Asm.rewind, harrays]] at hcode
    exact .frame (.inr (by simp [hat hpc hcode]))
  | @binding rest top hpc hnonempty hrest hstands =>
    cases rest with
    | nil => exact absurd rfl hnonempty
    | cons x rest =>
      have hlevel : AllLevel ly.params := bindParams_gives _ _ _ ly.placed.bind
      rw [hat rfl (hasCode_binding hrest hpc)]
      have hsinks : Sinks ly.site.Leads (fun _ => True) .zero [.insn x] :=
        hlevel x (hrest.subset (by simp)) ly.site.Leads .zero _ trivial
      exact .code hstands hsinks
  | point ha hpc hstands =>
    rcases exists_line ha with hlast | ⟨a', b, l', rest, ha', hnext, hlength, hbefore, hsinks⟩
    · rw [hat (by rw [hpc, hlast]) ly.hasCode_end]
      exact .code hstands (hmark _)
    · have hbefore' : b.before = a'.before ++ ([] ++ l' :: rest) := hbefore
      obtain ⟨_, _, hcode⟩ := hasCode_inside ha' hnext hbefore'
      rw [hat (by rw [hpc, List.append_nil, hlength]) hcode]
      exact .code hstands hsinks
  | @inside a b done rest top depth ha hnext hbefore hdone hrest hpc hsinks hstands =>
    cases rest with
    | nil => exact absurd rfl hrest
    | cons l' rest =>
      obtain ⟨_, _, hcode⟩ := hasCode_inside ha hnext hbefore
      rw [hat hpc hcode]
      exact .code hstands hsinks
  | leaving hpc => exact .frame (.inr (by simp [hat hpc ly.hasCode_end.tail]))
  | restoring hpc => exact .frame (.inr (by simp [hat hpc ly.hasCode_end.tail.tail]))
  | returning hpc hrsp hsaved hrbp => exact .ret (hat hpc ly.hasCode_end.tail.tail.tail) hrsp hsaved hrbp

end Layout

end TreeCompiler.Asm
