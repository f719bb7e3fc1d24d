import TreeCompiler.Proofs.Asm.JourneySteps

/-!
Instructions that are executed to their end. What instructions ensure leaves open whether the machine
faults on the way; here it does not, where the words that they use can be used. The instructions are
those that bring arguments to a function and copy them into its frame.
-/

namespace TreeCompiler.Asm

open Code

namespace Host

variable {h : Host} {s t : State} {pc pc' : Nat} {trap : Prop} {xs ys : List Insn} {ls : List Line}
  {P Q : State → Prop}

/-- A machine comes to a line in a state with a property. -/
def ComesTo (h : Host) (s : State) (pc : Nat) (Q : State → Prop) : Prop :=
  ∃ n t, h.run n s = .ok t ∧ t.pc = pc ∧ Q t

theorem ComesTo.refl (hQ : Q s) : h.ComesTo s s.pc Q :=
  ⟨0, s, rfl, rfl, hQ⟩

theorem ComesTo.step (hstep : h.step s = .ok t) (hrest : h.ComesTo t pc Q) : h.ComesTo s pc Q := by
  obtain ⟨n, u, hrun, hu⟩ := hrest
  exact ⟨n + 1, u, by rw [run_succ, hstep]; exact hrun, hu⟩

theorem ComesTo.trans (hfirst : h.ComesTo s pc P)
    (hrest : ∀ t, t.pc = pc → P t → h.ComesTo t pc' Q) : h.ComesTo s pc' Q := by
  obtain ⟨n, t, hrun, hpc, hP⟩ := hfirst
  induction n generalizing s with
  | zero =>
    cases hrun
    exact hrest _ hpc hP
  | succ n ih =>
    obtain ⟨u, hstep, hrun⟩ := bind_eq_ok_iff.mp hrun
    exact .step hstep (ih hrun)

theorem ComesTo.mono (hcomes : h.ComesTo s pc P) (himp : ∀ t, t.pc = pc → P t → Q t) : h.ComesTo s pc Q := by
  obtain ⟨n, t, hrun, hpc, hP⟩ := hcomes
  exact ⟨n, t, hrun, hpc, himp t hpc hP⟩

/-- An instruction that stands at a line is executed there. -/
theorem ComesTo.exec {x : Insn} (hcode : h.HasCode s.pc (.insn x :: ls)) (hexec : h.exec s x = .ok t)
    (hrest : h.ComesTo t pc Q) : h.ComesTo s pc Q :=
  .step (by simp only [Host.step, hcode.getElem?, hexec]) hrest

/-- A line without effect is passed over. -/
theorem ComesTo.silent {l : Line} (hcode : h.HasCode s.pc (l :: ls)) (hsilent : l.isSilent = true)
    (hrest : h.ComesTo s.next pc Q) : h.ComesTo s pc Q :=
  .step (step_of_isSilent hcode.getElem? hsilent) hrest

/-- Instructions are executed one after another, and lead to a state with a property. -/
def Achieves (h : Host) : List Insn → State → (State → Prop) → Prop
  | [], s, Q => Q s
  | x :: xs, s, Q => ∃ t, h.exec s x = .ok t ∧ h.Achieves xs t Q

theorem Achieves.append (hachieves : h.Achieves xs s fun t => h.Achieves ys t Q) :
    h.Achieves (xs ++ ys) s Q := by
  induction xs generalizing s with
  | nil => exact hachieves
  | cons x xs ih =>
    obtain ⟨t, hexec, hrest⟩ := hachieves
    exact ⟨t, hexec, ih hrest⟩

theorem Achieves.mono (hachieves : h.Achieves xs s P) (himp : ∀ t, P t → Q t) : h.Achieves xs s Q := by
  induction xs generalizing s with
  | nil => exact himp s hachieves
  | cons x xs ih =>
    obtain ⟨t, hexec, hrest⟩ := hachieves
    exact ⟨t, hexec, ih hrest⟩

/-- Where instructions stand that are executed to their end, what they ensure is reached. -/
theorem Achieves.comesTo (hachieves : h.Achieves xs s P) (hensures : h.Ensures trap xs s Q)
    (hcode : h.HasCode s.pc (xs.map .insn ++ ls)) :
    h.ComesTo s (s.pc + xs.length) fun t => P t ∧ Q t := by
  induction xs generalizing s with
  | nil => exact .refl ⟨hachieves, ensures_nil.mp hensures⟩
  | cons x xs ih =>
    obtain ⟨t, hexec, hachieves⟩ := hachieves
    rw [ensures_cons, hexec] at hensures
    obtain ⟨hpc, hensures⟩ := hensures
    have hcomes := ih hachieves hensures (hpc ▸ HasCode.tail hcode)
    rw [hpc, Nat.add_assoc, Nat.add_comm 1] at hcomes
    exact .exec hcode hexec hcomes

theorem exec_push {r : Register} (haccess : h.accessible (s.regs .rsp - 8).toNat = true) :
    h.exec s (.push r) = .ok { s.set .rsp (s.regs .rsp - 8) with
      mem := s.mem.write (s.regs .rsp - 8).toNat (s.regs r) }.next := by
  simp only [exec, push, store, if_pos haccess]
  rfl

theorem exec_grow {bytes : Int} (hfits : fits bytes = true) :
    h.exec s (.grow bytes) = .ok (s.set .rsp (s.regs .rsp - BitVec.ofInt 64 bytes)).clearFlags.next :=
  if_pos hfits

end Host

/-- Instructions that move values between registers and words of the frame, at distances from its
    base that have a property. -/
def Insn.Within (P : Int → Prop) : Insn → Prop
  | .mov (.tracked _) _ | .movConst .. | .leaString .. => True
  | .load _ (.frame offset) | .store (.frame offset) _ => P offset
  | _ => False

variable {h : Host} {site : Site} {s : State} {P : Int → Prop} {xs : List Insn} {r : Reg} {i : Nat}

/-- A word at a distance from the base of the frame can be used. -/
def Host.Spans (h : Host) (s : State) (offset : Int) : Prop :=
  fits offset = true ∧ h.accessible (s.slotAddress offset) = true

theorem achieves_of_within (hP : ∀ offset, P offset → h.Spans s offset) (hxs : ∀ x ∈ xs, x.Within P) :
    h.Achieves xs s fun t => t.regs .rsp = s.regs .rsp ∧ t.regs .rbp = s.regs .rbp := by
  induction xs generalizing s with
  | nil => exact ⟨rfl, rfl⟩
  | cons x xs ih =>
    have hx := hxs x (by simp)
    obtain ⟨t, hexec, hrsp, hrbp⟩ : ∃ t, h.exec s x = .ok t ∧ t.regs .rsp = s.regs .rsp ∧
        t.regs .rbp = s.regs .rbp := by
      cases x with
      | mov dst src =>
        cases dst with
        | tracked r => exact ⟨_, rfl, by simp [State.set_regs_ne], by simp [State.set_regs_ne]⟩
        | _ => exact hx.elim
      | movConst dst v => exact ⟨_, rfl, by simp [State.set_regs_ne], by simp [State.set_regs_ne]⟩
      | leaString dst index => exact ⟨_, rfl, by simp [State.set_regs_ne], by simp [State.set_regs_ne]⟩
      | load dst src =>
        cases src with
        | frame offset =>
          refine ⟨_, Host.exec_load_eq_ok_iff.mpr ⟨(hP offset hx).1, (hP offset hx).2, rfl⟩, ?_, ?_⟩ <;>
            simp [State.set_regs_ne]
        | _ => exact hx.elim
      | store dst src =>
        cases dst with
        | frame offset =>
          exact ⟨_, Host.exec_store_eq_ok_iff.mpr ⟨(hP offset hx).1, (hP offset hx).2, rfl⟩, rfl, rfl⟩
        | _ => exact hx.elim
      | _ => exact hx.elim
    have hspans : ∀ offset, P offset → h.Spans t offset := by
      intro offset hoffset
      simpa only [Host.Spans, State.slotAddress, hrbp] using hP offset hoffset
    refine ⟨t, hexec, (ih hspans fun y hy => hxs y (by simp [hy])).mono ?_⟩
    rintro u ⟨hrsp', hrbp'⟩
    exact ⟨hrsp'.trans hrsp, hrbp'.trans hrbp⟩

/-- The distances at which a frame has slots. -/
def Frame.HasSlot (fr : Frame) (offset : Int) : Prop :=
  ∃ o, fr.offset? o = some offset

section Within

variable (hP : ∀ offset, site.frame.HasSlot offset → P offset)
include hP

theorem Insn.Loads.within {x : Insn} (hload : x.Loads site.frame r) : x.Within P := by
  cases hload with
  | @slot o offset hoffset => exact hP offset ⟨o, hoffset⟩
  | _ => trivial

theorem loadRegArgs_gives_within {args : List (Option Operand)} {regs : List Reg} :
    (loadRegArgs site i args regs).Gives (Each (Insn.Within P)) :=
  loadRegArgs_each fun _ _ _ hload => hload.within hP

theorem overwriteArgs_gives_within {args : List (Nat × Option Operand)} (hargs : ∀ a ∈ args, P (stackArg a.1)) :
    (overwriteArgs site args).Gives (Each (Insn.Within P)) :=
  overwriteArgs_each (fun _ hload => hload.within hP) hargs

theorem bindParams_gives_within {os : List (Option Operand)}
    (hargs : ∀ j, 6 ≤ j → j < i + os.length → P (stackArg j)) :
    (bindParams site i os (Reg.args.drop i)).Gives (Each (Insn.Within P)) :=
  bindParams_each hargs fun o offset _ hoffset => hP offset ⟨o, hoffset⟩

end Within

/-- Arguments are pushed where the stack can be used. -/
theorem pushArgs_gives_achieves {args : List (Nat × Option Operand)} :
    (pushArgs site args).Gives fun xs => ∀ s, (∀ offset, site.frame.HasSlot offset → h.Spans s offset) →
      (∀ k, k < args.length → h.accessible (s.regs .rsp - BitVec.ofNat 64 (8 * (k + 1))).toNat = true) →
        h.Achieves xs s fun t => t.regs .rbp = s.regs .rbp := by
  induction args with
  | nil => exact .pure fun s _ _ => rfl
  | cons a args ih =>
    refine .bind (.within (load_each fun _ hload => hload.within fun _ hslot => hslot)) fun code hcode =>
      .bind ih fun rest hrest => .pure fun s hspans hstack => ?_
    rw [List.append_assoc]
    refine .append ((achieves_of_within hspans hcode).mono ?_)
    rintro t ⟨hrsp, hrbp⟩
    have hpush : h.accessible (t.regs .rsp - 8).toNat = true := by
      rw [hrsp]
      exact hstack 0 (by simp)
    refine ⟨_, Host.exec_push hpush, ?_⟩
    refine (hrest _ (fun offset hslot => ?_) fun k hk => ?_).mono fun u hu => hu.trans ?_
    · simpa [Host.Spans, State.slotAddress, State.set_regs_ne, hrbp] using hspans offset hslot
    · have hbelow := hstack (k + 1) (by simpa using hk)
      rw [← hrsp, show 8 * (k + 1 + 1) = 8 + 8 * (k + 1) by omega, BitVec.ofNat_add, ← BitVec.sub_sub] at hbelow
      simpa using hbelow
    · simp [State.set_regs_ne, hrbp]

/-- The frame of a function is opened where the stack can be used. -/
theorem prologue_achieves (hfits : site.frame.Fits) (haccess : h.accessible (s.regs .rsp - 8).toNat = true) :
    h.Achieves (prologue site.frame) s fun t =>
      t.regs .rbp = s.regs .rsp - 8 ∧ t.regs .rsp = t.regs .rbp - BitVec.ofNat 64 site.frame.size := by
  have hsize : fits (site.frame.size : Int) = true := by
    rw [fits_iff]
    unfold Frame.Fits at hfits
    omega
  refine ⟨_, Host.exec_push haccess, _, rfl, ?_⟩
  split
  · next hzero => simp [Host.Achieves, State.set_regs_ne, hzero]
  · exact ⟨_, Host.exec_grow hsize, by simp [Host.Achieves, State.set_regs_ne, BitVec.ofInt_natCast]⟩

/-- Behind its entry a function finds its frame and its arguments as they were. -/
theorem rewind_keeps (frame : Frame) (s : State) : h.Ensures trap (rewind frame) s fun t =>
    (∀ r, t.regs (.tracked r) = s.regs (.tracked r)) ∧ t.regs .rbp = s.regs .rbp ∧ t.mem = s.mem := by
  unfold rewind
  split
  · rw [Host.ensures_leaFrame]
    intro _
    rw [Host.ensures_nil]
    exact ⟨fun r => by simp [State.set_regs_ne], by simp [State.set_regs_ne], rfl⟩
  · exact Host.ensures_nil.mpr ⟨fun _ => rfl, rfl, rfl⟩

theorem rewind_achieves (hfits : site.frame.Fits) :
    h.Achieves (rewind site.frame) s fun t => t.regs .rbp = s.regs .rbp := by
  have hsize : fits (-(site.frame.size : Int)) = true := by
    rw [fits_iff]
    unfold Frame.Fits at hfits
    omega
  unfold rewind
  split
  · exact ⟨_, if_pos hsize, by simp [Host.Achieves, State.set_regs_ne]⟩
  · rfl

end TreeCompiler.Asm
