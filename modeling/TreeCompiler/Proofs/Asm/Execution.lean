import TreeCompiler.Proofs.Asm.Machine
import TreeCompiler.Proofs.Outcome

namespace TreeCompiler.Asm

namespace State

variable (s : State) (r r' : Register) (v : Word)

@[simp] theorem set_regs_same : (s.set r v).regs r = v := by simp [set]

theorem set_regs_ne {r r' : Register} (hne : r' ≠ r) : (s.set r v).regs r' = s.regs r' := by
  simp [set, hne]

@[simp] theorem set_mem : (s.set r v).mem = s.mem := rfl

@[simp] theorem set_pc : (s.set r v).pc = s.pc := rfl

@[simp] theorem set_flags : (s.set r v).flags = s.flags := rfl

@[simp] theorem next_regs : s.next.regs = s.regs := rfl

@[simp] theorem next_mem : s.next.mem = s.mem := rfl

@[simp] theorem next_pc : s.next.pc = s.pc + 1 := rfl

@[simp] theorem next_flags : s.next.flags = s.flags := rfl

@[simp] theorem clearFlags_regs : s.clearFlags.regs = s.regs := rfl

@[simp] theorem clearFlags_mem : s.clearFlags.mem = s.mem := rfl

@[simp] theorem clearFlags_pc : s.clearFlags.pc = s.pc := rfl

end State

theorem fits_iff {v : Int} : fits v = true ↔ -2 ^ 31 ≤ v ∧ v < 2 ^ 31 :=
  decide_eq_true_iff

/-- Lines without effect. -/
def Line.isSilent : Line → Bool
  | .insn _ | .string .. => false
  | _ => true

/-- A machine may always fault, and stop at a division where the division has no result. -/
def Halt.isAllowed (trap : Prop) : Halt → Prop
  | .fault => True
  | .divideError => trap
  | .left _ => False
  | .exited _ => False

namespace Host

variable (h : Host)

/-- Lines that stand in the text from a position on. -/
def HasCode (pc : Nat) (ls : List Line) : Prop :=
  ls <+: h.lines.drop pc

/-- Executing instructions one after another leads to a state with a property, unless the machine
    stops where it may. -/
def Ensures (trap : Prop) : List Insn → State → (State → Prop) → Prop
  | [], s, Q => Q s
  | x :: xs, s, Q =>
    match h.exec s x with
    | .ok t => t.pc = s.pc + 1 ∧ Ensures trap xs t Q
    | .error e => e.isAllowed trap

variable {h} {s : State} {pc : Nat} {e : Halt}

theorem HasCode.left {as bs : List Line} (hcode : h.HasCode pc (as ++ bs)) : h.HasCode pc as :=
  (List.prefix_append as bs).trans hcode

theorem HasCode.right {as bs : List Line} (hcode : h.HasCode pc (as ++ bs)) :
    h.HasCode (pc + as.length) bs := by
  obtain ⟨rest, hrest⟩ := hcode
  refine ⟨rest, ?_⟩
  rw [← List.drop_drop, ← hrest, List.append_assoc, List.drop_left]

theorem HasCode.tail {l : Line} {ls : List Line} (hcode : h.HasCode pc (l :: ls)) :
    h.HasCode (pc + 1) ls := by
  rw [← List.singleton_append] at hcode
  exact hcode.right

theorem HasCode.getElem? {l : Line} {ls : List Line} (hcode : h.HasCode pc (l :: ls)) :
    h.lines[pc]? = some l := by
  obtain ⟨rest, hrest⟩ := hcode
  have hget := congrArg List.head? hrest
  simpa using hget.symm

section Ensures

variable {trap : Prop} {xs ys : List Insn} {Q Q' : State → Prop}

@[simp] theorem ensures_nil : h.Ensures trap [] s Q ↔ Q s := Iff.rfl

theorem ensures_cons {x : Insn} : h.Ensures trap (x :: xs) s Q ↔
    match h.exec s x with
    | .ok t => t.pc = s.pc + 1 ∧ h.Ensures trap xs t Q
    | .error e => e.isAllowed trap := Iff.rfl

/-- What the first instructions ensure is carried on by the others, which may stop in more places. -/
theorem Ensures.bind {trap' : Prop} (hensures : h.Ensures trap xs s Q) (hrest : ∀ t, Q t → h.Ensures trap' ys t Q')
    (htrap : trap → trap') : h.Ensures trap' (xs ++ ys) s Q' := by
  induction xs generalizing s with
  | nil => exact hrest s hensures
  | cons x xs ih =>
    simp only [List.cons_append, ensures_cons] at hensures ⊢
    cases hexec : h.exec s x with
    | ok t =>
      rw [hexec] at hensures
      exact ⟨hensures.1, ih hensures.2⟩
    | error e =>
      rw [hexec] at hensures
      cases e with
      | divideError => exact htrap hensures
      | _ => exact hensures

theorem Ensures.mono (hensures : h.Ensures trap xs s Q) (himp : ∀ t, Q t → Q' t) :
    h.Ensures trap xs s Q' := by
  rw [← List.append_nil xs]
  exact hensures.bind himp id

theorem Ensures.append (hensures : h.Ensures trap xs s fun t => h.Ensures trap ys t Q) :
    h.Ensures trap (xs ++ ys) s Q :=
  hensures.bind (fun _ hys => hys) id

theorem Ensures.weaken {trap' : Prop} (hensures : h.Ensures trap xs s Q) (htrap : trap → trap') :
    h.Ensures trap' xs s Q := by
  rw [← List.append_nil xs]
  exact hensures.bind (fun _ hQ => hQ) htrap

/-- What is ensured is ensured where an instruction leads. -/
theorem Ensures.of_exec {x : Insn} {t : State} (hensures : h.Ensures trap (x :: xs) s Q)
    (hexec : h.exec s x = .ok t) : h.Ensures trap xs t Q := by
  simp only [ensures_cons, hexec] at hensures
  exact hensures.2

/-- Instructions that always hand control on to the next line. -/
theorem ensures_cons_ok {x : Insn} {t : State} (hexec : h.exec s x = .ok t) (hpc : t.pc = s.pc + 1) :
    h.Ensures trap (x :: xs) s Q ↔ h.Ensures trap xs t Q := by
  simp only [ensures_cons, hexec, hpc, true_and]

/-- Instructions at which the machine stops. -/
theorem ensures_cons_error {x : Insn} (hexec : h.exec s x = .error e) :
    h.Ensures trap (x :: xs) s Q ↔ e.isAllowed trap := by
  simp only [ensures_cons, hexec]

-- The equations of the machine are generated here, once for all the lemmas about its instructions.
attribute [local simp] exec

@[simp] theorem ensures_mov {dst src : Register} : h.Ensures trap (.mov dst src :: xs) s Q ↔
    h.Ensures trap xs (s.set dst (s.regs src)).next Q := ensures_cons_ok rfl rfl

@[simp] theorem ensures_movConst {dst : Reg} {v : Int} : h.Ensures trap (.movConst dst v :: xs) s Q ↔
    h.Ensures trap xs (s.set dst (BitVec.ofInt 64 v)).next Q := ensures_cons_ok rfl rfl

@[simp] theorem ensures_leaString {dst : Reg} {k : Nat} : h.Ensures trap (.leaString dst k :: xs) s Q ↔
    h.Ensures trap xs (s.set dst (h.dataAddress k)).next Q := ensures_cons_ok rfl rfl

@[simp] theorem ensures_arith {op : Arith} {dst src : Reg} :
    h.Ensures trap (.arith op dst src :: xs) s Q ↔
      h.Ensures trap xs (s.set dst (op.eval (s.regs dst) (s.regs src))).clearFlags.next Q :=
  ensures_cons_ok rfl rfl

@[simp] theorem ensures_step {op : Step} {dst : Reg} : h.Ensures trap (.step op dst :: xs) s Q ↔
    h.Ensures trap xs (s.set dst (op.eval (s.regs dst))).clearFlags.next Q := ensures_cons_ok rfl rfl

@[simp] theorem ensures_signExtend : h.Ensures trap (.signExtend :: xs) s Q ↔
    h.Ensures trap xs (s.set (.tracked .rdx) (if (s.regs (.tracked .rax)).msb then -1 else 0)).next Q :=
  ensures_cons_ok rfl rfl

@[simp] theorem ensures_shiftLeft {dst : Reg} : h.Ensures trap (.shiftLeft dst :: xs) s Q ↔
    h.Ensures trap xs (s.set dst (s.regs dst <<<
      (((s.regs (.tracked .rcx)).setWidth 8).toNat % 64))).clearFlags.next Q :=
  ensures_cons_ok rfl rfl

@[simp] theorem ensures_shiftRight {dst : Reg} : h.Ensures trap (.shiftRight dst :: xs) s Q ↔
    h.Ensures trap xs (s.set dst ((s.regs dst).sshiftRight
      (((s.regs (.tracked .rcx)).setWidth 8).toNat % 64))).clearFlags.next Q :=
  ensures_cons_ok rfl rfl

@[simp] theorem ensures_compare {left right : Reg} : h.Ensures trap (.compare left right :: xs) s Q ↔
    h.Ensures trap xs { s with flags := some (.ofDifference (s.regs left) (s.regs right)) }.next Q :=
  ensures_cons_ok rfl rfl

@[simp] theorem ensures_compareZero {left : Reg} : h.Ensures trap (.compareZero left :: xs) s Q ↔
    h.Ensures trap xs { s with flags := some (.ofDifference (s.regs left) 0) }.next Q :=
  ensures_cons_ok rfl rfl

@[simp] theorem ensures_widenFlag : h.Ensures trap (.widenFlag :: xs) s Q ↔
    h.Ensures trap xs (s.set (.tracked .rax)
      (((s.regs (.tracked .rax)).setWidth 8).setWidth 64)).next Q :=
  ensures_cons_ok rfl rfl

theorem ensures_setFlag {test : Code.CompareOp} {f : Flags} (hflags : s.flags = some f) :
    h.Ensures trap (.setFlag test :: xs) s Q ↔
      h.Ensures trap xs (s.set (.tracked .rax) ((s.regs (.tracked .rax)).extractLsb' 8 56 ++
        (if f.holds test then 1 else 0 : BitVec 8))).next Q :=
  ensures_cons_ok (by simp only [exec, hflags]) rfl

@[simp] theorem ensures_grow {bytes : Int} : h.Ensures trap (.grow bytes :: xs) s Q ↔
    (fits bytes = true →
      h.Ensures trap xs (s.set .rsp (s.regs .rsp - BitVec.ofInt 64 bytes)).clearFlags.next Q) := by
  by_cases hfits : fits bytes = true <;> simp [ensures_cons, exec, hfits, Halt.isAllowed]

@[simp] theorem ensures_shrink {bytes : Int} : h.Ensures trap (.shrink bytes :: xs) s Q ↔
    (fits bytes = true →
      h.Ensures trap xs (s.set .rsp (s.regs .rsp + BitVec.ofInt 64 bytes)).clearFlags.next Q) := by
  by_cases hfits : fits bytes = true <;> simp [ensures_cons, exec, hfits, Halt.isAllowed]

@[simp] theorem ensures_leaFrame {dst : Register} {depth : Nat} :
    h.Ensures trap (.leaFrame dst depth :: xs) s Q ↔
      (fits (-depth) = true →
        h.Ensures trap xs (s.set dst (s.regs .rbp - BitVec.ofNat 64 depth)).next Q) := by
  by_cases hfits : fits (-depth) = true <;> simp [ensures_cons, exec, hfits, Halt.isAllowed]

@[simp] theorem ensures_load {dst : Reg} {src : Address} : h.Ensures trap (.load dst src :: xs) s Q ↔
    (src.isEncodable = true → h.accessible (src.resolve s).toNat = true →
      h.Ensures trap xs (s.set dst (s.mem.read (src.resolve s).toNat)).next Q) := by
  by_cases hfits : src.isEncodable = true <;>
    by_cases haccess : h.accessible (src.resolve s).toNat = true <;>
      simp [ensures_cons, exec, load, hfits, haccess, bind, Except.bind, pure, Except.pure, Halt.isAllowed]

@[simp] theorem ensures_store {dst : Address} {src : Reg} : h.Ensures trap (.store dst src :: xs) s Q ↔
    (dst.isEncodable = true → h.accessible (dst.resolve s).toNat = true →
      h.Ensures trap xs
        { s with mem := s.mem.write (dst.resolve s).toNat (s.regs src) }.next Q) := by
  by_cases hfits : dst.isEncodable = true <;>
    by_cases haccess : h.accessible (dst.resolve s).toNat = true <;>
      simp [ensures_cons, exec, store, hfits, haccess, Except.map, State.next, Halt.isAllowed]

@[simp] theorem ensures_storeConst {dst : Address} {v : Int} :
    h.Ensures trap (.storeConst dst v :: xs) s Q ↔
      (dst.isEncodable = true → fits v = true → h.accessible (dst.resolve s).toNat = true →
        h.Ensures trap xs
          { s with mem := s.mem.write (dst.resolve s).toNat (BitVec.ofInt 64 v) }.next Q) := by
  by_cases hfits : dst.isEncodable = true <;> by_cases hv : fits v = true <;>
    by_cases haccess : h.accessible (dst.resolve s).toNat = true <;>
      simp [ensures_cons, exec, store, hfits, hv, haccess, Except.map, State.next, Halt.isAllowed]

@[simp] theorem ensures_push {r : Register} : h.Ensures trap (.push r :: xs) s Q ↔
    (h.accessible (s.regs .rsp - 8).toNat = true →
      h.Ensures trap xs { s.set .rsp (s.regs .rsp - 8) with
        mem := s.mem.write (s.regs .rsp - 8).toNat (s.regs r) }.next Q) := by
  by_cases haccess : h.accessible (s.regs .rsp - 8).toNat = true <;>
    simp only [ensures_cons, exec, push, store, haccess, if_true, if_false, Except.map, State.next,
      State.set_pc, State.set_mem, true_and, false_imp_iff, true_imp_iff, Halt.isAllowed,
      Bool.false_eq_true]

@[simp] theorem ensures_pop {r : Register} : h.Ensures trap (.pop r :: xs) s Q ↔
    (h.accessible (s.regs .rsp).toNat = true →
      h.Ensures trap xs ((s.set .rsp (s.regs .rsp + 8)).set r
        (s.mem.read (s.regs .rsp).toNat)).next Q) := by
  by_cases haccess : h.accessible (s.regs .rsp).toNat = true <;>
    simp [ensures_cons, exec, pop, load, haccess, bind, Except.bind, pure, Except.pure, Halt.isAllowed]

end Ensures

theorem run_succ {n : Nat} : h.run (n + 1) s = h.step s >>= h.run n := rfl

/-- A machine that stops and stands at an instruction executes it. -/
theorem run_exec {n : Nat} {x : Insn} {ls : List Line} (hcode : h.HasCode s.pc (.insn x :: ls))
    (hrun : h.run n s = .error e) : ∃ m, n = m + 1 ∧ (h.exec s x >>= h.run m) = .error e := by
  cases n with
  | zero => cases hrun
  | succ m =>
    refine ⟨m, rfl, ?_⟩
    have hstep : h.step s = h.exec s x := by simp only [step, hcode.getElem?]
    rw [← hstep]
    exact hrun

theorem run_insn {n : Nat} {x : Insn} {ls : List Line} (hcode : h.HasCode s.pc (.insn x :: ls))
    (hrun : h.run n s = .error e) :
    ∃ m, n = m + 1 ∧ (h.exec s x = .error e ∨ ∃ t, h.exec s x = .ok t ∧ h.run m t = .error e) := by
  obtain ⟨m, rfl, hexec⟩ := run_exec hcode hrun
  exact ⟨m, rfl, bind_eq_error_iff.mp hexec⟩

/-- A machine that stops and stands at a line without effect passes over it. -/
theorem run_silent {n : Nat} {l : Line} {ls : List Line} (hcode : h.HasCode s.pc (l :: ls))
    (hsilent : l.isSilent = true) (hrun : h.run n s = .error e) :
    ∃ m, n = m + 1 ∧ h.run m s.next = .error e := by
  cases n with
  | zero => cases hrun
  | succ m =>
    refine ⟨m, rfl, ?_⟩
    have hstep : h.step s = .ok s.next := by
      simp only [step, hcode.getElem?]
      cases l <;> first | rfl | simp [Line.isSilent] at hsilent
    rw [run_succ, hstep] at hrun
    exact hrun

/-- A machine that stops without a fault, and stands at instructions that ensure a property,
    comes to a state behind them with that property, unless it stops at a division. -/
theorem run_ensures {n : Nat} {trap : Prop} {xs : List Insn} {ls : List Line} {Q : State → Prop}
    (hcode : h.HasCode s.pc (xs.map .insn ++ ls)) (hensures : h.Ensures trap xs s Q)
    (hrun : h.run n s = .error e) (hfault : e ≠ .fault) :
    (∃ m t, n = m + xs.length ∧ Q t ∧ t.pc = s.pc + xs.length ∧ h.run m t = .error e) ∨
      e = .divideError ∧ trap := by
  induction xs generalizing s n with
  | nil => exact .inl ⟨n, s, rfl, hensures, rfl, hrun⟩
  | cons x xs ih =>
    obtain ⟨m, rfl, hstep⟩ := run_insn hcode hrun
    simp only [ensures_cons] at hensures
    rcases hstep with hexec | ⟨t, hexec, hrest⟩
    · rw [hexec] at hensures
      cases e with
      | fault => exact absurd rfl hfault
      | divideError => exact .inr ⟨rfl, hensures⟩
      | left t => exact hensures.elim
      | exited code => exact hensures.elim
    · rw [hexec] at hensures
      have hcode' : h.HasCode t.pc (xs.map .insn ++ ls) := by
        rw [hensures.1]
        exact HasCode.tail hcode
      rcases ih hcode' hensures.2 hrest with ⟨k, u, rfl, hQ, hu, hend⟩ | htrap
      · refine .inl ⟨k, u, by simp only [List.length_cons]; omega, hQ, ?_, hend⟩
        rw [hu, hensures.1, List.length_cons]
        omega
      · exact .inr htrap

/-- Where no division can trap, the machine comes to the end of the instructions. -/
theorem run_past {n : Nat} {xs : List Insn} {ls : List Line} {Q : State → Prop}
    (hcode : h.HasCode s.pc (xs.map .insn ++ ls)) (hensures : h.Ensures False xs s Q)
    (hrun : h.run n s = .error e) (hfault : e ≠ .fault) :
    ∃ m t, n = m + xs.length ∧ Q t ∧ t.pc = s.pc + xs.length ∧ h.run m t = .error e :=
  (run_ensures hcode hensures hrun hfault).resolve_right fun htrap => htrap.2

-- From here on what instructions ensure is only known through the lemmas above.
attribute [irreducible] Ensures

end Host

end TreeCompiler.Asm
