import TreeCompiler.Asm.Instr
import TreeCompiler.Proofs.Asm.Arrays
import TreeCompiler.Proofs.Asm.Execution

namespace TreeCompiler.Asm

open Code

namespace State

/-- Both states have the same memory and the same frame. -/
structure Keeps (s t : State) : Prop where
  mem : t.mem = s.mem
  rsp : t.regs .rsp = s.regs .rsp
  rbp : t.regs .rbp = s.regs .rbp

namespace Keeps

variable {s t u : State}

theorem refl (s : State) : s.Keeps s :=
  ⟨rfl, rfl, rfl⟩

theorem trans (hst : s.Keeps t) (htu : t.Keeps u) : s.Keeps u :=
  ⟨htu.mem.trans hst.mem, htu.rsp.trans hst.rsp, htu.rbp.trans hst.rbp⟩

@[simp] theorem set (s : State) (r : Reg) (v : Word) : s.Keeps (s.set (.tracked r) v) :=
  ⟨rfl, s.set_regs_ne v (by simp), s.set_regs_ne v (by simp)⟩

@[simp] theorem next (s : State) : s.Keeps s.next :=
  ⟨rfl, rfl, rfl⟩

@[simp] theorem clearFlags (s : State) : s.Keeps s.clearFlags :=
  ⟨rfl, rfl, rfl⟩

end Keeps

end State

/-- A dividend that is extended by its sign is the same number. -/
theorem toInt_signExtended (a : Word) :
    ((if a.msb then -1 else 0 : Word) ++ a).toInt = a.toInt := by
  rw [BitVec.toInt_append, BitVec.toInt_eq_msb_cond a]
  cases a.msb with
  | true =>
    simp
    omega
  | false => simp

/-- Machine division has a result exactly where the division of words has one. -/
theorem tdiv_overflow_iff (a b : Word) :
    (b = 0 ∨ a.toInt.tdiv b.toInt < -2 ^ 63 ∨ 2 ^ 63 ≤ a.toInt.tdiv b.toInt) ↔ divides a b = false := by
  by_cases hb : b = 0
  · simp [hb, divides]
  · by_cases hmin : a = BitVec.intMin 64 ∧ b = -1
    · obtain ⟨rfl, rfl⟩ := hmin
      exact iff_of_true (.inr (.inr (by decide))) (by decide)
    · have hquotient := BitVec.toInt_sdiv_of_ne_or_ne a b (by
        by_cases ha : a = BitVec.intMin 64
        · exact .inr fun heq => hmin ⟨ha, heq⟩
        · exact .inl ha)
      have hlo := BitVec.le_toInt (a.sdiv b)
      have hhi := BitVec.toInt_lt (x := a.sdiv b)
      rw [hquotient] at hlo hhi
      refine iff_of_false (by rintro (hzero | hsmall | hlarge) <;> first | exact hb hzero | omega) ?_
      simp only [divides, ne_eq, hb, hmin, not_false_iff, and_self, decide_true, Bool.true_eq_false]

variable {h : Host} {s : State} {Q : State → Prop}

/-- A division leaves quotient and remainder in the registers of the dividend, or stops where
    there are none. -/
theorem ensures_divide {xs : List Insn} {trap : Prop} {a b : Word}
    (hrax : s.regs (.tracked .rax) = a) (hrcx : s.regs (.tracked .rcx) = b)
    (hrdx : s.regs (.tracked .rdx) = if a.msb then -1 else 0) (htrap : divides a b = false → trap)
    (hrest : divides a b = true → h.Ensures trap xs
      ((s.set (.tracked .rax) (a.sdiv b)).set (.tracked .rdx) (a.srem b)).clearFlags.next Q) :
    h.Ensures trap (.divide .rcx :: xs) s Q := by
  have hdivide : h.exec s (.divide .rcx) = if divides a b then
      .ok ((s.set (.tracked .rax) (a.sdiv b)).set (.tracked .rdx) (a.srem b)).clearFlags.next
      else .error .divideError := by
    simp only [Host.exec, State.divide, hrax, hrcx, hrdx, toInt_signExtended]
    by_cases hdivides : divides a b = true
    · have hsmall : ¬ (b = 0 ∨ a.toInt.tdiv b.toInt < -2 ^ 63 ∨ 2 ^ 63 ≤ a.toInt.tdiv b.toInt) := by
        rw [tdiv_overflow_iff, hdivides]
        decide
      have hquotient : BitVec.ofInt 64 (a.toInt.tdiv b.toInt) = a.sdiv b := by
        apply BitVec.eq_of_toInt_eq
        rw [BitVec.toInt_ofInt, BitVec.toInt_sdiv]
      have hremainder : BitVec.ofInt 64 (a.toInt.tmod b.toInt) = a.srem b := by
        rw [← BitVec.toInt_srem, BitVec.ofInt_toInt]
      rw [if_neg hsmall, if_pos hdivides, hquotient, hremainder]
      rfl
    · have hlarge : b = 0 ∨ a.toInt.tdiv b.toInt < -2 ^ 63 ∨ 2 ^ 63 ≤ a.toInt.tdiv b.toInt := by
        rw [tdiv_overflow_iff]
        simpa using hdivides
      rw [if_pos hlarge, if_neg hdivides]
      rfl
  cases hdivides : divides a b with
  | true =>
    rw [Host.ensures_cons_ok (by rw [hdivide, hdivides]; rfl) rfl]
    exact hrest hdivides
  | false =>
    simp only [hdivides, Bool.false_eq_true, if_false] at hdivide
    rw [Host.ensures_cons_error hdivide]
    exact htrap hdivides

/-- The code of a binary operation combines the first two registers as the operation does. -/
theorem binaryCode_ensures (op : BinaryOp) {a b : Word} (hrax : s.regs (.tracked .rax) = a)
    (hrcx : s.regs (.tracked .rcx) = b)
    (hQ : ∀ v t, op.eval a b = some v → t.regs (.tracked .rax) = v → s.Keeps t → Q t) :
    h.Ensures (op.eval a b = none) (binaryCode op) s Q := by
  have hcount : ((b.setWidth 8).toNat % 64) = b.toNat % 64 := by
    simp only [BitVec.toNat_setWidth]
    omega
  have hkeep : ∀ (t : State) (v : Word), s.Keeps t → s.Keeps (t.set (.tracked .rax) v).clearFlags.next :=
    fun t v ht => ((ht.trans (.set t .rax v)).trans (.clearFlags _)).trans (.next _)
  cases op
  case div =>
    simp only [binaryCode, Host.ensures_signExtend]
    refine ensures_divide (a := a) (b := b) ?_ ?_ ?_ ?_ ?_
    · simpa [State.set_regs_ne] using hrax
    · simpa [State.set_regs_ne] using hrcx
    · simp [hrax]
    · intro hdivides
      simp [BinaryOp.eval, hdivides]
    · intro hdivides
      rw [Host.ensures_nil]
      refine hQ (a.sdiv b) _ (by simp [BinaryOp.eval, hdivides]) ?_ ?_
      · simp [State.set_regs_ne]
      · exact ⟨rfl, by simp [State.set_regs_ne], by simp [State.set_regs_ne]⟩
  case mod =>
    simp only [binaryCode, Host.ensures_signExtend]
    refine ensures_divide (a := a) (b := b) ?_ ?_ ?_ ?_ ?_
    · simpa [State.set_regs_ne] using hrax
    · simpa [State.set_regs_ne] using hrcx
    · simp [hrax]
    · intro hdivides
      simp [BinaryOp.eval, hdivides]
    · intro hdivides
      rw [Host.ensures_mov, Host.ensures_nil]
      refine hQ (a.srem b) _ (by simp [BinaryOp.eval, hdivides]) ?_ ?_
      · simp
      · exact ⟨rfl, by simp [State.set_regs_ne], by simp [State.set_regs_ne]⟩
  case shl =>
    simp only [binaryCode, Host.ensures_shiftLeft, Host.ensures_nil, hrax, hrcx, hcount]
    exact hQ _ _ rfl (by simp) (hkeep s _ (.refl s))
  case shr =>
    simp only [binaryCode, Host.ensures_shiftRight, Host.ensures_nil, hrax, hrcx, hcount]
    exact hQ _ _ rfl (by simp) (hkeep s _ (.refl s))
  all_goals
    simp only [binaryCode, Host.ensures_arith, Host.ensures_nil, Arith.eval, hrax, hrcx]
    exact hQ _ _ rfl (by simp) (hkeep s _ (.refl s))

/-- The flags of a difference decide all comparisons of signed words. -/
theorem holds_ofDifference (op : CompareOp) (a b : Word) :
    (Flags.ofDifference a b).holds op = op.holds a b := by
  have hzero : (a - b = 0) ↔ a = b := by
    rw [BitVec.sub_eq_iff_eq_add]
    exact iff_of_eq (congrArg (a = ·) (BitVec.zero_add b))
  have hlt : ((a - b).msb != BitVec.ssubOverflow a b) = a.slt b := by
    have hsub := BitVec.toInt_sub (x := a) (y := b)
    have halo := BitVec.le_toInt a
    have hahi := BitVec.toInt_lt (x := a)
    have hblo := BitVec.le_toInt b
    have hbhi := BitVec.toInt_lt (x := b)
    rw [Bool.eq_iff_iff, BitVec.slt_iff_toInt_lt, BitVec.msb_eq_toInt, hsub]
    simp only [BitVec.ssubOverflow, bne_iff_ne, ne_eq, Int.bmod_def, decide_eq_decide, ← Bool.decide_or]
    omega
  have hle : a.sle b = (a.slt b || decide (a = b)) := by
    rw [Bool.eq_iff_iff]
    simp only [BitVec.sle_iff_toInt_le, Bool.or_eq_true, BitVec.slt_iff_toInt_lt, decide_eq_true_eq,
      ← BitVec.toInt_inj]
    omega
  have hge : b.sle a = !(a.slt b) := by
    rw [Bool.eq_iff_iff]
    simp only [BitVec.sle_iff_toInt_le, Bool.not_eq_true', ← Bool.not_eq_true, BitVec.slt_iff_toInt_lt]
    omega
  have hgt : b.slt a = (!(a.slt b) && !decide (a = b)) := by
    rw [Bool.eq_iff_iff]
    simp only [Bool.and_eq_true, Bool.not_eq_true', ← Bool.not_eq_true, BitVec.slt_iff_toInt_lt,
      decide_eq_true_eq, ← BitVec.toInt_inj]
    omega
  cases op <;> simp only [Flags.holds, Flags.ofDifference, CompareOp.holds, hzero]
  case ne => simp
  case gt => rw [hgt, ← hlt, Bool.and_comm, bne, Bool.not_not]
  case ge => rw [hge, ← hlt, bne, Bool.not_not]
  case lt => exact hlt
  case le => rw [hle, hlt, Bool.or_comm]

/-- A flag that is written to the low byte and widened is a truth value. -/
theorem widened_flag (a : Word) (b : Bool) :
    ((a.extractLsb' 8 56 ++ (if b then 1 else 0 : BitVec 8)).setWidth 8).setWidth 64 = truth b := by
  rw [BitVec.setWidth_append, dif_pos (Nat.le_refl 8)]
  cases b <;> rfl

theorem compareCode_ensures (op : CompareOp) {a b : Word} {trap : Prop}
    (hrax : s.regs (.tracked .rax) = a) (hrcx : s.regs (.tracked .rcx) = b)
    (hQ : ∀ t, t.regs (.tracked .rax) = truth (op.holds a b) → s.Keeps t → Q t) :
    h.Ensures trap (compareCode op) s Q := by
  simp only [compareCode, Host.ensures_compare]
  rw [Host.ensures_setFlag (f := .ofDifference a b) (by simp [hrax, hrcx]), Host.ensures_widenFlag,
    Host.ensures_nil]
  refine hQ _ ?_ ?_
  · simp only [State.next_regs, State.set_regs_same, widened_flag, holds_ofDifference]
  · exact ⟨rfl, by simp [State.set_regs_ne], by simp [State.set_regs_ne]⟩

/-- The code of a unary operation on a word. -/
theorem unaryCode_ensures {op : UnaryOp} {heap : Heap} {a v : Word} {trap : Prop}
    (hrax : s.regs (.tracked .rax) = a) (hheld : Held s.mem heap) (heval : op.eval heap a = some v)
    (hQ : ∀ t, t.regs (.tracked .rax) = v → s.Keeps t →
      (∀ r, r ≠ .rax → t.regs (.tracked r) = s.regs (.tracked r)) → Q t) :
    h.Ensures trap (unaryCode op) s Q := by
  cases op
  case len =>
    simp only [unaryCode, Host.ensures_load, Host.ensures_nil, Address.resolve, hrax, hheld.length?_eq heval]
    intro _ _
    refine hQ _ (by simp) ⟨rfl, by simp [State.set_regs_ne], by simp [State.set_regs_ne]⟩ fun r hr => ?_
    simp [State.set_regs_ne, hr]
  case not =>
    simp only [unaryCode, Host.ensures_compareZero]
    rw [Host.ensures_setFlag (f := .ofDifference a 0) (by simp [hrax]), Host.ensures_widenFlag,
    Host.ensures_nil]
    refine hQ _ ?_ ?_ ?_
    · simp only [State.next_regs, State.set_regs_same, widened_flag, holds_ofDifference]
      simpa [UnaryOp.eval, CompareOp.holds] using heval
    · exact ⟨rfl, by simp [State.set_regs_ne], by simp [State.set_regs_ne]⟩
    · intro r hr
      simp [State.set_regs_ne, hr]
  all_goals
    cases heval
    simp only [unaryCode, Host.ensures_step, Host.ensures_nil, Step.eval, hrax]
    refine hQ _ (by simp) ⟨rfl, by simp [State.set_regs_ne], by simp [State.set_regs_ne]⟩ fun r hr => ?_
    simp [State.set_regs_ne, hr]

end TreeCompiler.Asm
