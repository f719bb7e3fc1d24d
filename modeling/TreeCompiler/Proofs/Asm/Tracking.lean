import TreeCompiler.Proofs.Asm.Execution
import TreeCompiler.Proofs.Asm.Generation
import TreeCompiler.Proofs.Asm.Slots

namespace TreeCompiler.Asm

open Code

theorem Reg.index_inj {r r' : Reg} (h : r.index = r'.index) : r = r' := by
  cases r <;> cases r' <;> first | rfl | exact absurd h (by decide)

namespace Cache

variable (c : Cache) (r r' : Reg) (o : Operand) (x : Option Operand)

@[simp] theorem get_empty : empty.get r = none := by
  cases r <;> rfl

theorem get_set : (c.set r x).get r' = if r' = r then x else c.get r' := by
  have hget : (c.set r x).get r' = if (r.index : Nat) = r'.index then x else c.get r' :=
    Vector.getElem_set r.index.isLt r'.index.isLt
  rw [hget]
  by_cases hr : r' = r
  · simp [hr]
  · have hne : ¬ (r.index : Nat) = r'.index := fun heq => hr (Reg.index_inj (Fin.ext heq)).symm
    rw [if_neg hne, if_neg hr]

theorem get_written : (c.written o r).get r' =
    if r' = r then some o else if c.get r' = some o then none else c.get r' := by
  have hmap : (Cache.mk (c.entries.map fun x => if x = some o then none else x)).get r' =
      if c.get r' = some o then none else c.get r' := Vector.getElem_map ..
  rw [written, get_set, hmap]

end Cache

namespace State

/-- Passes over some lines. -/
def advance (s : State) (n : Nat) : State :=
  { s with pc := s.pc + n }

@[simp] theorem advance_regs (s : State) (n : Nat) : (s.advance n).regs = s.regs := rfl

@[simp] theorem advance_mem (s : State) (n : Nat) : (s.advance n).mem = s.mem := rfl

@[simp] theorem advance_pc (s : State) (n : Nat) : (s.advance n).pc = s.pc + n := rfl

@[simp] theorem set_regs_self (s : State) (r : Register) : s.set r (s.regs r) = s := by
  have hregs : (fun r' => if r' = r then s.regs r else s.regs r') = s.regs := by
    funext r'
    split
    · next heq => rw [heq]
    · rfl
  simp only [set, hregs]

/-- Where a slot of the running function lies. -/
def slotAddress (s : State) (offset : Int) : Nat :=
  (s.regs .rbp + BitVec.ofInt 64 offset).toNat

end State

/-- What the places of the running function hold. -/
def Frame.contents (fr : Frame) (s : State) : Store := fun o =>
  match fr.offset? o with
  | some offset => s.mem.read (s.slotAddress offset)
  | none => 0

variable {fr : Frame} {s : State} {o : Operand} {offset : Int} {k : Nat}

theorem Frame.contents_of_offset?
    (hoffset : fr.offset? o = some offset) : fr.contents s o = s.mem.read (s.slotAddress offset) := by
  simp [contents, hoffset]

/-- Places keep their contents when neither memory nor the base of the frame changes. -/
theorem Frame.contents_congr {s' : State} (hmem : s'.mem = s.mem)
    (hrbp : s'.regs .rbp = s.regs .rbp) : fr.contents s' = fr.contents s := by
  funext o
  simp only [contents, State.slotAddress, hmem, hrbp]

/-- Frames are small enough for their slots to be reached. -/
def Frame.Fits (fr : Frame) : Prop :=
  fr.size < 2 ^ 31

theorem slotAddress_eq (s : State) (k : Nat) (hk : k < 2 ^ 28) :
    s.slotAddress (-8 * ((k : Int) + 1)) =
      ((s.regs .rbp).toNat + (18446744073709551616 - 8 * (k + 1))) % 18446744073709551616 := by
  have hoffset : BitVec.ofInt 64 (-8 * ((k : Int) + 1)) = -BitVec.ofNat 64 (8 * (k + 1)) := by
    rw [← BitVec.ofInt_natCast, ← BitVec.ofInt_neg]
    congr 1
  simp only [State.slotAddress, hoffset, BitVec.toNat_add, BitVec.toNat_neg, BitVec.toNat_ofNat,
    Nat.reducePow] at *
  omega

/-- Different slots do not overlap, even if the frame should wrap around the address space. -/
theorem slotAddress_disjoint {k' : Nat} (hk : k < 2 ^ 28) (hk' : k' < 2 ^ 28)
    (hne : k ≠ k') :
    s.slotAddress (-8 * ((k : Int) + 1)) + 8 ≤ s.slotAddress (-8 * ((k' : Int) + 1)) ∨
      s.slotAddress (-8 * ((k' : Int) + 1)) + 8 ≤ s.slotAddress (-8 * ((k : Int) + 1)) := by
  have hbase := (s.regs .rbp).isLt
  rw [slotAddress_eq s k hk, slotAddress_eq s k' hk']
  omega

theorem Frame.Fits.slots_lt (hfits : fr.Fits) (hk : k < fr.slots.size) :
    k < 2 ^ 28 := by
  have hsize := fr.slots_size_le_size
  unfold Fits at hfits
  omega

/-- Writing to a slot changes the contents of its operand and of no operand with another slot. -/
theorem Frame.contents_write (hfits : fr.Fits) {o' : Operand}
    (hoffset : fr.offset? o = some offset) (v : Word) :
    fr.contents { s with mem := s.mem.write (s.slotAddress offset) v } o' =
      if fr.offset? o' = some offset then v else fr.contents s o' := by
  cases hoffset' : fr.offset? o' with
  | none => simp [contents, hoffset']
  | some offset' =>
    simp only [contents, hoffset', State.slotAddress, Option.some.injEq]
    split
    · next heq => rw [heq, Memory.read_write_same]
    · next hne =>
      obtain ⟨k, hk, rfl⟩ := offset?_bound hoffset
      obtain ⟨k', hk', rfl⟩ := offset?_bound hoffset'
      exact Memory.read_write_of_disjoint _ _
        (slotAddress_disjoint (hfits.slots_lt hk) (hfits.slots_lt hk') (by rintro rfl; exact hne rfl))

/-- Different operands of a function have different slots. -/
def Site.Apart (site : Site) : Prop :=
  ∀ o o' offset, some o ∈ site.func.operands → some o' ∈ site.func.operands →
    site.frame.offset? o = some offset → site.frame.offset? o' = some offset → o = o'

/-- Whether an operand can be read in a function: it is a literal, or a place the function
    mentions. -/
def Site.Reads (site : Site) (strings : StringTable) (o : Operand) : Prop :=
  (Operand.isStorage (some o) = true → some o ∈ site.func.operands) ∧
    ∀ t, o = .const (.str t) → t ∈ strings.strings

/-- What is known of the registers is true: each holds the value of its operand. -/
def Cache.Sound (c : Cache) (site : Site) (address : Bytes → Word) (s : State) : Prop :=
  ∀ r o, c.get r = some o → s.regs (.tracked r) = (site.frame.contents s).word address o

namespace Cache.Sound

variable {site : Site} {address : Bytes → Word} {c : Cache} {s s' : State}

theorem empty (site : Site) (address : Bytes → Word) (s : State) : Cache.empty.Sound site address s :=
  fun r o hget => by simp at hget

/-- What is known stays true while the tracked registers and the places are kept. -/
theorem congr (hcache : c.Sound site address s) (hregs : ∀ r, s'.regs (.tracked r) = s.regs (.tracked r))
    (hcontents : site.frame.contents s' = site.frame.contents s) : c.Sound site address s' := by
  intro r o hget
  rw [hregs, hcontents]
  exact hcache r o hget

/-- A register that was given the value of an operand can be recorded. -/
theorem set (hcache : c.Sound site address s) (o : Operand) (r : Reg) :
    (c.set r (some o)).Sound site address
      (s.set (.tracked r) ((site.frame.contents s).word address o)) := by
  have hcontents : site.frame.contents (s.set (.tracked r) ((site.frame.contents s).word address o)) =
      site.frame.contents s :=
    Frame.contents_congr (by simp) (State.set_regs_ne _ _ (by simp))
  intro r' o' hget
  rw [Cache.get_set] at hget
  rw [hcontents]
  by_cases hr : r' = r
  · simp only [hr, if_true, Option.some.injEq] at hget
    rw [hr, State.set_regs_same, hget]
  · simp only [hr, if_false] at hget
    rw [State.set_regs_ne _ _ (by simp [hr])]
    exact hcache r' o' hget

end Cache.Sound

/-- What is known of the registers is true, and about operands that the function mentions. -/
structure Tracks (site : Site) (address : Bytes → Word) (c : Cache) (s : State) : Prop where
  holds : c.Sound site address s
  mentions : ∀ r o, c.get r = some o → Operand.isStorage (some o) = true → some o ∈ site.func.operands

namespace Tracks

variable {site : Site} {address : Bytes → Word} {c : Cache} {s s' : State}

theorem empty (site : Site) (address : Bytes → Word) (s : State) : Tracks site address .empty s :=
  ⟨.empty site address s, fun r o hget => by simp at hget⟩

/-- What is known stays true while the tracked registers and the places are kept. -/
theorem congr (htracks : Tracks site address c s) (hregs : ∀ r, s'.regs (.tracked r) = s.regs (.tracked r))
    (hcontents : site.frame.contents s' = site.frame.contents s) : Tracks site address c s' :=
  ⟨htracks.holds.congr hregs hcontents, htracks.mentions⟩

variable {o : Operand}

/-- A register that was given the value of an operand can be recorded. -/
theorem set (htracks : Tracks site address c s) (r : Reg)
    (hmention : Operand.isStorage (some o) = true → some o ∈ site.func.operands) :
    Tracks site address (c.set r (some o))
      (s.set (.tracked r) ((site.frame.contents s).word address o)) := by
  refine ⟨htracks.holds.set o r, fun r' o' hget hstorage => ?_⟩
  rw [Cache.get_set] at hget
  by_cases hr : r' = r
  · simp only [hr, if_true, Option.some.injEq] at hget
    exact hget ▸ hmention (hget ▸ hstorage)
  · simp only [hr, if_false] at hget
    exact htracks.mentions r' o' hget hstorage

/-- A register that was changed is forgotten. -/
theorem forget (htracks : Tracks site address c s) (r : Reg)
    (hregs : ∀ r', r' ≠ r → s'.regs (.tracked r') = s.regs (.tracked r'))
    (hcontents : site.frame.contents s' = site.frame.contents s) :
    Tracks site address (c.set r none) s' := by
  constructor
  · intro r' o' hget
    rw [Cache.get_set] at hget
    by_cases hr : r' = r
    · simp [hr] at hget
    · simp only [hr, if_false] at hget
      rw [hregs r' hr, hcontents]
      exact htracks.holds r' o' hget
  · intro r' o' hget hstorage
    rw [Cache.get_set] at hget
    by_cases hr : r' = r
    · simp [hr] at hget
    · simp only [hr, if_false] at hget
      exact htracks.mentions r' o' hget hstorage

/-- Writing a register to the slot of an operand makes the register hold the operand, and those
    that held it before do so no longer. -/
theorem written (hapart : site.Apart) (hfits : site.frame.Fits) (htracks : Tracks site address c s)
    {offset : Int} (r : Reg) (ho : some o ∈ site.func.operands)
    (hoffset : site.frame.offset? o = some offset) :
    Tracks site address (c.written o r)
      { s with mem := s.mem.write (s.slotAddress offset) (s.regs (.tracked r)) } := by
  have hstorage : Operand.isStorage (some o) = true := Frame.isStorage_of_offset? hoffset
  constructor
  · intro r' o' hget
    rw [Cache.get_written] at hget
    by_cases hr : r' = r
    · simp only [hr, if_true, Option.some.injEq] at hget
      subst hget
      rw [hr, Store.word_of_isStorage _ _ hstorage, Frame.contents_write hfits hoffset, if_pos hoffset]
    · simp only [hr, if_false] at hget
      by_cases hold : c.get r' = some o
      · simp [hold] at hget
      · simp only [hold, if_false] at hget
        have hvalue := htracks.holds r' o' hget
        cases hkind : Operand.isStorage (some o') with
        | true =>
          have hne : ¬ site.frame.offset? o' = some offset := fun hoffset' =>
            hold (hapart o o' offset ho (htracks.mentions r' o' hget hkind) hoffset hoffset' ▸ hget)
          rw [Store.word_of_isStorage _ _ hkind] at hvalue ⊢
          rw [Frame.contents_write hfits hoffset, if_neg hne]
          exact hvalue
        | false =>
          cases o' with
          | const k => exact hvalue
          | temp t => simp [Operand.isStorage] at hkind
          | var name => simp [Operand.isStorage] at hkind
          | label name =>
            simp only [Store.word, Frame.contents_write hfits hoffset] at hvalue ⊢
            rw [if_neg (by simp [Frame.offset?, Frame.slot?])]
            exact hvalue
          | func name =>
            simp only [Store.word, Frame.contents_write hfits hoffset] at hvalue ⊢
            rw [if_neg (by simp [Frame.offset?, Frame.slot?])]
            exact hvalue
  · intro r' o' hget hkind
    rw [Cache.get_written] at hget
    by_cases hr : r' = r
    · simp only [hr, if_true, Option.some.injEq] at hget
      exact hget ▸ ho
    · simp only [hr, if_false] at hget
      by_cases hold : c.get r' = some o
      · simp [hold] at hget
      · simp only [hold, if_false] at hget
        exact htracks.mentions r' o' hget hkind

end Tracks

end TreeCompiler.Asm
