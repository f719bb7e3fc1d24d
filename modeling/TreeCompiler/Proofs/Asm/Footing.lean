import TreeCompiler.Proofs.Asm.Depth

/-!
Where the stack of a function stands while its code runs. Its top moves as the code says, and of the
two words that the frame saves nothing is overwritten but by callees and by stores to elements of
arrays.
-/

namespace TreeCompiler.Asm

/-- Instructions that write to memory. -/
def Insn.stores : Insn → Bool
  | .push _ | .store .. | .storeConst .. | .call _ => true
  | _ => false

/-- Lines whose effect on memory the code does not decide: calls and stores to elements of arrays. -/
def Line.isForeign : Line → Bool
  | .insn (.call _) | .insn (.store (.element ..) _) => true
  | _ => false

namespace Host

variable {h : Host} {s t : State} {x : Insn} {r : Register}

theorem regs_of_store {a v : Word} (hstore : h.store s a v = .ok t) : t.regs = s.regs := by
  unfold store at hstore
  split at hstore <;> cases hstore
  rfl

/-- An instruction changes the registers that it writes and no other ones. -/
theorem exec_regs (hx : x.isPlain = true) (hexec : h.exec s x = .ok t) (hr : r ∉ x.writes) :
    t.regs r = s.regs r := by
  cases x with
  | jump _ | jumpIfZero _ | call _ | ret => cases hx
  | push _ =>
    obtain ⟨u, hpush, rfl⟩ := map_eq_ok_iff.mp hexec
    rw [State.next_regs, regs_of_store hpush]
    exact State.set_regs_ne _ _ (by simpa [Insn.writes] using hr)
  | pop dst =>
    simp only [Insn.writes, List.mem_cons, List.not_mem_nil, or_false, not_or] at hr
    obtain ⟨⟨v, u⟩, hpop, hu⟩ := bind_eq_ok_iff.mp hexec
    obtain ⟨w, _, hw⟩ := bind_eq_ok_iff.mp hpop
    cases hu
    cases hw
    exact (State.set_regs_ne _ _ hr.2).trans (State.set_regs_ne _ _ hr.1)
  | load dst src =>
    obtain ⟨_, _, rfl⟩ := exec_load_eq_ok_iff.mp hexec
    exact State.set_regs_ne _ _ (by simpa [Insn.writes] using hr)
  | store dst src =>
    obtain ⟨_, _, rfl⟩ := exec_store_eq_ok_iff.mp hexec
    rfl
  | storeConst dst v =>
    simp only [exec] at hexec
    split at hexec
    · obtain ⟨u, hstore, rfl⟩ := map_eq_ok_iff.mp hexec
      rw [State.next_regs, regs_of_store hstore]
    · cases hexec
  | divide divisor =>
    simp only [Insn.writes, List.mem_cons, List.not_mem_nil, or_false, not_or] at hr
    obtain ⟨u, hdivide, rfl⟩ := map_eq_ok_iff.mp hexec
    simp only [State.divide] at hdivide
    split at hdivide
    · cases hdivide
    · cases hdivide
      exact (State.set_regs_ne _ _ hr.2).trans (State.set_regs_ne _ _ hr.1)
  | setFlag test =>
    simp only [exec] at hexec
    split at hexec
    · cases hexec
      exact State.set_regs_ne _ _ (by simpa [Insn.writes] using hr)
    · cases hexec
  | syscall =>
    simp only [exec] at hexec
    split at hexec <;> cases hexec
  | leaFrame _ _ | grow _ | shrink _ =>
    simp only [exec] at hexec
    split at hexec
    · cases hexec
      exact State.set_regs_ne _ _ (by simpa [Insn.writes] using hr)
    · cases hexec
  | compare _ _ | compareZero _ =>
    cases hexec
    rfl
  | _ =>
    cases hexec
    exact State.set_regs_ne _ _ (by simpa [Insn.writes] using hr)

/-- An instruction that does not write to memory leaves it as it is. -/
theorem exec_mem (hx : x.isPlain = true) (hstores : x.stores = false) (hexec : h.exec s x = .ok t) :
    t.mem = s.mem := by
  cases x with
  | push _ | store _ _ | storeConst _ _ | call _ => cases hstores
  | jump _ | jumpIfZero _ | ret => cases hx
  | pop dst =>
    obtain ⟨⟨v, u⟩, hpop, hu⟩ := bind_eq_ok_iff.mp hexec
    obtain ⟨w, _, hw⟩ := bind_eq_ok_iff.mp hpop
    cases hu
    cases hw
    rfl
  | load dst src =>
    obtain ⟨_, _, rfl⟩ := exec_load_eq_ok_iff.mp hexec
    rfl
  | divide divisor =>
    obtain ⟨u, hdivide, rfl⟩ := map_eq_ok_iff.mp hexec
    simp only [State.divide] at hdivide
    split at hdivide <;> cases hdivide
    rfl
  | leaFrame _ _ | grow _ | shrink _ | setFlag _ =>
    simp only [exec] at hexec
    split at hexec <;> cases hexec
    rfl
  | syscall =>
    simp only [exec] at hexec
    split at hexec <;> cases hexec
  | _ =>
    cases hexec
    rfl

variable {fr : Frame} {answers : Answers}

/-- What an instruction without a call ensures holds when it was executed. -/
theorem Acts.ensures {trap : Prop} {Q : State → Prop} (hacts : h.Acts fr answers s x t) (hx : x.isPlain = true)
    (hensures : h.Ensures trap [x] s Q) : Q t :=
  (does_insn.mpr hacts).ensures (by simpa using hx) hensures

end Host

/-- The two words at the base of a frame, where the base of the caller's frame and the return address
    are saved, hold the same in two states. -/
def Spares (bottom : Word) (s t : State) : Prop :=
  t.mem.read bottom.toNat = s.mem.read bottom.toNat ∧ t.mem.read (bottom.toNat + 8) = s.mem.read (bottom.toNat + 8)

instance {bottom : Word} {s t : State} : Decidable (Spares bottom s t) :=
  inferInstanceAs (Decidable (_ ∧ _))

theorem Spares.of_mem {bottom : Word} {s t : State} (hmem : t.mem = s.mem) : Spares bottom s t := by
  simp [Spares, hmem]

theorem Spares.of_write {bottom : Word} {s t : State} {a : Nat} {v : Word} (hmem : t.mem = s.mem.write a v)
    (hapart : a + 8 ≤ bottom.toNat ∨ bottom.toNat + 16 ≤ a) : Spares bottom s t := by
  unfold Spares
  rw [hmem, Memory.read_write_of_disjoint _ _ (by omega), Memory.read_write_of_disjoint _ _ (by omega)]
  exact ⟨rfl, rfl⟩

/-- A place where the stack of a function may end between two instructions: it is aligned and below
    the slots. -/
structure Footing (frame : Frame) (bottom base : Word) : Prop where
  fits : frame.Fits
  low : bottom.toNat + 8 ≤ 2 ^ 47
  aligned : 16 ∣ base.toNat
  below : base = bottom - BitVec.ofNat 64 frame.size ∨ base.toNat + frame.size ≤ bottom.toNat
  level : frame.hasArrays = false → base = bottom - BitVec.ofNat 64 frame.size

/-- A function took bytes from its stack. -/
structure Sunk (bottom base : Word) (depth : Depth) (s : State) : Prop where
  rbp : s.regs .rbp = bottom
  rsp : s.regs .rsp = base - BitVec.ofInt 64 depth.bytes
  used : depth.used = true → ((s.regs .rsp).toNat : Int) + depth.bytes = base.toNat ∧ base.toNat < 2 ^ 48
  unused : depth.used = false → -2 ^ 31 ≤ depth.bytes ∧ depth.bytes < 2 ^ 31

section Sunk

variable {frame : Frame} {bottom base : Word} {depth : Depth} {s t : State} {leads : String → Prop}
    {Q : Depth → Prop}
  {h : Host} {fr : Frame} {answers : Answers} {x : Insn}

theorem Frame.dvd_size (frame : Frame) : 16 ∣ frame.size := by
  unfold size alignUp
  omega

namespace Footing

/-- A function that has opened its frame has a footing. -/
theorem opened (hfits : frame.Fits) (hlow : bottom.toNat + 8 ≤ 2 ^ 47) (haligned : 16 ∣ bottom.toNat) :
    Footing frame bottom (bottom - BitVec.ofNat 64 frame.size) where
  fits := hfits
  low := hlow
  aligned := by
    have hsize := frame.dvd_size
    unfold Frame.Fits at hfits
    rw [BitVec.toNat_sub, BitVec.toNat_ofNat]
    omega
  below := .inl rfl
  level _ := rfl

theorem le (hfooting : Footing frame bottom base) :
    base.toNat ≤ (bottom - BitVec.ofNat 64 frame.size).toNat := by
  rcases hfooting.below with heq | hle
  · exact Nat.le_of_eq (congrArg BitVec.toNat heq)
  · have hfits := hfooting.fits
    unfold Frame.Fits at hfits
    rw [BitVec.toNat_sub, BitVec.toNat_ofNat]
    have := bottom.isLt
    omega

/-- A footing that did not wrap around lies below the slots. -/
theorem room (hfooting : Footing frame bottom base) (hsmall : base.toNat < 2 ^ 48) :
    base.toNat + frame.size ≤ bottom.toNat := by
  rcases hfooting.below with heq | hle
  · have hfits := hfooting.fits
    have hlow := hfooting.low
    unfold Frame.Fits at hfits
    rw [heq, BitVec.toNat_sub, BitVec.toNat_ofNat] at hsmall ⊢
    omega
  · exact hle

end Footing

namespace Sunk

/-- Nothing was taken from the stack yet. -/
theorem zero (hrbp : s.regs .rbp = bottom) (hrsp : s.regs .rsp = base) : Sunk bottom base .zero s where
  rbp := hrbp
  rsp := by simpa [Depth.zero] using hrsp
  used hused := by cases hused
  unused _ := by simp [Depth.zero]

variable (hsunk : Sunk bottom base depth s) (hfooting : Footing frame bottom base)
include hsunk

theorem rsp_of_zero (hzero : depth.bytes = 0) : s.regs .rsp = base := by
  simpa [hzero] using hsunk.rsp

theorem congr (hrbp : t.regs .rbp = s.regs .rbp) (hrsp : t.regs .rsp = s.regs .rsp) : Sunk bottom base depth t where
  rbp := hrbp.trans hsunk.rbp
  rsp := hrsp.trans hsunk.rsp
  used := hrsp.symm ▸ hsunk.used
  unused := hsunk.unused

theorem toNat_rsp : ((s.regs .rsp).toNat : Int) = (base.toNat - depth.bytes) % 2 ^ 64 := by
  rw [hsunk.rsp, BitVec.toNat_sub, BitVec.toNat_ofInt]
  have := base.isLt
  omega

/-- Where memory can be used, the stack did not wrap around. -/
theorem exact (hbytes : 0 ≤ depth.bytes) (hsmall : (s.regs .rsp).toNat ≤ 2 ^ 47) :
    ((s.regs .rsp).toNat : Int) + depth.bytes = base.toNat ∧ base.toNat < 2 ^ 48 := by
  cases hused : depth.used with
  | true => exact hsunk.used hused
  | false =>
    have hunused := hsunk.unused hused
    have hrsp := hsunk.toNat_rsp
    have := base.isLt
    omega

theorem grow {bytes : Int} (hzero : depth.bytes = 0) :
    h.Ensures False [.grow bytes] s fun t => Sunk bottom base ⟨bytes, false⟩ t ∧ Spares bottom s t := by
  rw [Host.ensures_grow]
  intro hfits
  rw [Host.ensures_nil]
  refine ⟨⟨hsunk.rbp, ?_, (fun hused => by cases hused), fun _ => fits_iff.mp hfits⟩, .of_mem rfl⟩
  simp [hsunk.rsp_of_zero hzero]

theorem shrink : h.Ensures False [.shrink depth.bytes] s fun t => Sunk bottom base .zero t ∧ Spares bottom s t := by
  rw [Host.ensures_shrink]
  intro _
  rw [Host.ensures_nil]
  refine ⟨.zero hsunk.rbp ?_, .of_mem rfl⟩
  simp only [State.next_regs, State.clearFlags_regs, State.set_regs_same, hsunk.rsp]
  exact BitVec.sub_add_cancel ..

include hfooting

/-- What is pushed lies below the slots. -/
theorem push {r : Register} (hbytes : 0 ≤ depth.bytes) :
    h.Ensures False [.push r] s fun t => Sunk bottom base ⟨depth.bytes + 8, true⟩ t ∧ Spares bottom s t := by
  rw [Host.ensures_push]
  intro haccess
  rw [Host.ensures_nil]
  obtain ⟨hnext, hsmall⟩ := Host.push_bound haccess
  obtain ⟨hexact, hbase⟩ := hsunk.exact hbytes hsmall
  have hroom := hfooting.room hbase
  refine ⟨⟨hsunk.rbp, ?_, fun _ => ⟨?_, hbase⟩, fun hunused => by cases hunused⟩,
    .of_write rfl (.inl (by omega))⟩
  · have hword : s.regs .rsp - 8 = base - BitVec.ofInt 64 (depth.bytes + 8) := by
      rw [hsunk.rsp, BitVec.sub_sub, BitVec.ofInt_add]
      rfl
    simpa using hword
  · simp only [State.next_regs, State.set_regs_same]
    omega

/-- A number is written at the top of the stack, into bytes that were taken. -/
theorem storeTop {v : Int} (hbytes : 8 ≤ depth.bytes) :
    h.Ensures False [.storeConst (.stack 0) v] s fun t =>
      Sunk bottom base ⟨depth.bytes, true⟩ t ∧ Spares bottom s t := by
  rw [Host.ensures_storeConst]
  intro _ _ haccess
  rw [Host.ensures_nil]
  have hbound := h.accessible_bound _ haccess
  have haddress : (Address.resolve s (.stack 0)).toNat = (s.regs .rsp).toNat := by
    simp [Address.resolve]
  obtain ⟨hexact, hbase⟩ := hsunk.exact (by omega) (by omega)
  have hroom := hfooting.room hbase
  exact ⟨⟨hsunk.rbp, hsunk.rsp, fun _ => ⟨hexact, hbase⟩, fun hunused => by cases hunused⟩,
    .of_write rfl (.inl (by omega))⟩

/-- Where code may write, it does not write over the words that the frame saves. -/
theorem apart {dst : Address} (hopen : dst.IsOpen depth.bytes) (helement : ∀ b position, dst ≠ .element b position)
    (hfits : dst.isEncodable = true) (haccess : h.accessible (dst.resolve s).toNat = true) :
    (dst.resolve s).toNat + 8 ≤ bottom.toNat ∨ bottom.toNat + 16 ≤ (dst.resolve s).toNat := by
  have hbound := h.accessible_bound _ haccess
  have hlow := hfooting.low
  cases dst with
  | frame offset =>
    have hoffset : offset ≤ -8 ∨ 16 ≤ offset := hopen
    have hfits := fits_iff.mp hfits
    simp only [Address.resolve, hsunk.rbp, BitVec.toNat_add, BitVec.toNat_ofInt] at hbound ⊢
    omega
  | stack offset =>
    have hoffset : (offset : Int) + 8 ≤ depth.bytes := hopen
    have hfits := fits_iff.mp hfits
    have hrsp := hsunk.toNat_rsp
    have hword := base.isLt
    simp only [Address.resolve, BitVec.toNat_add, BitVec.toNat_ofNat] at hbound ⊢
    cases hused : depth.used with
    | true =>
      obtain ⟨hexact, hbase⟩ := hsunk.used hused
      have hroom := hfooting.room hbase
      omega
    | false =>
      have hunused := hsunk.unused hused
      have hroom := hfooting.room (by omega)
      omega
  | pointee b => exact hopen.elim
  | element b position => exact absurd rfl (helement b position)

/-- An instruction moves the top of the stack as it says, and does not write over the words that the
    frame saves unless it is a call or a store to an element. -/
theorem acts (hsinks : x.Sinks leads depth Q) (hacts : h.Acts fr answers s x t) :
    (∃ d, Sunk bottom base d t ∧ Q d) ∧ ((Line.insn x).isForeign = false → Spares bottom s t) := by
  cases x with
  | push r =>
    obtain ⟨hbytes, hQ⟩ := hsinks
    obtain ⟨hsunk', hspares⟩ := hacts.ensures rfl (hsunk.push hfooting hbytes)
    exact ⟨⟨_, hsunk', hQ⟩, fun _ => hspares⟩
  | grow bytes =>
    obtain ⟨hzero, hQ⟩ := hsinks
    obtain ⟨hsunk', hspares⟩ := hacts.ensures rfl (hsunk.grow hzero)
    exact ⟨⟨_, hsunk', hQ⟩, fun _ => hspares⟩
  | shrink bytes =>
    obtain ⟨rfl, hQ⟩ := hsinks
    obtain ⟨hsunk', hspares⟩ := hacts.ensures rfl hsunk.shrink
    exact ⟨⟨_, hsunk', hQ⟩, fun _ => hspares⟩
  | store dst src =>
    obtain ⟨hopen, hQ⟩ := hsinks
    obtain ⟨hfits, haccess, rfl⟩ := Host.exec_store_eq_ok_iff.mp (hacts.exec rfl)
    refine ⟨⟨depth, hsunk.congr rfl rfl, hQ⟩, fun hforeign => .of_write rfl ?_⟩
    refine hsunk.apart hfooting hopen (fun b position heq => ?_) hfits haccess
    rw [heq] at hforeign
    cases hforeign
  | storeConst dst v =>
    have hensures : h.Ensures False [.storeConst dst v] s fun _ => fits v = true :=
      Host.ensures_storeConst.mpr fun _ hv _ => Host.ensures_nil.mpr hv
    have hv : fits v = true := hacts.ensures rfl hensures
    obtain ⟨rfl, hbytes, hQ⟩ := hsinks hv
    obtain ⟨hsunk', hspares⟩ := hacts.ensures rfl (hsunk.storeTop hfooting hbytes)
    exact ⟨⟨_, hsunk', hQ⟩, fun _ => hspares⟩
  | call name =>
    obtain ⟨_, _, hrsp, hrbp⟩ := hacts
    exact ⟨⟨depth, hsunk.congr hrbp hrsp, hsinks.2⟩, fun hforeign => by cases hforeign⟩
  | jump name => cases hacts.isStraight
  | jumpIfZero name => cases hacts.isStraight
  | ret => cases hacts.isStraight
  | _ =>
    have hexec := hacts.exec rfl
    have hrsp := Host.exec_regs rfl hexec fun hr => by simpa using hsinks.1 .rsp hr
    have hrbp := Host.exec_regs rfl hexec fun hr => by simpa using hsinks.1 .rbp hr
    exact ⟨⟨depth, hsunk.congr hrbp hrsp, hsinks.2⟩, fun _ => .of_mem (Host.exec_mem rfl rfl hexec)⟩

/-- A line moves the top of the stack as it says. -/
theorem passes {l : Line} {ls : List Line} (hsinks : Sinks leads Q depth (l :: ls))
    (hpasses : h.Passes fr answers s l t) :
    (∃ d, Sunk bottom base d t ∧ Sinks leads Q d ls) ∧ (l.isForeign = false → Spares bottom s t) := by
  cases l with
  | insn x => exact hsunk.acts hfooting hsinks hpasses
  | _ =>
    obtain ⟨_, rfl⟩ := hpasses
    exact ⟨⟨depth, hsunk.congr rfl rfl, hsinks.2.2⟩, fun _ => .of_mem rfl⟩

/-- Lines that hand control on move the top of the stack as they say. -/
theorem does {ls : List Line} (hsinks : Sinks leads Q depth ls) (hdoes : h.Does fr answers ls s t) :
    ∃ d, Sunk bottom base d t ∧ Q d := by
  induction ls generalizing s depth with
  | nil =>
    cases hdoes
    exact ⟨depth, hsunk, hsinks⟩
  | cons l ls ih =>
    obtain ⟨u, hpasses, hrest⟩ := hdoes
    obtain ⟨⟨d, hsunk', hsinks'⟩, _⟩ := hsunk.passes hfooting hsinks hpasses
    exact ih hsunk' hsinks' hrest

/-- What code takes for good leaves a footing at the new top of the stack. -/
theorem rebase (htakes : frame.Takes depth) : Footing frame bottom (s.regs .rsp) where
  fits := hfooting.fits
  low := hfooting.low
  aligned := by
    have hrsp := hsunk.toNat_rsp
    have hbase := hfooting.aligned
    have hbytes := htakes.aligned
    omega
  below := by
    cases hused : depth.used with
    | true =>
      obtain ⟨hexact, hbase⟩ := hsunk.used hused
      have hroom := hfooting.room hbase
      have hnonneg := htakes.nonneg
      exact .inr (by omega)
    | false =>
      rw [hsunk.rsp_of_zero (htakes.used hused)]
      exact hfooting.below
  level hnone := by
    rw [hsunk.rsp_of_zero (htakes.level hnone)]
    exact hfooting.level hnone

end Sunk

end Sunk

end TreeCompiler.Asm
