import TreeCompiler.Proofs.Asm.Entry
import TreeCompiler.Proofs.Asm.TailCalls

namespace TreeCompiler.Asm

open Code

/-- Whether a call becomes a new start of the running function. -/
def Site.restarts (site : Site) (i : Nat) (x : Instr) : Bool :=
  x.src1 = some (.func site.func.name) ∧ isTailCall site i x.dst

variable {site : Site} {h : Host} {options : Options} {p : Code.Program} {start : Nat} {params : List Insn}
  {opened : GenState} {body : List Line}

theorem Site.restarts_iff {i : Nat} {x : Instr} :
    site.restarts i x = true ↔ x.src1 = some (.func site.func.name) ∧ isTailCall site i x.dst = true := by
  simp [restarts]

/-- Whether there is a call at an index of a function that becomes a new start of the function. -/
def restarts (f : Func) (i : Nat) : Bool :=
  match Frame.ofFunc f, collectLabels 0 [] f.code, f.code[i]? with
  | .ok frame, .ok labels, some x => x.op = .call ∧ Site.restarts ⟨f, frame, labels⟩ i x
  | _, _, _ => false

/-- A well-formed program on a host that holds its text. -/
structure Image where
  host : Host
  options : Options
  program : Code.Program
  address : Bytes → Word
  frees : Func → Nat → Bool
  wellFormed : program.WellFormed
  text : genProgram options program = .ok host.lines
  places : host.Places address (StringTable.ofProgram program)
  restarts_of_frees : ∀ f ∈ program.funcs, ∀ i, frees f i = true → restarts f i = true
  frees_of_restarts : ∀ f ∈ program.funcs, ∀ i, restarts f i = true →
    f.code.any (·.op = .array) = true → frees f i = true

/-- A function of an image with its place in the text. -/
structure Routine (im : Image) where
  site : Site
  start : Nat
  params : List Insn
  opened : GenState
  body : List Line
  placed : Placed im.host im.options im.program site start params opened body
  fits : site.frame.Fits

/-- A function has arrays if it builds some. -/
theorem Frame.hasArrays_ofFunc {f : Func} {fr : Frame} (hframe : Frame.ofFunc f = .ok fr) :
    fr.hasArrays = f.code.any (·.op = .array) := by
  simp only [ofFunc] at hframe
  obtain ⟨fr₁, _, hframe⟩ := bind_eq_ok_iff.mp hframe
  obtain ⟨fr₂, _, hframe⟩ := bind_eq_ok_iff.mp hframe
  cases hframe
  rfl

/-- The operands of a function of a well-formed program have different slots. -/
theorem Placed.apart
    (hp : p.WellFormed)
    (hplaced : Placed h options p site start params opened body) : site.Apart := by
  have hvalid := hp.valid _ hplaced.mem hplaced.internal
  have hproper := (hplaced.legal hp).complete.proper
  -- A parameter is a variable, so a temporary is met in the code.
  have htemp : ∀ t, some (.temp t) ∈ site.func.operands →
      some (.temp t) ∈ site.func.code.flatMap (·.operands) := by
    intro t ht
    rcases List.mem_append.mp ht with ht | ht
    · obtain ⟨name, heq⟩ := hvalid.var_of_param ht
      cases heq
    · exact ht
  have hkey : ∀ t, some (.temp t) ∈ site.func.operands →
      Frame.slot? (.temp t) = .ok (some (.temp t.id.toNat)) := by
    intro t ht
    have hid : 0 ≤ t.id := hproper _ ht
    simp [Frame.slot?, BitSet.key, show ¬ t.id < 0 by omega, Except.map]
  intro o o' offset ho ho' hoffset hoffset'
  have hslot := Frame.slot?_eq_of_offset? hoffset hoffset'
  have hstorage := Frame.isStorage_of_offset? hoffset
  have hstorage' := Frame.isStorage_of_offset? hoffset'
  cases o with
  | temp t =>
    cases o' with
    | temp t' =>
      rw [hkey t ho, hkey t' ho'] at hslot
      have hid : 0 ≤ t.id := hproper _ ho
      have hid' : 0 ≤ t'.id := hproper _ ho'
      simp only [Except.ok.injEq, Option.some.injEq, Slot.temp.injEq] at hslot
      rw [hvalid.temps t t' (htemp t ho) (htemp t' ho') (by omega)]
    | var name =>
      rw [hkey t ho] at hslot
      cases hslot
    | _ => cases hstorage'
  | var name =>
    cases o' with
    | temp t' =>
      rw [hkey t' ho'] at hslot
      cases hslot
    | var name' =>
      cases hslot
      rfl
    | _ => cases hstorage'
  | _ => cases hstorage

/-- What the code of a function of a well-formed program relies on, if its frame can be used. -/
theorem Placed.sound
    (hp : p.WellFormed)
    (hplaced : Placed h options p site start params opened body) (hfits : site.frame.Fits) :
    site.Sound (StringTable.ofProgram p) :=
  ⟨hplaced.apart hp, hfits, (hplaced.legal hp).complete.strings⟩

theorem Placed.restarts_eq

    (hplaced : Placed h options p site start params opened body) {i : Nat} {x : Instr}
    (hx : site.func.code[i]? = some x) (hop : x.op = .call) :
    restarts site.func i = site.restarts i x := by
  simp [restarts, hplaced.frame, hplaced.labels, hx, hop]

namespace Routine

variable {im : Image} (r : Routine im)

theorem sound : r.site.Sound (StringTable.ofProgram im.program) :=
  r.placed.sound im.wellFormed r.fits

theorem valid : r.site.func.Valid :=
  im.wellFormed.valid _ r.placed.mem r.placed.internal

/-- Only a return stands at the end of a function. -/
theorem succ_lt {i : Nat} {x : Instr} (hx : r.site.func.code[i]? = some x) (hop : x.op ≠ .ret) :
    i + 1 < r.site.func.code.length := by
  obtain ⟨init, y, hcode, hret⟩ := (im.wellFormed.shaped _ r.placed.mem r.placed.internal).last
  have hi : i < r.site.func.code.length := (List.getElem?_eq_some_iff.mp hx).1
  refine Nat.lt_of_le_of_ne hi fun heq => hop ?_
  rw [hcode, List.length_append, List.length_singleton] at heq
  rw [hcode, show i = init.length by omega, List.getElem?_append_right (Nat.le_refl _)] at hx
  simp only [Nat.sub_self, List.getElem?_cons_zero, Option.some.injEq] at hx
  rw [← hx, hret]

end Routine

/-- A machine state shows an activation of a function: its places hold the values of the store, the
    registers what the generator knows, and the values handed over are those pending. -/
structure Matches (site : Site) (address : Bytes → Word) (before : Heap) (entry : State) (g : GenState)
    (a : Activation) (s : State) : Prop where
  alive : Alive site before entry a.heap a.arrays s
  tracks : Tracks site address g.cache s
  store : ∀ o, some o ∈ site.func.operands → Operand.isStorage (some o) = true →
    a.store o = site.frame.contents s o
  args : ∃ os : List Operand, g.pending.toList = os.map some ∧ a.args = os.map (a.word address)

namespace Matches

variable {h : Host} {site : Site} {address : Bytes → Word} {before : Heap} {entry s t : State}
  {g g' : GenState} {a : Activation} {o d : Operand} {v : Word}

variable (hmatches : Matches site address before entry g a s)
include hmatches

/-- The value of an operand is what its place or its literal says. -/
theorem word (ho : some o ∈ site.func.operands) (hvalue : Operand.isValue (some o) = true) :
    a.word address o = (site.frame.contents s).word address o := by
  cases o with
  | const c => rfl
  | temp t => exact hmatches.store _ ho rfl
  | var name => exact hmatches.store _ ho rfl
  | label name => cases hvalue
  | func name => cases hvalue

theorem congr (hregs : t.regs = s.regs) (hmem : t.mem = s.mem) : Matches site address before entry g a t := by
  have hkeeps : s.Keeps t := ⟨hmem, by rw [hregs], by rw [hregs]⟩
  refine ⟨hmatches.alive.of_keeps hkeeps, hmatches.tracks.congr (fun r => by rw [hregs]) hkeeps.contents,
    fun o ho hstorage => ?_, hmatches.args⟩
  rw [hkeeps.contents]
  exact hmatches.store o ho hstorage

/-- Nothing is handed over where nothing is pending. -/
theorem args_nil (hpending : g.pending = #[]) : a.args = [] := by
  obtain ⟨os, hos, hargs⟩ := hmatches.args
  rw [hpending] at hos
  have hnil : os = [] := by simpa using hos.symm
  rw [hargs, hnil]
  rfl

/-- A place was given a value. -/
theorem put (hsound : site.Sound g.strings) (hd : some d ∈ site.func.operands) (hwrote : Wrote h site d v s t)
    (htracks : Tracks site address g'.cache t) (hpending : g'.pending = #[]) (hnone : g.pending = #[]) :
    Matches site address before entry g' (a.stepPut d v) t := by
  refine ⟨hmatches.alive.wrote hsound.fits hwrote, htracks, fun o ho hstorage => ?_, [], ?_, ?_⟩
  · rw [hwrote.contents hsound.apart hsound.fits hd ho]
    simp only [Activation.stepPut, Store.put?, Store.put]
    split
    · rfl
    · exact hmatches.store o ho hstorage
  · simp [hpending]
  · exact hmatches.args_nil hnone

end Matches

end TreeCompiler.Asm
