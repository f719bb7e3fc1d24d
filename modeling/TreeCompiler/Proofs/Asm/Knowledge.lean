import TreeCompiler.Proofs.Asm.ArrayCode
import TreeCompiler.Proofs.Asm.Calls
import TreeCompiler.Proofs.Asm.Walk

/-!
What the generator knows of the registers, as a condition on the states of a machine, and the
instructions that it generates with and without using it. Both do the same to every state of which
the knowledge is true, and it stays true.
-/

namespace TreeCompiler.Asm

open Code

/-- Where the strings of a table are placed. -/
def Host.place (h : Host) (strings : StringTable) (t : Bytes) : Word :=
  h.dataAddress (strings.intern t).1

/-- An operand can be fetched: it is a literal or has a slot, the literal is not of an unknown kind,
    and the slot can be used. -/
structure Host.Fetches (h : Host) (fr : Frame) (s : State) (o : Operand) : Prop where
  kind : (∃ c, o = .const c) ∨ ∃ offset, fr.offset? o = some offset
  literal : ∀ kind, o ≠ .const (.unknown kind)
  slot : ∀ offset, fr.offset? o = some offset → fits offset = true ∧ h.accessible (s.slotAddress offset) = true

/-- What is known of the registers is true, and could also be had without them. -/
structure Knows (h : Host) (site : Site) (strings : StringTable) (c : Cache) (s : State) : Prop where
  tracks : Tracks site (h.place strings) c s
  fetches : ∀ r o, c.get r = some o → h.Fetches site.frame s o

variable {h : Host} {site : Site} {strings : StringTable} {c : Cache} {s t : State} {o : Operand} {r : Reg}

theorem Host.Fetches.congr {fr : Frame} (hfetches : h.Fetches fr s o) (hrbp : t.regs .rbp = s.regs .rbp) :
    h.Fetches fr t o := by
  refine ⟨hfetches.kind, hfetches.literal, fun offset hoffset => ?_⟩
  have haddress : t.slotAddress offset = s.slotAddress offset := by
    simp only [State.slotAddress, hrbp]
  rw [haddress]
  exact hfetches.slot offset hoffset

namespace Knows

theorem empty (h : Host) (site : Site) (strings : StringTable) (s : State) : Knows h site strings .empty s :=
  ⟨.empty .., fun r o hget => by simp at hget⟩

section Keeping

variable (hknows : Knows h site strings c s)
include hknows

theorem congr (hrbp : t.regs .rbp = s.regs .rbp) (hregs : ∀ r, t.regs (.tracked r) = s.regs (.tracked r))
    (hcontents : site.frame.contents t = site.frame.contents s) : Knows h site strings c t :=
  ⟨hknows.tracks.congr hregs hcontents, fun r o hget => (hknows.fetches r o hget).congr hrbp⟩

/-- What is known only depends on the entries. -/
theorem of_get {c' : Cache} (hget : ∀ r, c'.get r = c.get r) : Knows h site strings c' s :=
  ⟨hknows.tracks.of_get hget, fun r o ho => hknows.fetches r o (hget r ▸ ho)⟩

/-- A register that was given the value of an operand can be recorded. -/
theorem set (r : Reg) (hfetches : h.Fetches site.frame s o)
    (hmention : Operand.isStorage (some o) = true → some o ∈ site.func.operands) (n : Nat) :
    Knows h site strings (c.set r (some o))
      ((s.set (.tracked r) ((site.frame.contents s).word (h.place strings) o)).advance n) := by
  have hrbp : ((s.set (.tracked r) ((site.frame.contents s).word (h.place strings) o)).advance n).regs .rbp =
      s.regs .rbp := by simp [State.set_regs_ne]
  refine ⟨(hknows.tracks.set r hmention).congr (fun _ => rfl) rfl, fun r' o' hget => ?_⟩
  rw [Cache.get_set] at hget
  split at hget
  · cases hget
    exact hfetches.congr hrbp
  · exact (hknows.fetches r' o' hget).congr hrbp

/-- A register that was changed is forgotten. -/
theorem forget (r : Reg) (hkeeps : s.Keeps t) (hregs : ∀ r', r' ≠ r → t.regs (.tracked r') = s.regs (.tracked r')) :
    Knows h site strings (c.set r none) t := by
  refine ⟨hknows.tracks.forget r hregs hkeeps.contents, fun r' o' hget => ?_⟩
  rw [Cache.get_set] at hget
  split at hget
  · cases hget
  · exact (hknows.fetches r' o' hget).congr hkeeps.rbp

/-- A register that was written to a slot holds what is there, and those that held it before do so
    no longer. -/
theorem wrote (hapart : site.Apart) (hfits : site.frame.Fits) (ho : some o ∈ site.func.operands)
    (hfetches : h.Fetches site.frame s o) (hwrote : Wrote h site o (s.regs (.tracked r)) s t)
    (hregs : ∀ r, t.regs (.tracked r) = s.regs (.tracked r)) : Knows h site strings (c.written o r) t := by
  refine ⟨hknows.tracks.wrote hapart hfits ho hwrote hregs, fun r' o' hget => ?_⟩
  rw [Cache.get_written] at hget
  split at hget
  · cases hget
    exact hfetches.congr hwrote.rbp
  · split at hget
    · cases hget
    · exact (hknows.fetches r' o' hget).congr hwrote.rbp

end Keeping

end Knows

theorem Host.exec_load_eq_ok_iff {dst : Reg} {src : Address} : h.exec s (.load dst src) = .ok t ↔
    src.isEncodable = true ∧ h.accessible (src.resolve s).toNat = true ∧
      (s.set dst (s.mem.read (src.resolve s).toNat)).next = t := by
  by_cases hfits : src.isEncodable = true <;>
    by_cases haccess : h.accessible (src.resolve s).toNat = true <;>
      simp [exec, load, hfits, haccess, bind, Except.bind, pure, Except.pure]

theorem Host.exec_store_eq_ok_iff {dst : Address} {src : Reg} : h.exec s (.store dst src) = .ok t ↔
    dst.isEncodable = true ∧ h.accessible (dst.resolve s).toNat = true ∧
      { s with mem := s.mem.write (dst.resolve s).toNat (s.regs src) }.next = t := by
  by_cases hfits : dst.isEncodable = true <;>
    by_cases haccess : h.accessible (dst.resolve s).toNat = true <;>
      simp [exec, store, hfits, haccess, Except.map]

namespace Loaded

variable {fr : Frame} {answers : Answers} {g g' : GenState} {xs : List Insn}

theorem isPlain (hload : Loaded site o r g xs g') : ∀ x ∈ xs, x.isPlain = true := by
  cases hload with
  | hit hcached => simp
  | move other hcached => simp [Insn.isPlain]
  | fetch hfetch => cases hfetch <;> simp [Insn.isPlain]

/-- An operand that was loaded can be fetched. -/
theorem fetches (hload : Loaded site o r g xs g') (hknows : Knows h site g.strings g.cache s)
    (hdoes : h.Does fr answers (xs.map .insn) s t) : h.Fetches site.frame s o := by
  have hliteral : ∀ c, o = .const c → (∀ kind, c ≠ .unknown kind) → h.Fetches site.frame s o := by
    rintro c rfl hc
    exact ⟨.inl ⟨c, rfl⟩, fun kind heq => hc kind (Operand.const.inj heq), fun offset hoffset => by
      simp [Frame.offset?, Frame.slot?] at hoffset⟩
  cases hload with
  | hit hcached => exact hknows.fetches r o hcached
  | move other hcached => exact hknows.fetches other o hcached
  | fetch hfetch =>
    cases hfetch with
    | int v ho => exact hliteral _ ho (by simp)
    | bool b ho => exact hliteral _ ho (by simp)
    | str t ho => exact hliteral _ ho (by simp)
    | void ho => exact hliteral _ ho (by simp)
    | slot offset ho hoffset =>
      have hexec := (Host.does_insn.mp hdoes).exec rfl
      obtain ⟨hfits, haccess, _⟩ := Host.exec_load_eq_ok_iff.mp hexec
      refine ⟨.inr ⟨offset, hoffset⟩, fun kind heq => ?_, fun offset' hoffset' => ?_⟩
      · rw [heq] at ho
        cases ho
      · cases hoffset.symm.trans hoffset'
        exact ⟨hfits, haccess⟩

/-- An operand that can be fetched is loaded, whichever way the generator takes. -/
theorem does (hload : Loaded site o r g xs g') (hfetches : h.Fetches site.frame s o) (fr : Frame)
    (answers : Answers) : ∃ t, h.Does fr answers (xs.map .insn) s t := by
  have hsingle : ∀ {x : Insn} {u : State}, x.isPlain = true →
      (∀ base position src, x ≠ .store (.element base position) src) → h.exec s x = .ok u →
        ∃ t, h.Does fr answers ([x].map .insn) s t :=
    fun hx helement hexec => ⟨_, Host.does_insn.mpr (Host.acts_of_exec hx helement hexec)⟩
  cases hload with
  | hit hcached => exact ⟨s, rfl⟩
  | move other hcached => exact hsingle rfl (by simp) rfl
  | fetch hfetch =>
    cases hfetch with
    | slot offset ho hoffset =>
      obtain ⟨hfits, haccess⟩ := hfetches.slot offset hoffset
      exact hsingle rfl (by simp) (Host.exec_load_eq_ok_iff.mpr ⟨hfits, haccess, rfl⟩)
    | _ => exact hsingle rfl (by simp) rfl

/-- Loading puts the value of an operand into a register and changes nothing else. -/
theorem eq_of_does (hload : Loaded site o r g xs g') (hreads : site.Reads g.strings o)
    (hknows : Knows h site g.strings g.cache s) (hdoes : h.Does fr answers (xs.map .insn) s t) :
    t = (s.set (.tracked r) ((site.frame.contents s).word (h.place g.strings) o)).advance xs.length := by
  have hensures : h.Ensures False xs s _ := hload.ensures hreads (fun _ _ => rfl) hknows.tracks
  exact (hdoes.ensures hload.isPlain hensures).1

end Loaded

/-- A function that is compiled twice, for texts like each other. -/
structure Twin where
  host : Host
  host' : Host
  like : host.Like host'
  site : Site
  strings : StringTable
  sound : site.Sound strings
  answers : Answers
  reuse : Bool

namespace Twin

variable (σ : Twin)

/-- What is known of the registers is true, and the stack and the base of the frame are related in
    some way. -/
def Holds (K : Word → Word → Prop) (c : Cache) (s : State) : Prop :=
  Knows σ.host σ.site σ.strings c s ∧ K (s.regs .rsp) (s.regs .rbp)

/-- Instructions that were generated twice from the same knowledge do the same, and lead to the same
    knowledge. -/
def Agrees (K K' : Word → Word → Prop) (c : Cache) (xs ys : List Insn) (c' : Cache) : Prop :=
  Alike σ.host σ.host' σ.site.frame σ.answers (σ.Holds K c) xs ys (σ.Holds K' c')

/-- Two computations that start with the same knowledge end with the same knowledge, and their results
    are related. -/
def Pairs {α : Type} (m m' : GenM α) (g : GenState) (Q : α → α → GenState → Prop) : Prop :=
  g.strings = σ.strings → ∀ a g₁ b g₁', m g = .ok (a, g₁) →
    m' { g with reuse := σ.reuse } = .ok (b, g₁') →
    g₁.strings = σ.strings ∧ g₁' = { g₁ with reuse := σ.reuse } ∧ Q a b g₁

/-- A computation generates instructions that agree. -/
def Codes (K K' : Word → Word → Prop) (m : GenM (List Insn)) (g : GenState) : Prop :=
  σ.Pairs m m g fun xs ys g₁ => σ.Agrees K K' g.cache xs ys g₁.cache

variable {σ} {K K₁ K₂ : Word → Word → Prop} {c₁ c₂ : Cache} {g : GenState} {xs ys xs' ys' : List Insn}

theorem Holds.mono (hholds : σ.Holds K c s)
    (himp : K (s.regs .rsp) (s.regs .rbp) → K₁ (s.regs .rsp) (s.regs .rbp)) : σ.Holds K₁ c s :=
  ⟨hholds.1, himp hholds.2⟩

namespace Agrees

theorem refl (c : Cache) : σ.Agrees K K c [] [] c :=
  .nil fun _ hs => hs

theorem trans (hfirst : σ.Agrees K K₁ c xs ys c₁) (hrest : σ.Agrees K₁ K₂ c₁ xs' ys' c₂) :
    σ.Agrees K K₂ c (xs ++ xs') (ys ++ ys') c₂ :=
  hfirst.append hrest

/-- Instructions that do not depend on what is known. -/
theorem fixed (hxs : ∀ x ∈ xs, x.isStraight = true)
    (hholds : ∀ s t, σ.Holds K c s → σ.host.Does σ.site.frame σ.answers (xs.map .insn) s t →
      σ.Holds K₁ c₁ t) :
    σ.Agrees K K₁ c xs xs c₁ :=
  .same σ.like hxs hholds

/-- Where the stack ends may be named. -/
theorem name_rsp (hagrees : ∀ top, σ.Agrees (fun rsp rbp => rsp = top ∧ K rsp rbp) K₁ c xs ys c₁) :
    σ.Agrees K K₁ c xs ys c₁ where
  straight := (hagrees 0).straight
  straight' := (hagrees 0).straight'
  does s t pc hs hdoes := (hagrees (s.regs .rsp)).does s t pc (hs.mono fun hK => ⟨rfl, hK⟩) hdoes

end Agrees

namespace Pairs

variable {α β : Type} {m m' : GenM α} {k k' : α → GenM β} {P Q : α → α → GenState → Prop}
  {R : β → β → GenState → Prop}

theorem mono (hm : σ.Pairs m m' g P) (himp : ∀ {a b g₁}, P a b g₁ → Q a b g₁) : σ.Pairs m m' g Q := by
  intro hg a g₁ b g₁' ha hb
  obtain ⟨hg₁, hstate, hP⟩ := hm hg a g₁ b g₁' ha hb
  exact ⟨hg₁, hstate, himp hP⟩

theorem bind (hm : σ.Pairs m m' g P) (hk : ∀ {a b g₁}, P a b g₁ → σ.Pairs (k a) (k' b) g₁ R) :
    σ.Pairs (m >>= k) (m' >>= k') g R := by
  intro hg c g₂ d g₂' hrun hrun'
  obtain ⟨a, g₁, ha, hc⟩ := GenM.bind_eq_ok_iff.mp hrun
  obtain ⟨b, g₁', hb, hd⟩ := GenM.bind_eq_ok_iff.mp hrun'
  obtain ⟨hg₁, rfl, hP⟩ := hm hg a g₁ b g₁' ha hb
  exact hk hP hg₁ c g₂ d g₂' hc hd

theorem pure {a b : α} (hQ : Q a b g) : σ.Pairs (pure a) (pure b) g Q := by
  intro hg _ _ _ _ ha hb
  obtain ⟨rfl, rfl⟩ := GenM.pure_eq_ok_iff.mp ha
  obtain ⟨rfl, rfl⟩ := GenM.pure_eq_ok_iff.mp hb
  exact ⟨hg, rfl, hQ⟩

theorem within {place : Place} (hm : σ.Pairs m m' g Q) : σ.Pairs (m.within place) (m'.within place) g Q :=
  fun hg a g₁ b g₁' ha hb => hm hg a g₁ b g₁' (GenM.within_eq_ok_iff.mp ha) (GenM.within_eq_ok_iff.mp hb)

theorem fail {cause : Cause} : σ.Pairs (.fail cause) m' g Q :=
  fun _ _ _ _ _ ha => (GenM.fail_ne_ok g ha).elim

theorem get {k k' : GenState → GenM β} (hk : σ.Pairs (k g) (k' { g with reuse := σ.reuse }) g R) :
    σ.Pairs (get >>= k) (get >>= k') g R :=
  hk

theorem track {f : Cache → Cache} {k k' : Unit → GenM β}
    (hk : σ.Pairs (k ()) (k' ()) { g with cache := f g.cache } R) : σ.Pairs (.track f >>= k) (.track f >>= k') g R :=
  hk

theorem takePending {k k' : List (Option Operand) → GenM β}
    (hk : σ.Pairs (k g.pending.toList) (k' g.pending.toList) { g with pending := #[] } R) :
    σ.Pairs (GenM.takePending >>= k) (GenM.takePending >>= k') g R :=
  hk

end Pairs

theorem Codes.name_rsp {m : GenM (List Insn)}
    (hm : ∀ top, σ.Codes (fun rsp rbp => rsp = top ∧ K rsp rbp) K₁ m g) :
    σ.Codes K K₁ m g := by
  intro hg xs g₁ ys g₁' hxs hys
  obtain ⟨hg₁, hstate, _⟩ := hm 0 hg xs g₁ ys g₁' hxs hys
  exact ⟨hg₁, hstate, .name_rsp fun top => (hm top hg xs g₁ ys g₁' hxs hys).2.2⟩

theorem reads {src : Option Operand} (hsrc : src ∈ σ.site.func.operands) :
    ∀ o, src = some o → σ.site.Reads σ.strings o := by
  rintro o rfl
  exact σ.sound.reads hsrc

theorem load_codes {src : Option Operand} (hsrc : ∀ o, src = some o → σ.site.Reads σ.strings o) :
    σ.Codes K K (load σ.site src r) g := by
  intro hg xs g₁ ys g₁' hload hload'
  obtain ⟨o, rfl, hloaded⟩ := load_ok hload
  obtain ⟨_, ho, hloaded'⟩ := load_ok hload'
  cases ho
  have hreads : σ.site.Reads g.strings o := hg ▸ hsrc o rfl
  have hstate := hloaded.eq_set hreads.2
  have hstate' := hloaded'.eq_set hreads.2
  have hstraight : ∀ {zs : List Insn}, (∀ z ∈ zs, z.isPlain = true) → ∀ z ∈ zs, z.isStraight = true :=
    fun hplain z hz => Insn.isStraight_of_isPlain (hplain z hz)
  refine ⟨by rw [hstate, ← hg], by rw [hstate', hstate], hstraight hloaded.isPlain,
    hstraight hloaded'.isPlain, ?_⟩
  rintro s t pc ⟨hknows, hK⟩ hdoes
  rw [← hg] at hknows
  have hfetches := hloaded.fetches hknows hdoes
  have ht := hloaded.eq_of_does hreads hknows hdoes
  obtain ⟨t', hdoes'⟩ := hloaded'.does hfetches σ.site.frame σ.answers
  have ht' := hloaded'.eq_of_does hreads hknows hdoes'
  have hmoved : t'.moved (pc + ys.length) = t.moved (pc + ys.length) := by
    rw [ht, ht']
    rfl
  have hkeeps : s.Keeps t := ht ▸ .setAdvance ..
  refine ⟨?_, ?_, ?_⟩
  · have hother := hdoes'.moved σ.like pc
    rw [List.length_map, hmoved] at hother
    exact hother
  · rw [← hg, hstate, ht]
    exact hknows.set r hfetches hreads.1 xs.length
  · rw [hkeeps.rsp, hkeeps.rbp]
    exact hK

theorem store_codes {dst : Option Operand} (hdst : dst ∈ σ.site.func.operands) :
    σ.Codes K K (store σ.site dst r) g := by
  intro hg xs g₁ ys g₁' hstore hstore'
  obtain ⟨d, offset, rfl, hoffset, rfl, rfl⟩ := store_ok hstore
  obtain ⟨_, offset', hd, hoffset', rfl, rfl⟩ := store_ok hstore'
  cases hd
  cases hoffset.symm.trans hoffset'
  refine ⟨hg, rfl, .fixed (by simp [Insn.isStraight]) ?_⟩
  rintro s t ⟨hknows, hK⟩ hdoes
  have hexec := (Host.does_insn.mp hdoes).exec rfl
  obtain ⟨hfits, haccess, rfl⟩ := Host.exec_store_eq_ok_iff.mp hexec
  refine ⟨hknows.wrote σ.sound.apart σ.sound.fits hdst
    ⟨.inr ⟨offset, hoffset⟩, ?_, fun offset' hoffset' => ?_⟩
    ⟨rfl, rfl, offset, hoffset, haccess, rfl⟩ fun _ => rfl, hK⟩
  · rintro kind rfl
    simp [Frame.offset?, Frame.slot?] at hoffset
  · cases hoffset.symm.trans hoffset'
    exact ⟨hfits, haccess⟩

theorem loadPair_codes {left right : Option Operand} (hleft : left ∈ σ.site.func.operands)
    (hright : right ∈ σ.site.func.operands) : σ.Codes K K (loadPair σ.site left right) g :=
  .bind (load_codes (reads hleft)).within fun hl => .bind (load_codes (reads hright)).within fun hr =>
    .pure (hl.trans hr)

end Twin

end TreeCompiler.Asm
