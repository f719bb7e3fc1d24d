import TreeCompiler.Proofs.Asm.Arithmetic
import TreeCompiler.Proofs.Asm.Tracking

namespace TreeCompiler.Asm

open Code

/-- The strings of a program are placed where their addresses say. -/
def Host.Places (h : Host) (address : Bytes → Word) (strings : StringTable) : Prop :=
  ∀ t ∈ strings.strings, address t = h.dataAddress (strings.intern t).1

/-- A load changes one tracked register. -/
theorem State.Keeps.setAdvance (s : State) (r : Reg) (v : Word) (n : Nat) :
    s.Keeps ((s.set (.tracked r) v).advance n) :=
  (State.Keeps.set s r v).trans ⟨rfl, rfl, rfl⟩

theorem State.Keeps.contents {s t : State} (hkeeps : s.Keeps t) {fr : Frame} :
    fr.contents t = fr.contents s :=
  Frame.contents_congr hkeeps.mem hkeeps.rbp

variable {h : Host} {site : Site} {address : Bytes → Word} {g g' : GenState} {s : State} {trap : Prop}
  {xs : List Insn} {o : Operand} {r : Reg}

theorem Cache.set_of_get {c : Cache} (hget : c.get r = some o) : c.set r (some o) = c := by
  have hentry : c.entries[(r.index : Nat)] = some o := hget
  unfold set
  rw [← hentry, Vector.set_getElem_self]

/-- An operand that is a string is in a table. -/
def StringTable.Lists (strings : StringTable) (o : Operand) : Prop :=
  ∀ t, o = .const (.str t) → t ∈ strings.strings

namespace Loaded

/-- However an operand is loaded, it is recorded. -/
theorem eq_set (hload : Loaded site o r g xs g') (ho : g.strings.Lists o) :
    g' = { g with cache := g.cache.set r (some o) } := by
  cases hload with
  | hit hcached => rw [Cache.set_of_get hcached]
  | move other hcached => rfl
  | fetch hfetch =>
    cases hfetch with
    | str t heq => rw [StringTable.intern_of_mem (ho t heq)]
    | _ => rfl

/-- Loading an operand puts its value into the register, whichever way the generator takes, and
    changes nothing else. -/
theorem ensures_value (hload : Loaded site o r g xs g') (ho : g.strings.Lists o)
    (hplaces : h.Places address g.strings) (hcache : g.cache.Sound site address s) :
    h.Ensures trap xs s fun t =>
      t = (s.set (.tracked r) ((site.frame.contents s).word address o)).advance xs.length := by
  cases hload with
  | hit hcached =>
    rw [Host.ensures_nil, ← hcache r o hcached, State.set_regs_self]
    rfl
  | move other hcached =>
    rw [Host.ensures_mov, Host.ensures_nil, hcache other o hcached]
    rfl
  | fetch hfetch =>
    cases hfetch with
    | int v heq =>
      subst heq
      rw [Host.ensures_movConst, Host.ensures_nil, show BitVec.ofInt 64 v.toInt = v.toBitVec from
        BitVec.ofInt_toInt]
      rfl
    | bool b heq =>
      subst heq
      rw [Host.ensures_movConst, Host.ensures_nil, show BitVec.ofInt 64 (if b then 1 else 0) =
        Code.truth b by cases b <;> rfl]
      rfl
    | str t heq =>
      have hword : (site.frame.contents s).word address o = h.dataAddress (g.strings.intern t).1 := by
        subst heq
        exact hplaces t (ho t rfl)
      rw [Host.ensures_leaString, Host.ensures_nil, ← hword]
      rfl
    | void heq =>
      subst heq
      rw [Host.ensures_movConst, Host.ensures_nil]
      rfl
    | slot offset hstorage hoffset =>
      rw [Host.ensures_load]
      intro _ _
      rw [Host.ensures_nil]
      have hword : (site.frame.contents s).word address o =
          s.mem.read (Address.resolve s (.frame offset)).toNat := by
        rw [Store.word_of_isStorage _ _ hstorage, Frame.contents_of_offset? hoffset]
        rfl
      rw [← hword]
      rfl

/-- Loading keeps what is known of the registers true. -/
theorem ensures (hload : Loaded site o r g xs g') (hreads : site.Reads g.strings o)
    (hplaces : h.Places address g.strings) (htracks : Tracks site address g.cache s) :
    h.Ensures trap xs s fun t =>
      t = (s.set (.tracked r) ((site.frame.contents s).word address o)).advance xs.length ∧
        Tracks site address g'.cache t := by
  refine (hload.ensures_value hreads.2 hplaces htracks.holds).mono ?_
  rintro t rfl
  rw [hload.eq_set hreads.2]
  exact ⟨rfl, (htracks.set r hreads.1).congr (fun _ => rfl) rfl⟩

end Loaded

/-- A place of a function was given a value, and of what lasts nothing else changed. -/
structure Wrote (h : Host) (site : Site) (o : Operand) (v : Word) (s t : State) : Prop where
  rsp : t.regs .rsp = s.regs .rsp
  rbp : t.regs .rbp = s.regs .rbp
  mem : ∃ offset, site.frame.offset? o = some offset ∧ h.accessible (s.slotAddress offset) = true ∧
    t.mem = s.mem.write (s.slotAddress offset) v

namespace Wrote

variable {t u : State} {v : Word}

/-- What was kept before a place was written is kept. -/
theorem of_keeps (hkeeps : s.Keeps t) (hwrote : Wrote h site o v t u) : Wrote h site o v s u := by
  obtain ⟨offset, hoffset, haccess, hmem⟩ := hwrote.mem
  have haddress : t.slotAddress offset = s.slotAddress offset := by
    simp only [State.slotAddress, hkeeps.rbp]
  rw [haddress] at haccess hmem
  exact ⟨hwrote.rsp.trans hkeeps.rsp, hwrote.rbp.trans hkeeps.rbp, offset, hoffset, haccess,
    by rw [hmem, hkeeps.mem]⟩

/-- The place holds the value, and the other places of the function hold what they held. -/
theorem contents (hwrote : Wrote h site o v s t) (hapart : site.Apart) (hfits : site.frame.Fits)
    (ho : some o ∈ site.func.operands) {o' : Operand} (ho' : some o' ∈ site.func.operands) :
    site.frame.contents t o' = (site.frame.contents s).put o v o' := by
  obtain ⟨offset, hoffset, _, hmem⟩ := hwrote.mem
  have hcongr : site.frame.contents t =
      site.frame.contents { s with mem := s.mem.write (s.slotAddress offset) v } :=
    Frame.contents_congr hmem hwrote.rbp
  rw [hcongr, Frame.contents_write hfits hoffset]
  by_cases heq : o' = o
  · rw [heq, if_pos hoffset, Store.put_same]
  · rw [if_neg fun hoffset' => heq (hapart o' o offset ho' ho hoffset' hoffset), Store.put_ne _ _ heq]

end Wrote

/-- Storing a register writes a place and changes no register. -/
theorem ensures_storeSlot {offset : Int} (hoffset : site.frame.offset? o = some offset)
    {Q : State → Prop} (hQ : ∀ t, Wrote h site o (s.regs (.tracked r)) s t →
      (∀ r, t.regs (.tracked r) = s.regs (.tracked r)) → Q t) :
    h.Ensures trap [.store (.frame offset) r] s Q := by
  rw [Host.ensures_store]
  intro _ haccess
  rw [Host.ensures_nil]
  exact hQ _ ⟨rfl, rfl, offset, hoffset, haccess, rfl⟩ fun _ => rfl

/-- A register that was written to a place holds it, and those that held it before do so no
    longer. -/
theorem Tracks.wrote {c : Cache} {t : State} (htracks : Tracks site address c s) (hapart : site.Apart)
    (hfits : site.frame.Fits) (ho : some o ∈ site.func.operands)
    (hwrote : Wrote h site o (s.regs (.tracked r)) s t)
    (hregs : ∀ r, t.regs (.tracked r) = s.regs (.tracked r)) :
    Tracks site address (c.written o r) t := by
  obtain ⟨offset, hoffset, _, hmem⟩ := hwrote.mem
  exact (htracks.written hapart hfits r ho hoffset).congr hregs (Frame.contents_congr hmem hwrote.rbp)

/-- Storing a register writes the place of the operand. -/
theorem store_ensures {dst : Option Operand} (hstore : store site dst r g = .ok (xs, g'))
    (hdst : dst ∈ site.func.operands) (hapart : site.Apart) (hfits : site.frame.Fits)
    (htracks : Tracks site address g.cache s) :
    ∃ d, dst = some d ∧ h.Ensures trap xs s fun t =>
      Wrote h site d (s.regs (.tracked r)) s t ∧ Tracks site address g'.cache t := by
  obtain ⟨d, offset, rfl, hoffset, rfl, rfl⟩ := store_ok hstore
  refine ⟨d, rfl, ensures_storeSlot hoffset fun t hwrote hregs => ?_⟩
  exact ⟨hwrote, htracks.wrote hapart hfits hdst hwrote hregs⟩

theorem store_state {dst : Option Operand} (hstore : store site dst r g = .ok (xs, g')) :
    g'.pending = g.pending ∧ g'.strings = g.strings := by
  obtain ⟨d, offset, rfl, hoffset, rfl, rfl⟩ := store_ok hstore
  exact ⟨rfl, rfl⟩

end TreeCompiler.Asm
