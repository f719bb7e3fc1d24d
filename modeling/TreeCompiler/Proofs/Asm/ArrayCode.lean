import TreeCompiler.Proofs.Asm.Stack

namespace TreeCompiler.Asm

open Code

variable {h : Host} {site : Site} {address : Bytes → Word} {g g' : GenState} {s t : State} {trap : Prop}
  {xs : List Insn}

/-- Writing the elements of a new array at the top of the stack, behind its length. -/
theorem storeElems_ensures {index : Nat} {os : List Operand}
    (hstore : storeElems site index (os.map some) g = .ok (xs, g')) (hsound : site.Sound g.strings)
    (hplaces : h.Places address g.strings) (hmem : ∀ o ∈ os, some o ∈ site.func.operands) :
    g.Keeps g' ∧ ∀ s, Tracks site address g.cache s → (s.regs .rbp).toNat ≤ 2 ^ 47 →
      (s.regs .rsp).toNat + 8 * (index + 1) + 8 * os.length + 8 * site.frame.slots.size ≤
        (s.regs .rbp).toNat →
          h.Ensures trap xs s fun t => Filled site address ((s.regs .rsp).toNat + 8 * (index + 1)) os s t ∧
            Tracks site address g'.cache t := by
  induction os generalizing index g xs with
  | nil =>
    obtain ⟨rfl, rfl⟩ := GenM.pure_eq_ok_iff.mp hstore
    exact ⟨⟨rfl, rfl⟩, fun s htracks _ _ => Host.ensures_nil.mpr ⟨.nil _ s, htracks⟩⟩
  | cons o os ih =>
    simp only [List.map_cons, storeElems, GenM.bind_eq_ok_iff, GenM.pure_eq_ok_iff,
      GenM.within_eq_ok_iff] at hstore
    obtain ⟨code, g₁, hload, rest, _, hrest, rfl, rfl⟩ := hstore
    obtain ⟨_, ho, hkeeps, hload⟩ := load_ensures (h := h) hload hsound hplaces (hmem o (by simp))
    cases ho
    obtain ⟨hkeeps', hrest⟩ := ih hrest (hkeeps.strings ▸ hsound) (hkeeps.strings ▸ hplaces)
      (fun o' ho' => hmem o' (by simp [ho']))
    refine ⟨hkeeps.trans hkeeps', fun s htracks hrbp hroom => ?_⟩
    simp only [List.length_cons] at hroom
    rw [List.append_assoc]
    refine Host.Ensures.append ((hload s trap htracks).mono ?_)
    rintro t ⟨ht, htracks⟩
    have hst : s.Keeps t := ht ▸ .setAdvance ..
    have hrax : t.regs (.tracked .rax) = (site.frame.contents t).word address o := by
      rw [hst.contents, ht]
      simp
    have haddress : (Address.resolve t (.stack (8 + 8 * index))).toNat =
        (s.regs .rsp).toNat + 8 * (index + 1) := by
      simp only [Address.resolve, BitVec.toNat_add, BitVec.toNat_ofNat, hst.rsp]
      omega
    refine Host.Ensures.append (fill_ensures hsound.fits (fun _ => haddress) (.inl ?_) hrax
      fun u hfilled hregs => ?_)
    · rw [hst.rbp]
      omega
    · refine (hrest u (htracks.congr hregs hfilled.contents) ?_ ?_).mono ?_
      · rw [hfilled.rbp, hst.rbp]
        exact hrbp
      · rw [hfilled.rsp, hfilled.rbp, hst.rsp, hst.rbp]
        omega
      · rintro w ⟨hfilled', htracks⟩
        rw [hfilled.rsp, hst.rsp] at hfilled'
        exact ⟨.cons (hfilled.of_keeps hst) hfilled', htracks⟩

/-- The space of an array has room for its length and its elements. -/
theorem le_arraySize {n : Nat} (hn : fits n = true) :
    ∃ size : Nat, arraySize n = size ∧ 8 * (n + 1) ≤ size := by
  rw [fits_iff] at hn
  refine ⟨(alignUp (8 + 8 * n)).toNat, ?_, ?_⟩
  · rw [arraySize, Int.bmod_eq_of_le (by unfold alignUp; omega) (by unfold alignUp; omega)]
    unfold alignUp
    omega
  · unfold alignUp
    omega

/-- A new array stands at the top of the stack, below everything that was there. -/
structure Built (site : Site) (address : Bytes → Word) (os : List Operand) (s t : State) : Prop where
  rbp : t.regs .rbp = s.regs .rbp
  room : (t.regs .rsp).toNat + 8 * (os.length + 1) ≤ (s.regs .rsp).toNat
  clear : (s.regs .rsp).toNat + 8 * site.frame.slots.size ≤ (s.regs .rbp).toNat
  mem : ∀ c, (s.regs .rsp).toNat ≤ c → t.mem c = s.mem c
  length : t.mem.read (t.regs .rsp).toNat = BitVec.ofNat 64 os.length
  elems : ∀ (j : Nat) o, os[j]? = some o →
    t.mem.read ((t.regs .rsp).toNat + 8 * (j + 1)) = (site.frame.contents s).word address o

theorem Built.contents {os : List Operand} (hbuilt : Built site address os s t) (hfits : site.frame.Fits) :
    site.frame.contents t = site.frame.contents s :=
  Frame.contents_of_above hfits hbuilt.clear hbuilt.rbp fun c hc _ => hbuilt.mem c hc

/-- Making room for an array and writing its length. -/
theorem openArray_ensures {n : Nat} (hsettled : site.Settled s)
    {Q : State → Prop} (hQ : ∀ t, (t.regs .rsp).toNat + 8 * (n + 1) ≤ (s.regs .rsp).toNat →
      (s.regs .rsp).toNat + 8 * site.frame.slots.size ≤ (s.regs .rbp).toNat →
        t.regs .rbp = s.regs .rbp → (∀ r, t.regs (.tracked r) = s.regs (.tracked r)) →
          t.mem = s.mem.write (t.regs .rsp).toNat (BitVec.ofNat 64 n) → Q t) :
    h.Ensures trap [.grow (arraySize n), .storeConst (.stack 0) n] s Q := by
  rw [Host.ensures_grow]
  intro hgrow
  rw [Host.ensures_storeConst]
  intro _ hn haccess
  obtain ⟨size, hsize, hle⟩ := le_arraySize hn
  rw [hsize] at hgrow haccess ⊢
  rw [fits_iff] at hgrow
  have haddress : ∀ t : State, Address.resolve t (.stack 0) = t.regs .rsp := by
    intro t
    simp [Address.resolve]
  rw [haddress] at haccess ⊢
  rw [Host.ensures_nil]
  have hbound := h.accessible_bound _ haccess
  simp only [State.next_regs, State.clearFlags_regs, State.set_regs_same, BitVec.ofInt_natCast] at hbound ⊢
  -- The space did not wrap around, as its bottom can be used.
  have hbase : (s.regs .rsp).toNat = (s.regs .rsp - BitVec.ofNat 64 size).toNat + size := by
    have hlt := (s.regs .rsp).isLt
    rw [BitVec.toNat_sub, BitVec.toNat_ofNat] at hbound ⊢
    omega
  have hslots := hsettled (by omega)
  refine hQ _ ?_ hslots (by simp [State.set_regs_ne]) (fun r => by simp [State.set_regs_ne]) ?_
  · simp only [State.next_regs, State.set_regs_same]
    omega
  · simp [State.next, State.clearFlags]

/-- Building an array from the values handed over. -/
theorem genArray_ensures {x : Instr} {os : List Operand} (hgen : genArray site x g = .ok (xs, g'))
    (hpending : g.pending.toList = os.map some) (hx : x ∈ site.func.code) (hsound : site.Sound g.strings)
    (hplaces : h.Places address g.strings) (hmem : ∀ o ∈ os, some o ∈ site.func.operands) :
    ∃ d, x.dst = some d ∧ g'.pending = #[] ∧ g'.strings = g.strings ∧
      ∀ s, Tracks site address g.cache s → site.Settled s → (s.regs .rbp).toNat ≤ 2 ^ 47 →
        h.Ensures False xs s fun t => ∃ u, Built site address os s u ∧
          Wrote h site d (u.regs .rsp) u t ∧ Tracks site address g'.cache t := by
  simp only [genArray, GenM.bind_eq_ok_iff, GenM.get_eq_ok_iff] at hgen
  obtain ⟨_, _, ⟨rfl, rfl⟩, hgen⟩ := hgen
  split at hgen
  · simp only [GenM.bind_eq_ok_iff, GenM.pure_eq_ok_iff, GenM.takePending_eq_ok_iff] at hgen
    obtain ⟨_, _, ⟨rfl, rfl⟩, stores, g₁, hstores, keep, _, hkeep, rfl, rfl⟩ := hgen
    rw [hpending] at hstores ⊢
    obtain ⟨hkeeps, hstores⟩ := storeElems_ensures (h := h) hstores hsound hplaces hmem
    obtain ⟨d, hd, hkeeps', hkeep⟩ := replace_ensures (h := h) hkeep (hkeeps.strings ▸ hsound) (Instr.dst_mem hx)
    refine ⟨d, hd, (hkeeps.trans hkeeps').pending, (hkeeps.trans hkeeps').strings,
      fun s htracks hsettled hrbp => ?_⟩
    rw [List.length_map, List.append_assoc, List.append_assoc]
    refine Host.Ensures.append (openArray_ensures hsettled fun t hroom hslots hrbp' hregs hmem => ?_)
    have hcontents : site.frame.contents t = site.frame.contents s :=
      Frame.contents_of_above hsound.fits hslots hrbp' fun c hc _ => by
        rw [hmem]
        exact Memory.write_of_le _ _ (by omega)
    refine Host.Ensures.append ((hstores t (htracks.congr hregs hcontents) ?_ ?_).mono ?_)
    · rw [hrbp']
      exact hrbp
    · rw [hrbp']
      omega
    · rintro u ⟨hfilled, htracks⟩
      rw [List.cons_append, List.nil_append, Host.ensures_mov]
      have hkept : u.Keeps (u.set (.tracked .rax) (u.regs .rsp)).next :=
        (State.Keeps.set u .rax _).trans (.next _)
      refine (hkeep _ _ (htracks.forget .rax (fun r hr => ?_) hkept.contents)).mono ?_
      · simp [State.set_regs_ne, hr]
      · rintro w ⟨hwrote, htracks⟩
        rw [State.next_regs, State.set_regs_same] at hwrote
        refine ⟨u, ⟨hfilled.rbp.trans hrbp', ?_, hslots, fun c hc => ?_, ?_, fun j o ho => ?_⟩,
          hwrote.of_keeps hkept, htracks⟩
        · rw [hfilled.rsp]
          exact hroom
        · rw [hfilled.mem c (.inr (by omega)), hmem]
          exact Memory.write_of_le _ _ (by omega)
        · rw [hfilled.rsp, ← Memory.read_write_same s.mem (t.regs .rsp).toNat (BitVec.ofNat 64 os.length),
            ← hmem]
          exact Memory.read_congr fun c _ hhi => hfilled.mem c (.inl (by omega))
        · rw [hfilled.rsp, ← hcontents, ← hfilled.values j o ho]
          congr 1
          omega
  · exact (GenM.fail_ne_ok _ hgen).elim

end TreeCompiler.Asm
