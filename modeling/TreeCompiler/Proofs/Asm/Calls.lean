import TreeCompiler.Proofs.Asm.Frames

namespace TreeCompiler.Asm

open Code

variable {h : Host} {site : Site} {address : Bytes → Word} {g g' : GenState} {s t : State} {trap : Prop}
  {xs : List Insn} {os : List Operand}

/-- The stack arguments are those behind the sixth, with their positions. -/
theorem stackArgs_map_some (os : List Operand) :
    stackArgs (os.map some) = ((os.drop 6).zipIdx 6).map fun p => (p.2, some p.1) := by
  rw [stackArgs, List.mapIdx_eq_zipIdx_map, ← List.map_drop, List.zipIdx_map, List.zipIdx_eq_map_add (i := 6)]
  simp [Nat.add_comm]

theorem map_snd_stackArgs (args : List (Option Operand)) : (stackArgs args).map (·.2) = args.drop 6 := by
  apply List.ext_getElem?
  intro i
  simp [stackArgs, Function.comp_def]

/-- Writing arguments over the stack arguments of the running call. -/
theorem overwriteArgs_ensures {k : Nat}
    (hover : overwriteArgs site ((os.zipIdx k).map fun p => (p.2, some p.1)) g = .ok (xs, g')) (hk : 6 ≤ k)
    (hfits : site.frame.Fits) (hplaces : h.Places address g.strings) (hos : ∀ o ∈ os, g.strings.Lists o) :
    g.Keeps g' ∧ ∀ s, g.cache.Sound site address s → (s.regs .rbp).toNat ≤ 2 ^ 47 →
      h.Ensures trap xs s fun t =>
        Filled site address ((s.regs .rbp).toNat + 16 + 8 * (k - 6)) os s t ∧
          g'.cache.Sound site address t := by
  induction os generalizing k g xs with
  | nil =>
    obtain ⟨rfl, rfl⟩ := GenM.pure_eq_ok_iff.mp hover
    exact ⟨⟨rfl, rfl⟩, fun s hcache _ => Host.ensures_nil.mpr ⟨.nil _ s, hcache⟩⟩
  | cons o os ih =>
    simp only [List.zipIdx_cons, List.map_cons, overwriteArgs, GenM.bind_eq_ok_iff, GenM.pure_eq_ok_iff,
      GenM.within_eq_ok_iff] at hover
    obtain ⟨code, g₁, hload, rest, _, hrest, rfl, rfl⟩ := hover
    obtain ⟨hkeeps, hload⟩ := load_ensures_value (h := h) hload (hos o (by simp)) hplaces
    obtain ⟨hkeeps', hrest⟩ := ih hrest (by omega) (hkeeps.strings ▸ hplaces)
      (fun o' ho' => hkeeps.strings ▸ hos o' (by simp [ho']))
    refine ⟨hkeeps.trans hkeeps', fun s hcache hrbp => ?_⟩
    rw [List.append_assoc]
    refine Host.Ensures.append ((hload s trap hcache).mono ?_)
    rintro t ⟨ht, hcache⟩
    have hst : s.Keeps t := ht ▸ .setAdvance ..
    have hrax : t.regs (.tracked .rax) = (site.frame.contents t).word address o := by
      rw [hst.contents, ht]
      simp
    have haddress : Address.isEncodable (.frame (stackArg k)) = true →
        (Address.resolve t (.frame (stackArg k))).toNat = (s.regs .rbp).toNat + 16 + 8 * (k - 6) := by
      intro hencodable
      rw [stackArg_resolve hk hencodable (by rw [hst.rbp]; exact hrbp), hst.rbp]
    refine Host.Ensures.append (fill_ensures hfits haddress (.inr ?_) hrax fun u hfilled hregs => ?_)
    · rw [hst.rbp]
      omega
    · refine (hrest u (hcache.congr hregs hfilled.contents) ?_).mono ?_
      · rw [hfilled.rbp, hst.rbp]
        exact hrbp
      · rintro w ⟨hfilled', hcache⟩
        rw [hfilled.rbp, hst.rbp, show k + 1 - 6 = k - 6 + 1 by omega] at hfilled'
        exact ⟨.cons (hfilled.of_keeps hst) hfilled', hcache⟩

/-- The arguments of the running call were replaced. -/
structure Rebound (site : Site) (address : Bytes → Word) (os : List Operand) (s t : State) : Prop where
  rsp : t.regs .rsp = s.regs .rsp
  rbp : t.regs .rbp = s.regs .rbp
  mem : ∀ c, c < (s.regs .rbp).toNat + 16 ∨ (s.regs .rbp).toNat + 16 + 8 * (os.length - 6) ≤ c →
    t.mem c = s.mem c
  passed : Passed t ((s.regs .rbp).toNat + 16) 0 (os.map ((site.frame.contents s).word address))

variable {args : List (Option Operand)} {Q : State → Prop} {pad : Nat} {name : String} {dst : Option Operand}

/-- The parts of a call of the function itself. -/
theorem tailJump_ok (hgen : tailJump site args g = .ok (xs, g')) :
    args.length = site.func.params.length ∧ ∃ onStack g₁ inRegs g₂,
      overwriteArgs site (stackArgs args) g = .ok (onStack, g₁) ∧
        loadRegArgs site 0 args Reg.args g₁ = .ok (inRegs, g₂) ∧ g' = { g₂ with cache := .empty } ∧
          xs = onStack ++ inRegs ++ [.jump "entry"] := by
  unfold tailJump at hgen
  split at hgen
  · exact (GenM.fail_ne_ok g hgen).elim
  · next hlength =>
    simp only [GenM.bind_eq_ok_iff, GenM.pure_eq_ok_iff, GenM.forget_eq_ok_iff] at hgen
    obtain ⟨onStack, g₁, hstack, inRegs, g₂, hregs, _, _, rfl, rfl, rfl⟩ := hgen
    exact ⟨Decidable.not_not.mp hlength, onStack, g₁, inRegs, g₂, hstack, hregs, rfl, rfl⟩

/-- A call of the function itself replaces the arguments and goes to the entry. -/
theorem tailJump_ensures (hgen : tailJump site (os.map some) g = .ok (xs, g'))
    (hfits : site.frame.Fits) (hplaces : h.Places address g.strings) (hos : ∀ o ∈ os, g.strings.Lists o) :
    os.length = site.func.params.length ∧ g.Keeps g' ∧ ∃ ys, xs = ys ++ [.jump "entry"] ∧
      ∀ s, g.cache.Sound site address s → (s.regs .rbp).toNat ≤ 2 ^ 47 →
        h.Ensures False ys s (Rebound site address os s) := by
  obtain ⟨hlength, onStack, g₁, inRegs, g₂, hstack, hregs, rfl, rfl⟩ := tailJump_ok hgen
  rw [stackArgs_map_some] at hstack
  obtain ⟨hkeeps, hstack⟩ := overwriteArgs_ensures (h := h) hstack (Nat.le_refl 6) hfits hplaces
    (fun o ho => hos o (List.mem_of_mem_drop ho))
  obtain ⟨hkeeps', hregs⟩ := loadRegArgs_ensures (h := h) hregs (by decide) (hkeeps.strings ▸ hplaces)
    (hkeeps.strings ▸ hos)
  refine ⟨by simpa using hlength, (hkeeps.trans hkeeps').trans ⟨rfl, rfl⟩, onStack ++ inRegs, rfl,
    fun s hcache hrbp => ?_⟩
  refine Host.Ensures.append ((hstack s hcache hrbp).mono ?_)
  rintro t ⟨hfilled, hcache⟩
  refine (hregs t hcache).mono ?_
  rintro u ⟨htu, _, hvalues, _⟩
  rw [Nat.sub_self, Nat.mul_zero, Nat.add_zero] at hfilled
  refine ⟨htu.rsp.trans hfilled.rsp, htu.rbp.trans hfilled.rbp, fun c hc => ?_, ?_, ?_⟩
  · rw [htu.mem, hfilled.mem c (by simpa using hc)]
  · intro j v r hv hr
    rw [List.getElem?_map, Option.map_eq_some_iff] at hv
    obtain ⟨o, ho, rfl⟩ := hv
    rw [hvalues j o r ho (by simpa using hr), hfilled.contents]
  · intro j v hv hj
    rw [List.getElem?_map, Option.map_eq_some_iff] at hv
    obtain ⟨o, ho, rfl⟩ := hv
    rw [htu.mem, ← hfilled.values (j - 6) o (by rw [List.getElem?_drop, ← ho]; congr 1; omega)]
    congr 2
    omega

/-- The bytes between the stack of a caller and the arguments it passes, whose number decides about
    the alignment. -/
def callSpace (n : Nat) : Nat :=
  8 * (n - 6) + 8 * ((n - 6) % 2)

/-- The arguments of a call were placed, and its caller's stack is untouched. -/
structure Calling (site : Site) (address : Bytes → Word) (os : List Operand) (s t : State) : Prop where
  rbp : t.regs .rbp = s.regs .rbp
  rsp : t.regs .rsp = s.regs .rsp - BitVec.ofNat 64 (callSpace os.length)
  room : (t.regs .rsp).toNat ≤ 2 ^ 47 →
    (t.regs .rsp).toNat + 8 * (os.length - 6) ≤ (s.regs .rsp).toNat ∧ (s.regs .rsp).toNat < 2 ^ 63
  mem : ∀ c, (s.regs .rsp).toNat ≤ c → t.mem c = s.mem c
  passed : Passed t (t.regs .rsp).toNat 0 (os.map ((site.frame.contents s).word address))

/-- A place, if there is one, was given a value. -/
def Stored (h : Host) (site : Site) (v : Word) (s t : State) : Option Operand → Prop
  | some d => Wrote h site d v s t
  | none => s.Keeps t

/-- Reserving bytes on the stack. -/
theorem reserve_ensures (n : Nat)
    (hQ : ∀ t, n < 2 ^ 31 → t.regs .rsp = s.regs .rsp - BitVec.ofNat 64 n →
      (∀ r, r ≠ .rsp → t.regs r = s.regs r) → t.mem = s.mem → Q t) :
    h.Ensures trap (if n = 0 then [] else [.grow n]) s Q := by
  split
  · next hn =>
    subst hn
    exact Host.ensures_nil.mpr (hQ s (by decide) (by simp) (fun _ _ => rfl) rfl)
  · rw [Host.ensures_grow]
    intro hfits
    rw [fits_iff] at hfits
    rw [Host.ensures_nil]
    refine hQ _ (by omega) ?_ (fun r hr => ?_) rfl
    · simp [BitVec.ofInt_natCast]
    · simp [State.set_regs_ne, hr]

/-- Giving bytes on the stack back. -/
theorem release_ensures (n : Nat)
    (hQ : ∀ t, t.regs .rsp = s.regs .rsp + BitVec.ofNat 64 n →
      (∀ r, r ≠ .rsp → t.regs r = s.regs r) → t.mem = s.mem → Q t) :
    h.Ensures trap (if n = 0 then [] else [.shrink n]) s Q := by
  split
  · next hn =>
    subst hn
    exact Host.ensures_nil.mpr (hQ s (by simp) (fun _ _ => rfl) rfl)
  · rw [Host.ensures_shrink]
    intro _
    rw [Host.ensures_nil]
    refine hQ _ ?_ (fun r hr => ?_) rfl
    · simp [BitVec.ofInt_natCast]
    · simp [State.set_regs_ne, hr]

/-- A function calls with its stack below its slots, padding included. -/
theorem Site.Settled.clear_of_pad (hsettled : site.Settled s) (hpad : pad ≤ 8)
    (hrsp : t.regs .rsp = s.regs .rsp - BitVec.ofNat 64 pad) (hrbp : t.regs .rbp = s.regs .rbp) :
    site.Clear t := by
  intro hsmall
  have hlt := (s.regs .rsp).isLt
  have hback : (s.regs .rsp).toNat = (t.regs .rsp).toNat + pad := by
    rw [hrsp, BitVec.toNat_sub, BitVec.toNat_ofNat] at hsmall ⊢
    omega
  have hslots := hsettled (by omega)
  rw [hrbp]
  omega

/-- Arguments that were pushed below some padding and brought into registers are placed for a
    call. -/
theorem Calling.of_pushed {u v : State} (hpad : pad = 8 * ((os.length - 6) % 2))
    (hrsp : t.regs .rsp = s.regs .rsp - BitVec.ofNat 64 pad) (hrbp : t.regs .rbp = s.regs .rbp)
    (hmem : t.mem = s.mem) (hpushed : Pushed site address (os.drop 6).reverse t u) (huv : u.Keeps v)
    (hregs : ∀ (j : Nat) o r, os[j]? = some o → Reg.args[j]? = some r →
      v.regs (.tracked r) = (site.frame.contents u).word address o) :
    Calling site address os s v := by
  have hcontents : site.frame.contents t = site.frame.contents s := Frame.contents_congr hmem hrbp
  have hpushedRsp := hpushed.rsp
  have hroom := hpushed.room
  simp only [List.length_reverse, List.length_drop] at hpushedRsp hroom
  have hlt := (s.regs .rsp).isLt
  -- Without pushes there is no padding, and with pushes the stack did not wrap around.
  have hspace : (t.regs .rsp).toNat ≤ (s.regs .rsp).toNat ∧
      (u.regs .rsp).toNat + 8 * (os.length - 6) = (t.regs .rsp).toNat ∧
        ((u.regs .rsp).toNat ≤ 2 ^ 47 → (s.regs .rsp).toNat < 2 ^ 63) := by
    by_cases hnone : os.length ≤ 6
    · have hzero : os.length - 6 = 0 := by omega
      have hnopad : pad = 0 := by rw [hpad, hzero]
      rw [hpushedRsp, hrsp, hzero, hnopad]
      simp
      omega
    · obtain ⟨hlow, hhigh⟩ := hroom (by
        rw [ne_eq, List.reverse_eq_nil_iff, List.drop_eq_nil_iff]
        exact hnone)
      rw [hpushedRsp, BitVec.toNat_sub, BitVec.toNat_ofNat]
      rw [hrsp, BitVec.toNat_sub, BitVec.toNat_ofNat] at hlow hhigh ⊢
      omega
  refine ⟨huv.rbp.trans (hpushed.rbp.trans hrbp), ?_, fun hsmall => ?_, fun c hc => ?_, ?_, ?_⟩
  · rw [huv.rsp, hpushedRsp, hrsp, BitVec.sub_sub, ← BitVec.ofNat_add, hpad, callSpace, Nat.add_comm]
  · rw [huv.rsp] at hsmall ⊢
    omega
  · rw [huv.mem, hpushed.above c (by omega), hmem]
  · intro j w r hw hr
    rw [List.getElem?_map, Option.map_eq_some_iff] at hw
    obtain ⟨o, ho, rfl⟩ := hw
    rw [hregs j o r ho (by simpa using hr), hpushed.contents, hcontents]
  · intro j w hw hj
    rw [List.getElem?_map, Option.map_eq_some_iff] at hw
    obtain ⟨o, ho, rfl⟩ := hw
    have hlength : j < os.length := (List.getElem?_eq_some_iff.mp ho).1
    -- The first argument was pushed last.
    have hpos : (os.drop 6).reverse[os.length - 1 - j]? = some o := by
      rw [List.getElem?_reverse (by simp; omega), List.getElem?_drop, ← ho]
      congr 1
      simp only [List.length_drop]
      omega
    rw [huv.mem, huv.rsp, ← hcontents, ← hpushed.values _ o hpos]
    congr 1
    omega

/-- The instructions of a call up to the call itself: padding, the stack arguments from the last one
    to the first, and the arguments in registers. -/
def callArgs (n : Nat) (pushes inRegs : List Insn) : List Insn :=
  (if 8 * ((n - 6) % 2) = 0 then [] else [.grow ↑(8 * ((n - 6) % 2))]) ++ pushes ++ inRegs

/-- The parts of a call. -/
theorem plainCall_ok
    (hgen : plainCall site name args dst g = .ok (xs, g')) :
    ∃ pushes g₁ inRegs g₂ keep, pushArgs site (stackArgs args).reverse g = .ok (pushes, g₁) ∧
      loadRegArgs site 0 args Reg.args g₁ = .ok (inRegs, g₂) ∧
        (dst = none ∧ keep = [] ∧ g' = { g₂ with cache := .empty } ∨
          store site dst .rax { g₂ with cache := .empty } = .ok (keep, g')) ∧
            xs = callArgs args.length pushes inRegs ++ .call name ::
              ((if callSpace args.length = 0 then [] else [.shrink ↑(callSpace args.length)]) ++ keep) := by
  have hlength : (stackArgs args).length = args.length - 6 := by
    simp [stackArgs]
  simp only [plainCall, hlength, GenM.bind_eq_ok_iff, GenM.forget_eq_ok_iff] at hgen
  obtain ⟨pushes, g₁, hpushes, inRegs, g₂, hregs, _, _, rfl, hgen⟩ := hgen
  cases dst with
  | none =>
    simp only [Option.isNone_none, if_true, GenM.bind_eq_ok_iff, GenM.pure_eq_ok_iff] at hgen
    obtain ⟨_, _, ⟨rfl, rfl⟩, rfl, rfl⟩ := hgen
    exact ⟨pushes, g₁, inRegs, g₂, [], hpushes, hregs, .inl ⟨rfl, rfl, rfl⟩, by simp [callArgs, callSpace]⟩
  | some d =>
    simp only [Option.isNone_some, Bool.false_eq_true, if_false, GenM.bind_eq_ok_iff,
      GenM.pure_eq_ok_iff] at hgen
    obtain ⟨keep, _, hkeep, rfl, rfl⟩ := hgen
    exact ⟨pushes, g₁, inRegs, g₂, keep, hpushes, hregs, .inr hkeep, by simp [callArgs, callSpace]⟩

/-- Up to a call its arguments are placed, whatever is known of the registers, if it is true. -/
theorem callArgs_ensures {pushes inRegs : List Insn} {g₁ g₂ : GenState}
    (hpushes : pushArgs site (stackArgs (os.map some)).reverse g = .ok (pushes, g₁))
    (hregs : loadRegArgs site 0 (os.map some) Reg.args g₁ = .ok (inRegs, g₂)) (hfits : site.frame.Fits)
    (hplaces : h.Places address g.strings) (hos : ∀ o ∈ os, g.strings.Lists o) :
    g.Keeps g₂ ∧ ∀ s, g.cache.Sound site address s → site.Settled s →
      h.Ensures False (callArgs os.length pushes inRegs) s (Calling site address os s) := by
  have hargs : (stackArgs (os.map some)).reverse.map (·.2) = (os.drop 6).reverse.map some := by
    rw [List.map_reverse, map_snd_stackArgs, ← List.map_drop, List.map_reverse]
  obtain ⟨hkeeps, hpushes⟩ := pushArgs_ensures (h := h) hpushes hargs hfits hplaces
    (fun o ho => hos o (List.mem_of_mem_drop (List.mem_reverse.mp ho)))
  obtain ⟨hkeeps', hregs⟩ := loadRegArgs_ensures (h := h) hregs (by decide) (hkeeps.strings ▸ hplaces)
    (hkeeps.strings ▸ hos)
  refine ⟨hkeeps.trans hkeeps', fun s hcache hsettled => ?_⟩
  rw [callArgs, List.append_assoc]
  refine Host.Ensures.append (reserve_ensures _ fun t _ hrsp hother hmem => ?_)
  have hrbp := hother .rbp (by simp)
  have htracked := fun r => hother (.tracked r) (by simp)
  refine Host.Ensures.append ((hpushes t (hcache.congr htracked (Frame.contents_congr hmem hrbp))
    (hsettled.clear_of_pad (by omega) hrsp hrbp)).mono ?_)
  rintro u ⟨hpushed, hcache⟩
  refine (hregs u hcache).mono ?_
  rintro v ⟨huv, _, hvalues, _⟩
  exact .of_pushed rfl hrsp hrbp hmem hpushed huv hvalues

/-- A call places its arguments, and what follows it gives the stack back and keeps the result. -/
theorem plainCall_ensures
    (hgen : plainCall site name (os.map some) dst g = .ok (xs, g')) (hsound : site.Sound g.strings)
    (hplaces : h.Places address g.strings) (hmem : ∀ o ∈ os, some o ∈ site.func.operands)
    (hdst : dst ∈ site.func.operands) :
    g.Keeps g' ∧ ∃ ys zs, xs = ys ++ .call name :: zs ∧
      (∀ s, Tracks site address g.cache s → site.Settled s →
        h.Ensures False ys s (Calling site address os s)) ∧
          ∀ s, h.Ensures False zs s fun t => ∃ u, u.mem = s.mem ∧ u.regs .rbp = s.regs .rbp ∧
            u.regs .rsp = s.regs .rsp + BitVec.ofNat 64 (callSpace os.length) ∧
              Stored h site (s.regs (.tracked .rax)) u t dst ∧ Tracks site address g'.cache t := by
  obtain ⟨pushes, g₁, inRegs, g₂, keep, hpushes, hregs, hkeep, rfl⟩ := plainCall_ok hgen
  obtain ⟨hkeeps, hplaced⟩ := callArgs_ensures (h := h) hpushes hregs hsound.fits hplaces
    fun o ho => (hsound.reads (hmem o ho)).2
  have hkept : g.Keeps { g₂ with cache := .empty } := hkeeps.trans ⟨rfl, rfl⟩
  have hstate : g.Keeps g' := by
    rcases hkeep with ⟨_, _, rfl⟩ | hkeep
    · exact hkept
    · obtain ⟨hpending, hstrings⟩ := store_state hkeep
      exact hkept.trans ⟨hpending, hstrings⟩
  rw [List.length_map]
  refine ⟨hstate, _, _, rfl, fun s htracks => hplaced s htracks.holds, fun s => ?_⟩
  refine Host.Ensures.append (release_ensures _ fun t hrsp hother hmem => ?_)
  have hrbp := hother .rbp (by simp)
  rcases hkeep with ⟨rfl, rfl, rfl⟩ | hkeep
  · exact Host.ensures_nil.mpr ⟨t, hmem, hrbp, hrsp, .refl t, .empty ..⟩
  · obtain ⟨d, rfl, hensures⟩ := store_ensures (h := h) hkeep hdst hsound.apart hsound.fits
      (Tracks.empty site address t)
    refine hensures.mono ?_
    rintro u ⟨hwrote, htracks⟩
    rw [hother (.tracked .rax) (by simp)] at hwrote
    exact ⟨t, hmem, hrbp, hrsp, hwrote, htracks⟩

end TreeCompiler.Asm
