import TreeCompiler.Asm.Program
import TreeCompiler.Proofs.Asm.Stack
import TreeCompiler.Proofs.Code.Run

namespace TreeCompiler.Asm

open Code

variable {h : Host} {site : Site} {address : Bytes → Word} {g g' : GenState} {s t : State} {trap : Prop}
  {xs : List Insn} {o : Operand} {v : Word}

/-- A slot that can be used lies below the base of the frame, not deeper than there are slots. -/
theorem slotAddress_bound {offset : Int} (hfits : site.frame.Fits)
    (hoffset : site.frame.offset? o = some offset) (haccess : h.accessible (s.slotAddress offset) = true)
    (hrbp : (s.regs .rbp).toNat ≤ 2 ^ 47) :
    s.slotAddress offset + 8 ≤ (s.regs .rbp).toNat ∧
      (s.regs .rbp).toNat ≤ s.slotAddress offset + 8 * site.frame.slots.size := by
  obtain ⟨k, hk, rfl⟩ := Frame.offset?_bound hoffset
  have hbound := h.accessible_bound _ haccess
  have hk' := hfits.slots_lt hk
  rw [slotAddress_eq s k hk'] at hbound ⊢
  omega

/-- Writing a place of the function changes nothing from the base of its frame upwards. -/
theorem Wrote.above (hwrote : Wrote h site o v s t) (hfits : site.frame.Fits)
    (hrbp : (s.regs .rbp).toNat ≤ 2 ^ 47) {b : Nat} (hb : (s.regs .rbp).toNat ≤ b) : t.mem b = s.mem b := by
  obtain ⟨offset, hoffset, haccess, hmem⟩ := hwrote.mem
  have hslot := slotAddress_bound hfits hoffset haccess hrbp
  rw [hmem, Memory.write_of_le _ _ (by omega)]

/-- Where the stack arguments of a function end, seen from the state in which it was entered. -/
def Site.argsEnd (site : Site) (entry : State) : Nat :=
  (entry.regs .rsp).toNat + 8 + 8 * (site.func.params.length - 6)

/-- The frame of a running function below the state in which it was entered. -/
structure Framed (site : Site) (before : Heap) (entry s : State) : Prop where
  bound : 8 ≤ (entry.regs .rsp).toNat ∧ (entry.regs .rsp).toNat ≤ 2 ^ 47
  rbp : s.regs .rbp = entry.regs .rsp - 8
  saved : s.mem.read ((entry.regs .rsp).toNat - 8) = entry.regs .rbp
  returnAddress : s.mem.read (entry.regs .rsp).toNat = entry.mem.read (entry.regs .rsp).toNat
  above : ∀ c, site.argsEnd entry ≤ c → ¬ before.Covers c → s.mem c = entry.mem c

namespace Framed

variable {before : Heap} {entry : State}

section Framed

variable (hframed : Framed site before entry s)
include hframed

theorem rbp_toNat : (s.regs .rbp).toNat + 8 = (entry.regs .rsp).toNat := by
  obtain ⟨hlo, hhi⟩ := hframed.bound
  have hsub : (entry.regs .rsp - 8).toNat = (entry.regs .rsp).toNat - 8 :=
    BitVec.toNat_sub_of_le (y := 8) (by simpa [BitVec.le_def] using hlo)
  rw [hframed.rbp, hsub]
  omega

theorem rbp_le : (s.regs .rbp).toNat ≤ 2 ^ 47 := by
  have hrbp := hframed.rbp_toNat
  have hbound := hframed.bound
  omega

/-- A frame survives changes of memory below its base, and of what it does not keep above. -/
theorem of_mem (hrbp : t.regs .rbp = s.regs .rbp)
    (hmem : ∀ c, (s.regs .rbp).toNat ≤ c → c < (s.regs .rbp).toNat + 16 ∨ site.argsEnd entry ≤ c ∧ ¬ before.Covers c → t.mem c = s.mem c) :
    Framed site before entry t where
  bound := hframed.bound
  rbp := hrbp.trans hframed.rbp
  saved := by
    have hbase := hframed.rbp_toNat
    rw [← hframed.saved]
    exact Memory.read_congr fun c hlo _ => hmem c (by omega) (by omega)
  returnAddress := by
    have hbase := hframed.rbp_toNat
    rw [← hframed.returnAddress]
    exact Memory.read_congr fun c hlo _ => hmem c (by omega) (by omega)
  above c hc hcovers := by
    have hbase := hframed.rbp_toNat
    rw [hmem c (by unfold Site.argsEnd at hc; omega) (.inr ⟨hc, hcovers⟩), hframed.above c hc hcovers]

/-- A frame does not depend on the tracked registers. -/
theorem of_keeps (hkeeps : s.Keeps t) : Framed site before entry t :=
  hframed.of_mem hkeeps.rbp fun _ _ _ => by rw [hkeeps.mem]

end Framed

end Framed

/-- Arguments stand where they are passed, counted from `index`: the first six in registers, the
    others in memory from an address upwards. -/
structure Passed (s : State) (top index : Nat) (vs : List Word) : Prop where
  inRegs : ∀ (j : Nat) v r, vs[j]? = some v → Reg.args[index + j]? = some r → s.regs (.tracked r) = v
  onStack : ∀ (j : Nat) v, vs[j]? = some v → 6 ≤ index + j →
    s.mem.read (top + 8 * (index + j - 6)) = v

variable {index : Nat} {vs : List Word} {ps : List Param}

theorem Passed.tail {top : Nat} (hpassed : Passed s top index (v :: vs))
    (hregs : ∀ r ∈ Reg.args, t.regs (.tracked r) = s.regs (.tracked r))
    (hmem : ∀ b, top ≤ b → t.mem b = s.mem b) : Passed t top (index + 1) vs := by
  constructor
  · intro j w r hw hr
    rw [hregs r (List.mem_of_getElem? hr)]
    exact hpassed.inRegs (j + 1) w r hw (by rw [← hr]; congr 1; omega)
  · intro j w hw hj
    rw [← hpassed.onStack (j + 1) w hw (by omega),
      show index + (j + 1) - 6 = index + 1 + j - 6 by omega]
    exact Memory.read_congr fun b hlo _ => hmem b (by omega)

/-- Giving a value to an operand commutes with giving others to other parameters. -/
theorem bindArgs_put (ho : ∀ p ∈ ps, p.operand ≠ some o) (σ : Store) (vs : List Word) :
    bindArgs (σ.put o v) ps vs = (bindArgs σ ps vs).put o v := by
  induction ps generalizing vs with
  | nil => rfl
  | cons p ps ih =>
    cases vs with
    | nil => rfl
    | cons w vs =>
      simp only [bindArgs, ih (fun q hq => ho q (by simp [hq])) vs]
      cases hp : p.operand with
      | none => rfl
      | some o' =>
        have hne : o' ≠ o := fun heq => ho p (by simp) (by rw [hp, heq])
        funext q
        simp only [Store.put?, Store.put]
        by_cases hq : q = o'
        · simp [hq, hne]
        · simp [hq]

/-- The values of the parameters only depend on what the store holds at the operand itself. -/
theorem bindArgs_congr {σ τ : Store} (heq : σ o = τ o) (ps : List Param) (vs : List Word) :
    bindArgs σ ps vs o = bindArgs τ ps vs o := by
  induction ps generalizing vs with
  | nil => exact heq
  | cons p ps ih =>
    cases vs with
    | nil => exact heq
    | cons w vs =>
      simp only [bindArgs]
      cases p.operand with
      | none => exact ih vs
      | some o' =>
        simp only [Store.put?, Store.put]
        by_cases ho : o = o'
        · simp [ho]
        · simp only [ho, if_false]
          exact ih vs

/-- What is known only depends on the entries. -/
theorem Tracks.of_get {c c' : Cache} (htracks : Tracks site address c s)
    (hget : ∀ r, c'.get r = c.get r) : Tracks site address c' s :=
  ⟨fun r o ho => htracks.holds r o (hget r ▸ ho), fun r o ho => htracks.mentions r o (hget r ▸ ho)⟩

/-- A stack argument of the running function, seen from the base of its frame. -/
theorem stackArg_resolve (hindex : 6 ≤ index)
    (hfits : Address.isEncodable (.frame (stackArg index)) = true)
    (hrbp : (s.regs .rbp).toNat ≤ 2 ^ 47) :
    (Address.resolve s (.frame (stackArg index))).toNat =
      (s.regs .rbp).toNat + 16 + 8 * (index - 6) := by
  have hoffset : BitVec.ofInt 64 (stackArg index) = BitVec.ofNat 64 (16 + 8 * (index - 6)) := by
    rw [← BitVec.ofInt_natCast]
    congr 1
    simp only [stackArg]
    omega
  simp only [Address.isEncodable, fits_iff, stackArg] at hfits
  simp only [Address.resolve, hoffset, BitVec.toNat_add, BitVec.toNat_ofNat]
  omega

/-- Parameters were given their arguments, and from the base of the frame upwards nothing
    changed. -/
structure Bound (site : Site) (ps : List Param) (vs : List Word) (s t : State) : Prop where
  rsp : t.regs .rsp = s.regs .rsp
  rbp : t.regs .rbp = s.regs .rbp
  above : ∀ b, (s.regs .rbp).toNat ≤ b → t.mem b = s.mem b
  contents : ∀ o, some o ∈ site.func.operands →
    site.frame.contents t o = bindArgs (site.frame.contents s) ps vs o

theorem Bound.cons {p : Param} {u w : State} (hp : p.operand = some o)
    (ho : some o ∈ site.func.operands) (hps : ∀ q ∈ ps, q.operand ≠ some o)
    (hsound : site.Sound g.strings) (hrbp : (s.regs .rbp).toNat ≤ 2 ^ 47) (hst : s.Keeps t)
    (hwrote : Wrote h site o v t u) (hbound : Bound site ps vs u w) :
    Bound site (p :: ps) (v :: vs) s w where
  rsp := (hbound.rsp.trans hwrote.rsp).trans hst.rsp
  rbp := (hbound.rbp.trans hwrote.rbp).trans hst.rbp
  above b hb := by
    rw [hbound.above b (by rw [hwrote.rbp, hst.rbp]; exact hb),
      hwrote.above hsound.fits (by rw [hst.rbp]; exact hrbp) (by rw [hst.rbp]; exact hb), hst.mem]
  contents o' ho' := by
    rw [hbound.contents o' ho']
    simp only [bindArgs, hp, Store.put?]
    rw [← bindArgs_put hps]
    refine bindArgs_congr ?_ ps vs
    rw [hwrote.contents hsound.apart hsound.fits ho ho', hst.contents]

/-- A register that holds the first argument is copied into the place of its parameter, and then the
    others are taken in. -/
theorem bindParam_ensures {p : Param} {r : Reg} {offset : Int}
    {rest : List Insn} {c : Cache} (hsound : site.Sound g.strings) (hp : p.operand = some o)
    (ho : some o ∈ site.func.operands) (hps : ∀ q ∈ ps, q.operand ≠ some o)
    (hoffset : site.frame.offset? o = some offset) (hfresh : ∀ r, g.cache.get r ≠ some o)
    (hrbp : (s.regs .rbp).toNat ≤ 2 ^ 47) (hpassed : Passed s ((s.regs .rbp).toNat + 16) index (v :: vs))
    (hst : s.Keeps t) (hregs : ∀ r ∈ Reg.args, t.regs (.tracked r) = s.regs (.tracked r))
    (hv : t.regs (.tracked r) = v) (htracks : Tracks site address (g.cache.set r none) t)
    (hrest : ∀ u, Tracks site address (g.cache.set r (some o)) u → (u.regs .rbp).toNat ≤ 2 ^ 47 →
      Passed u ((u.regs .rbp).toNat + 16) (index + 1) vs → h.Ensures trap rest u fun w =>
        Bound site ps vs u w ∧ Tracks site address c w) :
    h.Ensures trap (.store (.frame offset) r :: rest) t fun w =>
      Bound site (p :: ps) (v :: vs) s w ∧ Tracks site address c w := by
  have hrbp' : (t.regs .rbp).toNat ≤ 2 ^ 47 := hst.rbp ▸ hrbp
  rw [← List.singleton_append]
  refine .append (ensures_storeSlot hoffset fun u hwrote hkept => ?_)
  have htracks' : Tracks site address (g.cache.set r (some o)) u := by
    refine (htracks.wrote hsound.apart hsound.fits ho hwrote hkept).of_get fun r' => ?_
    rw [Cache.get_set, Cache.get_written, Cache.get_set]
    by_cases hr : r' = r
    · simp [hr]
    · simp [hr, hfresh r']
  rw [hv] at hwrote
  have hpassed' : Passed u ((u.regs .rbp).toNat + 16) (index + 1) vs := by
    rw [hwrote.rbp, hst.rbp]
    refine hpassed.tail (fun r hr => (hkept r).trans (hregs r hr)) fun b hb => ?_
    rw [hwrote.above hsound.fits hrbp' (by rw [hst.rbp]; omega), hst.mem]
  refine (hrest u htracks' (hwrote.rbp ▸ hrbp') hpassed').mono ?_
  rintro w ⟨hbound, htracks⟩
  exact ⟨.cons hp ho hps hsound hrbp hst hwrote hbound, htracks⟩

/-- The code at the entry of a function gives its parameters their arguments. -/
theorem bindParams_ensures {regs : List Reg}
    (hbind : bindParams site index (ps.map (·.operand)) regs g = .ok (xs, g'))
    (hregs : regs = Reg.args.drop index) (hsound : site.Sound g.strings)
    (hps : ∀ p ∈ ps, p.operand ∈ site.func.operands) (hnodup : (ps.map (·.operand)).Nodup)
    (hfresh : ∀ p ∈ ps, ∀ r, g.cache.get r ≠ p.operand) :
    g.Keeps g' ∧ ∀ s vs, vs.length = ps.length → Tracks site address g.cache s →
      (s.regs .rbp).toNat ≤ 2 ^ 47 → Passed s ((s.regs .rbp).toNat + 16) index vs →
        h.Ensures trap xs s fun t => Bound site ps vs s t ∧ Tracks site address g'.cache t := by
  induction ps generalizing index regs g xs with
  | nil =>
    obtain ⟨rfl, rfl⟩ := GenM.pure_eq_ok_iff.mp hbind
    refine ⟨⟨rfl, rfl⟩, fun s vs _ htracks _ _ => Host.ensures_nil.mpr
      ⟨⟨rfl, rfl, fun _ _ => rfl, fun o _ => ?_⟩, htracks⟩⟩
    cases vs <;> rfl
  | cons p ps ih =>
    obtain ⟨hp, hnodup⟩ := List.nodup_cons.mp hnodup
    simp only [List.map_cons, bindParams] at hbind
    cases ho : p.operand with
    | none => simp only [ho, Option.bind_none] at hbind; exact (GenM.fail_ne_ok g hbind).elim
    | some o =>
      cases hoffset : site.frame.offset? o with
      | none =>
        simp only [ho, Option.bind_some, hoffset] at hbind
        exact (GenM.fail_ne_ok g hbind).elim
      | some offset =>
        have hmention : some o ∈ site.func.operands := ho ▸ hps p (by simp)
        have hother : ∀ q ∈ ps, q.operand ≠ some o := fun q hq heq =>
          hp (List.mem_map.mpr ⟨q, hq, heq.trans ho.symm⟩)
        have hfreshO : ∀ r, g.cache.get r ≠ some o := fun r => ho ▸ hfresh p (by simp) r
        -- Whichever register takes the parameter, none of the others is held by any.
        have hfresh' : ∀ r, ∀ q ∈ ps, ∀ r', (g.cache.set r (some o)).get r' ≠ q.operand := by
          intro r q hq r'
          rw [Cache.get_set]
          by_cases hr : r' = r
          · simpa [hr] using (hother q hq).symm
          · simpa [hr] using hfresh q (by simp [hq]) r'
        have hps' : ∀ q ∈ ps, q.operand ∈ site.func.operands := fun q hq => hps q (by simp [hq])
        cases regs with
        | cons r regs =>
          simp only [ho, Option.bind_some, hoffset, GenM.bind_eq_ok_iff, GenM.pure_eq_ok_iff,
            GenM.track_eq_ok_iff] at hbind
          obtain ⟨_, _, rfl, rest, _, hrest, rfl, rfl⟩ := hbind
          have hr : Reg.args[index]? = some r := by
            rw [← List.head?_drop, ← hregs]
            rfl
          have hregs' : regs = Reg.args.drop (index + 1) := by
            rw [← List.tail_drop, ← hregs]
            rfl
          obtain ⟨hkeeps, hrest⟩ := ih hrest hregs' hsound hps' hnodup (hfresh' r)
          refine ⟨⟨hkeeps.pending, hkeeps.strings⟩, fun s vs hlength htracks hrbp hpassed => ?_⟩
          obtain ⟨v, vs, rfl⟩ := List.exists_cons_of_length_eq_add_one hlength
          exact bindParam_ensures hsound ho hmention hother hoffset hfreshO hrbp hpassed (.refl s) (fun _ _ => rfl)
            (hpassed.inRegs 0 v r rfl hr) (htracks.forget r (fun _ _ => rfl) rfl)
            fun u => hrest u vs (by simpa using hlength)
        | nil =>
          simp only [ho, Option.bind_some, hoffset, GenM.bind_eq_ok_iff, GenM.pure_eq_ok_iff,
            GenM.track_eq_ok_iff] at hbind
          obtain ⟨_, _, rfl, rest, _, hrest, rfl, rfl⟩ := hbind
          have hindex : 6 ≤ index := by
            have hlength := congrArg List.length hregs
            simp only [List.length_nil, List.length_drop, Reg.args, List.length_cons] at hlength
            omega
          have hregs' : [] = Reg.args.drop (index + 1) := by
            rw [List.drop_eq_nil_of_le]
            simp only [Reg.args, List.length_cons, List.length_nil]
            omega
          obtain ⟨hkeeps, hrest⟩ := ih hrest hregs' hsound hps' hnodup (hfresh' .rax)
          refine ⟨⟨hkeeps.pending, hkeeps.strings⟩, fun s vs hlength htracks hrbp hpassed => ?_⟩
          obtain ⟨v, vs, rfl⟩ := List.exists_cons_of_length_eq_add_one hlength
          rw [List.cons_append, Host.ensures_load]
          intro hencodable _
          rw [stackArg_resolve hindex hencodable hrbp]
          have hv : s.mem.read ((s.regs .rbp).toNat + 16 + 8 * (index - 6)) = v :=
            hpassed.onStack 0 v rfl hindex
          rw [hv]
          have hst : s.Keeps (s.set (.tracked .rax) v).next := (State.Keeps.set s .rax v).trans (.next _)
          have hkept : ∀ r, r ≠ .rax → (s.set (.tracked .rax) v).next.regs (.tracked r) = s.regs (.tracked r) :=
            fun r hr => by simp [State.set_regs_ne, hr]
          have hrax : ∀ r ∈ Reg.args, r ≠ .rax := by decide
          exact bindParam_ensures hsound ho hmention hother hoffset hfreshO hrbp hpassed hst
            (fun r hr => hkept r (hrax r hr)) (s.set_regs_same (.tracked .rax) v)
            (htracks.forget .rax hkept hst.contents)
            fun u => hrest u vs (by simpa using hlength)

end TreeCompiler.Asm
