import TreeCompiler.Asm.Call
import TreeCompiler.Proofs.Asm.Instruction

namespace TreeCompiler.Asm

open Code

variable {h : Host} {site : Site} {address : Bytes → Word} {g g' : GenState} {s t : State} {trap : Prop}
  {xs : List Insn}

/-- A word can only be pushed where the stack does not wrap around. -/
theorem Host.push_bound {top : Word} (haccess : h.accessible (top - 8).toNat = true) :
    (top - 8).toNat + 8 = top.toNat ∧ top.toNat ≤ 2 ^ 47 := by
  have hbound := h.accessible_bound _ haccess
  have htop := top.isLt
  have hsub : (top - 8).toNat = (18446744073709551608 + top.toNat) % 18446744073709551616 := by
    rw [BitVec.toNat_sub]
    rfl
  omega

/-- What is pushed lies below the slots of the running function. -/
def Site.Clear (site : Site) (s : State) : Prop :=
  (s.regs .rsp).toNat ≤ 2 ^ 47 →
    (s.regs .rsp).toNat + 8 * site.frame.slots.size ≤ (s.regs .rbp).toNat

/-- The stack ends below the slots of the running function, unless it wrapped around. -/
def Site.Settled (site : Site) (s : State) : Prop :=
  (s.regs .rsp).toNat < 2 ^ 63 →
    (s.regs .rsp).toNat + 8 * site.frame.slots.size ≤ (s.regs .rbp).toNat

theorem Site.Settled.of_rsp (hfits : site.frame.Fits)
    (hrsp : s.regs .rsp = s.regs .rbp - BitVec.ofNat 64 site.frame.size)
    (hrbp : (s.regs .rbp).toNat ≤ 2 ^ 47) : site.Settled s := by
  intro hsmall
  have hslots := site.frame.slots_size_le_size
  unfold Frame.Fits at hfits
  rw [hrsp, BitVec.toNat_sub, BitVec.toNat_ofNat] at hsmall ⊢
  omega

variable {fr : Frame} {o : Operand} {Q : State → Prop} {os : List Operand}

/-- Changing memory outside the slots does not change what the places hold. -/
theorem Frame.contents_of_above {bottom : Nat} (hfits : fr.Fits)
    (hbottom : bottom + 8 * fr.slots.size ≤ (s.regs .rbp).toNat) (hrbp : t.regs .rbp = s.regs .rbp)
    (hmem : ∀ b, bottom ≤ b → b < (s.regs .rbp).toNat → t.mem b = s.mem b) :
    fr.contents t = fr.contents s := by
  funext o
  simp only [contents]
  cases hoffset : fr.offset? o with
  | none => rfl
  | some offset =>
    obtain ⟨k, hk, rfl⟩ := offset?_bound hoffset
    have hrbpLt := (s.regs .rbp).isLt
    have haddress : bottom ≤ s.slotAddress (-8 * ((k : Int) + 1)) ∧
        s.slotAddress (-8 * ((k : Int) + 1)) + 8 ≤ (s.regs .rbp).toNat := by
      rw [slotAddress_eq s k (hfits.slots_lt hk)]
      omega
    have hsame : t.slotAddress (-8 * ((k : Int) + 1)) = s.slotAddress (-8 * ((k : Int) + 1)) := by
      simp only [State.slotAddress, hrbp]
    simp only [hsame]
    exact Memory.read_congr fun b hlo _ => hmem b (by omega) (by omega)

/-- So does writing a word outside them. -/
theorem Frame.contents_write_outside {a : Nat} (hfits : fr.Fits) (v : Word)
    (ha : a + 8 + 8 * fr.slots.size ≤ (s.regs .rbp).toNat ∨ (s.regs .rbp).toNat ≤ a ∧ a + 8 ≤ 2 ^ 47)
    (hrbp : t.regs .rbp = s.regs .rbp) (hmem : t.mem = s.mem.write a v) : fr.contents t = fr.contents s := by
  funext o
  simp only [contents]
  cases hoffset : fr.offset? o with
  | none => rfl
  | some offset =>
    obtain ⟨k, hk, rfl⟩ := offset?_bound hoffset
    have hrbpLt := (s.regs .rbp).isLt
    have hk' := hfits.slots_lt hk
    have hsame : t.slotAddress (-8 * ((k : Int) + 1)) = s.slotAddress (-8 * ((k : Int) + 1)) := by
      simp only [State.slotAddress, hrbp]
    simp only [hsame, hmem]
    refine Memory.read_write_of_disjoint _ _ ?_
    rw [slotAddress_eq s k hk']
    omega

/-- The values of operands were pushed, the first one highest. -/
structure Pushed (site : Site) (address : Bytes → Word) (os : List Operand) (s t : State) : Prop where
  regs : ∀ r, r ≠ .rax → t.regs (.tracked r) = s.regs (.tracked r)
  rbp : t.regs .rbp = s.regs .rbp
  rsp : t.regs .rsp = s.regs .rsp - BitVec.ofNat 64 (8 * os.length)
  room : os ≠ [] → 8 * os.length ≤ (s.regs .rsp).toNat ∧ (s.regs .rsp).toNat ≤ 2 ^ 47
  above : ∀ b, (s.regs .rsp).toNat ≤ b → t.mem b = s.mem b
  values : ∀ (j : Nat) o, os[j]? = some o →
    t.mem.read ((s.regs .rsp).toNat - 8 * (j + 1)) = (site.frame.contents s).word address o
  contents : site.frame.contents t = site.frame.contents s
  clear : site.Clear t

namespace Pushed

theorem nil (hclear : site.Clear s) : Pushed site address [] s s where
  regs _ _ := rfl
  rbp := rfl
  rsp := by simp
  room hne := absurd rfl hne
  above _ _ := rfl
  values j o ho := by simp at ho
  contents := rfl
  clear := hclear

variable {os : List Operand} {u : State}

theorem cons {o : Operand} (hone : Pushed site address [o] s t)
    (hrest : Pushed site address os t u) : Pushed site address (o :: os) s u := by
  obtain ⟨hroom, hbound⟩ := hone.room (by simp)
  simp only [List.length_singleton] at hroom
  have hnext : (t.regs .rsp).toNat = (s.regs .rsp).toNat - 8 := by
    rw [hone.rsp, BitVec.toNat_sub_of_le] <;> simp [BitVec.le_def]
    omega
  have hroom' : 8 * os.length ≤ (s.regs .rsp).toNat - 8 := by
    cases os with
    | nil => simp
    | cons o' os => exact hnext ▸ (hrest.room (by simp)).1
  refine ⟨fun r hr => (hrest.regs r hr).trans (hone.regs r hr), hrest.rbp.trans hone.rbp, ?_, ?_, ?_, ?_,
    hrest.contents.trans hone.contents, hrest.clear⟩
  · rw [hrest.rsp, hone.rsp, BitVec.sub_sub, ← BitVec.ofNat_add]
    simp only [List.length_cons, List.length_nil]
    congr 2
    omega
  · intro _
    simp only [List.length_cons]
    omega
  · intro b hb
    rw [hrest.above b (by omega), hone.above b hb]
  · intro j o' ho'
    cases j with
    | zero =>
      simp only [List.getElem?_cons_zero, Option.some.injEq] at ho'
      subst ho'
      rw [← hone.values 0 o rfl]
      exact Memory.read_congr fun b hlo _ => hrest.above b (by omega)
    | succ j =>
      rw [List.getElem?_cons_succ] at ho'
      rw [show (s.regs .rsp).toNat - 8 * (j + 1 + 1) = (t.regs .rsp).toNat - 8 * (j + 1) by omega,
        hrest.values j o' ho', hone.contents]

theorem of_keeps (hpushed : Pushed site address os t u) (hkeeps : s.Keeps t)
    (hregs : ∀ r, r ≠ .rax → t.regs (.tracked r) = s.regs (.tracked r)) : Pushed site address os s u where
  regs r hr := (hpushed.regs r hr).trans (hregs r hr)
  rbp := hpushed.rbp.trans hkeeps.rbp
  rsp := by rw [hpushed.rsp, hkeeps.rsp]
  room hne := hkeeps.rsp ▸ hpushed.room hne
  above b hb := by rw [hpushed.above b (hkeeps.rsp ▸ hb), hkeeps.mem]
  values j o ho := by rw [← hkeeps.rsp, hpushed.values j o ho, hkeeps.contents]
  contents := hpushed.contents.trans hkeeps.contents
  clear := hpushed.clear

end Pushed

/-- Pushing a register that holds the value of an operand. -/
theorem push_ensures (hfits : site.frame.Fits) (hclear : site.Clear s)
    (hrax : s.regs (.tracked .rax) = (site.frame.contents s).word address o)
    (hQ : ∀ t, Pushed site address [o] s t →
      t.regs (.tracked .rax) = s.regs (.tracked .rax) → Q t) :
    h.Ensures trap [.push (.tracked .rax)] s Q := by
  rw [Host.ensures_push]
  intro haccess
  obtain ⟨hnext, hbound⟩ := Host.push_bound haccess
  rw [Host.ensures_nil]
  have habove : ∀ b, (s.regs .rsp).toNat ≤ b →
      s.mem.write (s.regs .rsp - 8).toNat (s.regs (.tracked .rax)) b = s.mem b :=
    fun b hb => Memory.write_of_le _ _ (by omega)
  have hrbp : (s.set .rsp (s.regs .rsp - 8)).regs .rbp = s.regs .rbp := s.set_regs_ne _ (by simp)
  have htracked : ∀ r, (s.set .rsp (s.regs .rsp - 8)).regs (.tracked r) = s.regs (.tracked r) :=
    fun r => s.set_regs_ne _ (by simp)
  refine hQ _ ⟨fun r _ => htracked r, hrbp, ?_, ?_, habove, ?_, ?_, ?_⟩ (htracked .rax)
  · exact State.set_regs_same s .rsp _
  · intro _
    simp only [List.length_singleton]
    omega
  · intro j o' ho'
    cases j with
    | succ j => simp at ho'
    | zero =>
      simp only [List.getElem?_cons_zero, Option.some.injEq] at ho'
      subst ho'
      rw [← hrax, show (s.regs .rsp).toNat - 8 * (0 + 1) = (s.regs .rsp - 8).toNat by omega]
      exact Memory.read_write_same _ _ _
  · exact Frame.contents_of_above hfits (hclear hbound) hrbp fun b hb _ => habove b hb
  · intro _
    have hslots := hclear hbound
    simp only [State.next_regs, hrbp, State.set_regs_same]
    omega

/-- Pushing the arguments that are passed on the stack. -/
theorem pushArgs_ensures {args : List (Nat × Option Operand)}
    (hpush : pushArgs site args g = .ok (xs, g')) (hargs : args.map (·.2) = os.map some)
    (hfits : site.frame.Fits) (hplaces : h.Places address g.strings) (hos : ∀ o ∈ os, g.strings.Lists o) :
    g.Keeps g' ∧ ∀ s, g.cache.Sound site address s → site.Clear s → h.Ensures trap xs s fun t =>
      Pushed site address os s t ∧ g'.cache.Sound site address t := by
  induction args generalizing os g xs with
  | nil =>
    cases os with
    | cons o os => simp at hargs
    | nil =>
      obtain ⟨rfl, rfl⟩ := GenM.pure_eq_ok_iff.mp hpush
      exact ⟨⟨rfl, rfl⟩, fun s hcache hclear => Host.ensures_nil.mpr ⟨.nil hclear, hcache⟩⟩
  | cons a args ih =>
    obtain ⟨index, src⟩ := a
    cases os with
    | nil => simp at hargs
    | cons o os =>
      simp only [List.map_cons, List.cons.injEq] at hargs
      obtain ⟨rfl, hargs⟩ := hargs
      simp only [pushArgs, GenM.bind_eq_ok_iff, GenM.pure_eq_ok_iff, GenM.within_eq_ok_iff] at hpush
      obtain ⟨code, g₁, hload, rest, _, hrest, rfl, rfl⟩ := hpush
      obtain ⟨hkeeps, hload⟩ := load_ensures_value (h := h) hload (hos o (by simp)) hplaces
      obtain ⟨hkeeps', hrest⟩ := ih hrest hargs (hkeeps.strings ▸ hplaces)
        (fun o' ho' => hkeeps.strings ▸ hos o' (by simp [ho']))
      refine ⟨hkeeps.trans hkeeps', fun s hcache hclear => ?_⟩
      rw [List.append_assoc]
      refine Host.Ensures.append ((hload s trap hcache).mono ?_)
      rintro t ⟨ht, hcache⟩
      have hst : s.Keeps t := ht ▸ .setAdvance ..
      have hclear : site.Clear t := by
        simpa only [Site.Clear, hst.rsp, hst.rbp] using hclear
      have hrax : t.regs (.tracked .rax) = (site.frame.contents t).word address o := by
        rw [hst.contents, ht, State.advance_regs, State.set_regs_same]
      have hregs : ∀ r, r ≠ .rax → t.regs (.tracked r) = s.regs (.tracked r) := by
        intro r hr
        rw [ht, State.advance_regs, State.set_regs_ne _ _ (by simp [hr])]
      refine Host.Ensures.append (push_ensures hfits hclear hrax fun u hpushed hrax => ?_)
      have hcache' : g₁.cache.Sound site address u := by
        refine hcache.congr (fun r => ?_) hpushed.contents
        by_cases hr : r = .rax
        · rw [hr, hrax]
        · exact hpushed.regs r hr
      refine (hrest u hcache' hpushed.clear).mono ?_
      rintro v ⟨hpushed', hcache⟩
      exact ⟨.cons (hpushed.of_keeps hst hregs) hpushed', hcache⟩

/-- The values of operands were written in order from an address upwards. -/
structure Filled (site : Site) (address : Bytes → Word) (base : Nat) (os : List Operand)
    (s t : State) : Prop where
  rsp : t.regs .rsp = s.regs .rsp
  rbp : t.regs .rbp = s.regs .rbp
  mem : ∀ c, c < base ∨ base + 8 * os.length ≤ c → t.mem c = s.mem c
  values : ∀ (j : Nat) o, os[j]? = some o →
    t.mem.read (base + 8 * j) = (site.frame.contents s).word address o
  contents : site.frame.contents t = site.frame.contents s

namespace Filled

variable {base : Nat} {os : List Operand} {u : State}

theorem nil (base : Nat) (s : State) : Filled site address base [] s s where
  rsp := rfl
  rbp := rfl
  mem _ _ := rfl
  values j o ho := by simp at ho
  contents := rfl

theorem cons {o : Operand} (hone : Filled site address base [o] s t)
    (hrest : Filled site address (base + 8) os t u) : Filled site address base (o :: os) s u where
  rsp := hrest.rsp.trans hone.rsp
  rbp := hrest.rbp.trans hone.rbp
  mem c hc := by
    simp only [List.length_cons] at hc
    rw [hrest.mem c (by omega), hone.mem c (by simp only [List.length_singleton]; omega)]
  values j o' ho' := by
    cases j with
    | zero =>
      simp only [List.getElem?_cons_zero, Option.some.injEq] at ho'
      subst ho'
      rw [← hone.values 0 o rfl]
      exact Memory.read_congr fun c hlo hhi => hrest.mem c (by omega)
    | succ j =>
      rw [List.getElem?_cons_succ] at ho'
      rw [← hone.contents, ← hrest.values j o' ho']
      congr 1
      omega
  contents := hrest.contents.trans hone.contents

theorem of_keeps (hkeeps : s.Keeps t) (hfilled : Filled site address base os t u) :
    Filled site address base os s u where
  rsp := hfilled.rsp.trans hkeeps.rsp
  rbp := hfilled.rbp.trans hkeeps.rbp
  mem c hc := by rw [hfilled.mem c hc, hkeeps.mem]
  values j o ho := by rw [hfilled.values j o ho, hkeeps.contents]
  contents := hfilled.contents.trans hkeeps.contents

end Filled

/-- Writing a register that holds the value of an operand to an address outside the slots. -/
theorem fill_ensures {a : Address} {base : Nat} (hfits : site.frame.Fits)
    (ha : a.isEncodable = true → (a.resolve s).toNat = base)
    (hbase : base + 8 + 8 * site.frame.slots.size ≤ (s.regs .rbp).toNat ∨ (s.regs .rbp).toNat ≤ base)
    (hrax : s.regs (.tracked .rax) = (site.frame.contents s).word address o)
    (hQ : ∀ t, Filled site address base [o] s t →
      (∀ r, t.regs (.tracked r) = s.regs (.tracked r)) → Q t) :
    h.Ensures trap [.store a .rax] s Q := by
  rw [Host.ensures_store]
  intro hencodable haccess
  rw [Host.ensures_nil]
  have hbound := h.accessible_bound _ haccess
  rw [ha hencodable] at hbound ⊢
  refine hQ _ ⟨rfl, rfl, fun c hc => ?_, fun j o' ho' => ?_, ?_⟩ fun _ => rfl
  · simp only [List.length_singleton] at hc
    rcases hc with hc | hc
    · exact Memory.write_of_lt _ _ hc
    · exact Memory.write_of_le _ _ hc
  · cases j with
    | succ j => simp at ho'
    | zero =>
      simp only [List.getElem?_cons_zero, Option.some.injEq] at ho'
      subst ho'
      rw [← hrax]
      exact Memory.read_write_same _ _ _
  · exact Frame.contents_write_outside hfits (s.regs (.tracked .rax)) (by omega) rfl rfl

/-- Bringing arguments into registers of their own. -/
theorem loadRegArgs_ensures {index : Nat} {regs : List Reg}
    (hload : loadRegArgs site index (os.map some) regs g = .ok (xs, g')) (hregs : regs.Nodup)
    (hplaces : h.Places address g.strings) (hos : ∀ o ∈ os, g.strings.Lists o) :
    g.Keeps g' ∧ ∀ s, g.cache.Sound site address s → h.Ensures trap xs s fun t =>
      s.Keeps t ∧ (∀ r, r ∉ regs → t.regs (.tracked r) = s.regs (.tracked r)) ∧
        (∀ (j : Nat) o r, os[j]? = some o → regs[j]? = some r →
          t.regs (.tracked r) = (site.frame.contents s).word address o) ∧
            g'.cache.Sound site address t := by
  induction os generalizing index regs g xs with
  | nil =>
    have hload : (pure [] : GenM (List Insn)) g = .ok (xs, g') := by
      cases regs <;> exact hload
    obtain ⟨rfl, rfl⟩ := GenM.pure_eq_ok_iff.mp hload
    exact ⟨⟨rfl, rfl⟩, fun s hcache => Host.ensures_nil.mpr
      ⟨.refl s, fun _ _ => rfl, fun j o r ho => by simp at ho, hcache⟩⟩
  | cons o os ih =>
    cases regs with
    | nil =>
      obtain ⟨rfl, rfl⟩ := GenM.pure_eq_ok_iff.mp hload
      exact ⟨⟨rfl, rfl⟩, fun s hcache => Host.ensures_nil.mpr
        ⟨.refl s, fun _ _ => rfl, fun j o r _ hr => by simp at hr, hcache⟩⟩
    | cons r regs =>
      simp only [List.map_cons, loadRegArgs, GenM.bind_eq_ok_iff, GenM.pure_eq_ok_iff,
        GenM.within_eq_ok_iff] at hload
      obtain ⟨code, g₁, hfirst, rest, _, hrest, rfl, rfl⟩ := hload
      obtain ⟨hr, hregs⟩ := List.nodup_cons.mp hregs
      obtain ⟨hkeeps, hfirst⟩ := load_ensures_value (h := h) hfirst (hos o (by simp)) hplaces
      obtain ⟨hkeeps', hrest⟩ := ih hrest hregs (hkeeps.strings ▸ hplaces)
        (fun o' ho' => hkeeps.strings ▸ hos o' (by simp [ho']))
      refine ⟨hkeeps.trans hkeeps', fun s hcache => ?_⟩
      refine Host.Ensures.append ((hfirst s trap hcache).mono ?_)
      rintro t ⟨rfl, hcache⟩
      have hst := State.Keeps.setAdvance s r ((site.frame.contents s).word address o) code.length
      refine (hrest _ hcache).mono ?_
      rintro u ⟨htu, hother, hvalues, hcache⟩
      refine ⟨hst.trans htu, ?_, ?_, hcache⟩
      · intro r' hr'
        simp only [List.mem_cons, not_or] at hr'
        rw [hother r' hr'.2, State.advance_regs, State.set_regs_ne _ _ (by simp [hr'.1])]
      · intro j o' r' ho' hr'
        cases j with
        | zero =>
          simp only [List.getElem?_cons_zero, Option.some.injEq] at ho' hr'
          subst ho' hr'
          rw [hother r hr, State.advance_regs, State.set_regs_same]
        | succ j =>
          rw [hvalues j o' r' ho' hr', hst.contents]

end TreeCompiler.Asm
