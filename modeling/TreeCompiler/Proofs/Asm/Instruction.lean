import TreeCompiler.Asm.Instr
import TreeCompiler.Proofs.Asm.Operands

namespace TreeCompiler.Asm

open Code

/-- What the code of a function relies on: its operands have slots of their own that can be
    reached, and its strings are in the table. -/
structure Site.Sound (site : Site) (strings : StringTable) : Prop where
  apart : site.Apart
  fits : site.frame.Fits
  strings : ∀ t, some (.const (.str t)) ∈ site.func.operands → t ∈ strings.strings

variable {h : Host} {site : Site} {address : Bytes → Word} {g g' : GenState} {s : State} {trap : Prop}
  {xs : List Insn} {code : List Line} {covered : Bool} {i : Nat} {x : Instr}

theorem Site.Sound.reads {strings : StringTable} (hsound : site.Sound strings) {o : Operand}
    (ho : some o ∈ site.func.operands) : site.Reads strings o :=
  ⟨fun _ => ho, fun t heq => hsound.strings t (heq ▸ ho)⟩

/-- Loading an operand puts its value into a register and changes nothing else. -/
theorem load_ensures_value {o : Operand} {r : Reg} (hload : load site (some o) r g = .ok (xs, g'))
    (ho : g.strings.Lists o) (hplaces : h.Places address g.strings) :
    g.Keeps g' ∧ ∀ s trap, g.cache.Sound site address s → h.Ensures trap xs s fun t =>
      t = (s.set (.tracked r) ((site.frame.contents s).word address o)).advance xs.length ∧
        g'.cache.Sound site address t := by
  obtain ⟨_, ⟨⟩, hloaded⟩ := load_ok hload
  have hstate := hloaded.eq_set ho
  refine ⟨hstate ▸ ⟨rfl, rfl⟩, fun s trap hcache => (hloaded.ensures_value ho hplaces hcache).mono ?_⟩
  rintro t rfl
  rw [hstate]
  exact ⟨rfl, (hcache.set o r).congr (fun _ => rfl) rfl⟩

/-- Loading an operand of the function keeps what is known of its operands true. -/
theorem load_ensures {src : Option Operand} {r : Reg} (hload : load site src r g = .ok (xs, g'))
    (hsound : site.Sound g.strings) (hplaces : h.Places address g.strings)
    (hsrc : src ∈ site.func.operands) :
    ∃ o, src = some o ∧ g.Keeps g' ∧ ∀ s trap, Tracks site address g.cache s →
      h.Ensures trap xs s fun t =>
        t = (s.set (.tracked r) ((site.frame.contents s).word address o)).advance xs.length ∧
          Tracks site address g'.cache t := by
  obtain ⟨o, rfl, hloaded⟩ := load_ok hload
  have hreads := hsound.reads hsrc
  refine ⟨o, rfl, ?_, fun s trap htracks => hloaded.ensures hreads hplaces htracks⟩
  rw [hloaded.eq_set hreads.2]
  exact ⟨rfl, rfl⟩

/-- Loading two operands puts their values into the first two registers. -/
theorem loadPair_ensures {left right : Option Operand}
    (hload : loadPair site left right g = .ok (xs, g')) (hsound : site.Sound g.strings)
    (hplaces : h.Places address g.strings) (hleft : left ∈ site.func.operands)
    (hright : right ∈ site.func.operands) :
    ∃ l r, left = some l ∧ right = some r ∧ g.Keeps g' ∧ ∀ s trap, Tracks site address g.cache s →
      h.Ensures trap xs s fun t =>
        t.regs (.tracked .rax) = (site.frame.contents s).word address l ∧
          t.regs (.tracked .rcx) = (site.frame.contents s).word address r ∧ s.Keeps t ∧
            Tracks site address g'.cache t := by
  obtain ⟨ls, g₁, rs, hl, hr, rfl⟩ := loadPair_ok hload
  obtain ⟨l, rfl, hkeeps, hl⟩ := load_ensures (h := h) hl hsound hplaces hleft
  obtain ⟨r, rfl, hkeeps', hr⟩ := load_ensures (h := h) hr (hkeeps.strings ▸ hsound)
    (hkeeps.strings ▸ hplaces) hright
  refine ⟨l, r, rfl, rfl, hkeeps.trans hkeeps', fun s trap htracks => ?_⟩
  refine Host.Ensures.append ((hl s trap htracks).mono ?_)
  rintro t ⟨rfl, htracks⟩
  refine (hr _ trap htracks).mono ?_
  rintro t ⟨rfl, htracks⟩
  have hkeeps := State.Keeps.setAdvance s .rax ((site.frame.contents s).word address l) ls.length
  refine ⟨?_, ?_, hkeeps.trans (.setAdvance ..), htracks⟩
  · simp [State.set_regs_ne]
  · simp [hkeeps.contents]

/-- Code that computes a value from what the places of a function hold and from the arrays that
    exist, and writes it to one of the places. -/
structure Computes (h : Host) (site : Site) (address : Bytes → Word) (g g' : GenState) (xs : List Insn)
    (d : Operand) (value : Heap → Store → Option Word) : Prop where
  keeps : g.Keeps g'
  ensures : ∀ s heap v, Tracks site address g.cache s → Held s.mem heap →
    value heap (site.frame.contents s) = some v →
      h.Ensures False xs s fun t => Wrote h site d v s t ∧ Tracks site address g'.cache t

/-- Writing the first register after everything was forgotten. -/
theorem produce_ensures {dst : Option Operand} (hproduce : produce site dst g = .ok (xs, g'))
    (hsound : site.Sound g.strings) (hdst : dst ∈ site.func.operands) :
    ∃ d, dst = some d ∧ g.Keeps g' ∧ ∀ s trap, h.Ensures trap xs s fun t =>
      Wrote h site d (s.regs (.tracked .rax)) s t ∧ Tracks site address g'.cache t := by
  have hstore := produce_ok hproduce
  obtain ⟨hpending, hstrings⟩ := store_state hstore
  obtain ⟨d, offset, hd, _⟩ := store_ok hstore
  refine ⟨d, hd, ⟨hpending, hstrings⟩, fun s trap => ?_⟩
  obtain ⟨d', hd', hensures⟩ := store_ensures (h := h) hstore hdst hsound.apart hsound.fits
    (Tracks.empty site address s)
  cases hd.symm.trans hd'
  exact hensures

/-- Writing the first register after only that one was changed. -/
theorem replace_ensures {dst : Option Operand} (hreplace : replace site dst g = .ok (xs, g'))
    (hsound : site.Sound g.strings) (hdst : dst ∈ site.func.operands) :
    ∃ d, dst = some d ∧ g.Keeps g' ∧ ∀ s trap, Tracks site address (g.cache.set .rax none) s →
      h.Ensures trap xs s fun t =>
        Wrote h site d (s.regs (.tracked .rax)) s t ∧ Tracks site address g'.cache t := by
  have hstore := replace_ok hreplace
  obtain ⟨hpending, hstrings⟩ := store_state hstore
  obtain ⟨d, offset, hd, _⟩ := store_ok hstore
  refine ⟨d, hd, ⟨hpending, hstrings⟩, fun s trap htracks => ?_⟩
  obtain ⟨d', hd', hensures⟩ := store_ensures (h := h) hstore hdst hsound.apart hsound.fits htracks
  cases hd.symm.trans hd'
  exact hensures

section Operations

variable (hgen : genInstr site i x g = .ok ((code, covered), g')) (hx : x ∈ site.func.code)
  (hsound : site.Sound g.strings) (hplaces : h.Places address g.strings)
include hgen hx hsound hplaces

/-- A binary operation computes its value and stops at a division where there is none. -/
theorem genInstr_binary {op : Code.BinaryOp} (hop : x.op = .binary op) :
    ∃ d l r xs, x.dst = some d ∧ x.src1 = some l ∧ x.src2 = some r ∧ code = xs.map .insn ∧
      covered = false ∧
        Computes h site address g g' xs d (fun _ σ => op.eval (σ.word address l) (σ.word address r)) ∧
          ∀ s, Tracks site address g.cache s →
            op.eval ((site.frame.contents s).word address l) ((site.frame.contents s).word address r) =
              none → h.Ensures True xs s fun _ => False := by
  simp only [genInstr, hop, GenM.bind_eq_ok_iff, GenM.pure_eq_ok_iff, Prod.mk.injEq] at hgen
  obtain ⟨pair, g₁, hpair, keep, g₂, hkeep, ⟨rfl, rfl⟩, rfl⟩ := hgen
  obtain ⟨l, r, hl, hr, hkeeps, hpair⟩ := loadPair_ensures (h := h) hpair hsound hplaces
    (Instr.src1_mem hx) (Instr.src2_mem hx)
  obtain ⟨d, hd, hkeeps', hkeep⟩ := produce_ensures (h := h) hkeep (hkeeps.strings ▸ hsound) (Instr.dst_mem hx)
  have hensures : ∀ s, Tracks site address g.cache s →
      h.Ensures (op.eval ((site.frame.contents s).word address l)
        ((site.frame.contents s).word address r) = none) (pair ++ binaryCode op ++ keep) s fun t =>
          ∃ v, op.eval ((site.frame.contents s).word address l)
            ((site.frame.contents s).word address r) = some v ∧ Wrote h site d v s t ∧
              Tracks site address g₂.cache t := by
    intro s htracks
    rw [List.append_assoc]
    refine Host.Ensures.append ((hpair s _ htracks).mono ?_)
    rintro t ⟨hrax, hrcx, hst, htracks⟩
    refine Host.Ensures.append (binaryCode_ensures op hrax hrcx fun v u heval hv htu => ?_)
    refine (hkeep u _).mono ?_
    rintro w ⟨hwrote, htracks⟩
    exact ⟨v, heval, hv ▸ hwrote.of_keeps (hst.trans htu), htracks⟩
  refine ⟨d, l, r, _, hd, hl, hr, rfl, rfl, ⟨hkeeps.trans hkeeps', fun s _ v htracks _ hv => ?_⟩,
    fun s htracks hnone => ?_⟩
  · refine ((hensures s htracks).weaken fun hnone => ?_).mono ?_
    · rw [hv] at hnone
      cases hnone
    · rintro t ⟨w, hw, hwrote, htracks⟩
      cases hv.symm.trans hw
      exact ⟨hwrote, htracks⟩
  · refine ((hensures s htracks).weaken fun _ => trivial).mono ?_
    rintro t ⟨w, hw, _⟩
    rw [hnone] at hw
    cases hw

theorem genInstr_compare {op : Code.CompareOp} (hop : x.op = .compare op) :
    ∃ d l r xs, x.dst = some d ∧ x.src1 = some l ∧ x.src2 = some r ∧ code = xs.map .insn ∧
      covered = false ∧ Computes h site address g g' xs d fun _ σ =>
        some (truth (op.holds (σ.word address l) (σ.word address r))) := by
  simp only [genInstr, hop, GenM.bind_eq_ok_iff, GenM.pure_eq_ok_iff, Prod.mk.injEq] at hgen
  obtain ⟨pair, g₁, hpair, keep, _, hkeep, ⟨rfl, rfl⟩, rfl⟩ := hgen
  obtain ⟨l, r, hl, hr, hkeeps, hpair⟩ := loadPair_ensures (h := h) hpair hsound hplaces
    (Instr.src1_mem hx) (Instr.src2_mem hx)
  obtain ⟨d, hd, hkeeps', hkeep⟩ := produce_ensures (h := h) hkeep (hkeeps.strings ▸ hsound) (Instr.dst_mem hx)
  refine ⟨d, l, r, _, hd, hl, hr, rfl, rfl, hkeeps.trans hkeeps', fun s _ v htracks _ hv => ?_⟩
  cases hv
  rw [List.append_assoc]
  refine Host.Ensures.append ((hpair s _ htracks).mono ?_)
  rintro t ⟨hrax, hrcx, hst, htracks⟩
  refine Host.Ensures.append (compareCode_ensures op hrax hrcx fun u hv htu => ?_)
  refine (hkeep u _).mono ?_
  rintro w ⟨hwrote, htracks⟩
  exact ⟨hv ▸ hwrote.of_keeps (hst.trans htu), htracks⟩

theorem genInstr_unary {op : Code.UnaryOp} (hop : x.op = .unary op) :
    ∃ d o xs, x.dst = some d ∧ x.src1 = some o ∧ code = xs.map .insn ∧ covered = false ∧
      Computes h site address g g' xs d fun heap σ => op.eval heap (σ.word address o) := by
  simp only [genInstr, hop, GenM.bind_eq_ok_iff, GenM.pure_eq_ok_iff, Prod.mk.injEq] at hgen
  obtain ⟨arg, g₁, harg, keep, _, hkeep, ⟨rfl, rfl⟩, rfl⟩ := hgen
  obtain ⟨o, ho, hkeeps, harg⟩ := load_ensures (h := h) harg hsound hplaces (Instr.src1_mem hx)
  obtain ⟨d, hd, hkeeps', hkeep⟩ := replace_ensures (h := h) hkeep (hkeeps.strings ▸ hsound) (Instr.dst_mem hx)
  refine ⟨d, o, _, hd, ho, rfl, rfl, hkeeps.trans hkeeps', fun s heap v htracks hheld hv => ?_⟩
  rw [List.append_assoc]
  refine Host.Ensures.append ((harg s _ htracks).mono ?_)
  rintro t ⟨rfl, htracks⟩
  refine Host.Ensures.append (unaryCode_ensures (by simp) (by simpa using hheld) hv
    fun u hu htu hregs => ?_)
  refine (hkeep u _ (htracks.forget .rax hregs htu.contents)).mono ?_
  rintro w ⟨hwrote, htracks⟩
  exact ⟨hu ▸ hwrote.of_keeps (.trans (.setAdvance ..) htu), htracks⟩

/-- Moves, loads and stores all copy a value. -/
theorem genInstr_move (hop : x.op = .move ∨ x.op = .load ∨ x.op = .store) :
    ∃ d o xs, x.dst = some d ∧ x.src1 = some o ∧ code = xs.map .insn ∧ covered = false ∧
      Computes h site address g g' xs d fun _ σ => some (σ.word address o) := by
  have hgen : ∃ value g₁ keep, load site x.src1 .rax g = .ok (value, g₁) ∧
      store site x.dst .rax g₁ = .ok (keep, g') ∧ (value ++ keep).map .insn = code ∧
        covered = false := by
    rcases hop with hop | hop | hop <;>
    · simp only [genInstr, hop, GenM.bind_eq_ok_iff, GenM.pure_eq_ok_iff, Prod.mk.injEq] at hgen
      obtain ⟨value, g₁, hvalue, keep, _, hkeep, ⟨hcode, hcovered⟩, rfl⟩ := hgen
      exact ⟨value, g₁, keep, hvalue, hkeep, hcode, hcovered.symm⟩
  obtain ⟨value, g₁, keep, hvalue, hkeep, rfl, rfl⟩ := hgen
  obtain ⟨o, ho, hkeeps, hvalue⟩ := load_ensures (h := h) hvalue hsound hplaces (Instr.src1_mem hx)
  have hdst := Instr.dst_mem hx
  obtain ⟨hpending, hstrings⟩ := store_state hkeep
  obtain ⟨d, offset, hd, _⟩ := store_ok hkeep
  refine ⟨d, o, _, hd, ho, rfl, rfl, hkeeps.trans ⟨hpending, hstrings⟩, fun s _ v htracks _ hv => ?_⟩
  cases hv
  refine Host.Ensures.append ((hvalue s _ htracks).mono ?_)
  rintro t ⟨rfl, htracks⟩
  obtain ⟨d', hd', hensures⟩ := store_ensures (h := h) hkeep hdst hsound.apart hsound.fits htracks
  cases hd.symm.trans hd'
  refine hensures.mono ?_
  rintro w ⟨hwrote, htracks⟩
  exact ⟨by simpa using hwrote.of_keeps (.setAdvance ..), htracks⟩

theorem genInstr_index (hop : x.op = .index) :
    ∃ d l r xs, x.dst = some d ∧ x.src1 = some l ∧ x.src2 = some r ∧ code = xs.map .insn ∧
      covered = false ∧ Computes h site address g g' xs d fun heap σ =>
        heap.get? (σ.word address l) (σ.word address r) := by
  simp only [genInstr, hop, GenM.bind_eq_ok_iff, GenM.pure_eq_ok_iff, Prod.mk.injEq] at hgen
  obtain ⟨pair, g₁, hpair, keep, _, hkeep, ⟨rfl, rfl⟩, rfl⟩ := hgen
  obtain ⟨l, r, hl, hr, hkeeps, hpair⟩ := loadPair_ensures (h := h) hpair hsound hplaces
    (Instr.src1_mem hx) (Instr.src2_mem hx)
  obtain ⟨d, hd, hkeeps', hkeep⟩ := replace_ensures (h := h) hkeep (hkeeps.strings ▸ hsound) (Instr.dst_mem hx)
  refine ⟨d, l, r, _, hd, hl, hr, rfl, rfl, hkeeps.trans hkeeps', fun s heap v htracks hheld hv => ?_⟩
  rw [List.append_assoc]
  refine Host.Ensures.append ((hpair s _ htracks).mono ?_)
  rintro t ⟨hrax, hrcx, hst, htracks⟩
  rw [List.cons_append, Host.ensures_load]
  intro _ _
  have hread : t.mem.read (Address.resolve t (.element .rax .rcx)).toNat = v := by
    rw [Address.resolve, hrax, hrcx, hst.mem]
    exact hheld.get?_eq hv
  rw [hread, List.nil_append]
  have htu : t.Keeps (t.set (.tracked .rax) v).next := (State.Keeps.set t .rax v).trans (.next _)
  have hregs : ∀ r, r ≠ .rax → (t.set (.tracked .rax) v).next.regs (.tracked r) = t.regs (.tracked r) :=
    fun r hr => by simp [State.set_regs_ne, hr]
  refine (hkeep _ _ (htracks.forget .rax hregs htu.contents)).mono ?_
  rintro w ⟨hwrote, htracks⟩
  rw [State.next_regs, State.set_regs_same] at hwrote
  exact ⟨hwrote.of_keeps (hst.trans htu), htracks⟩

/-- Writing an element of an array changes memory at the element only. -/
theorem genInstr_setIndex (hop : x.op = .setIndex) :
    ∃ l r o xs, x.dst = some l ∧ x.src1 = some r ∧ x.src2 = some o ∧ code = xs.map .insn ∧
      covered = false ∧ g.Keeps g' ∧ ∀ s, Tracks site address g.cache s →
        h.Ensures False xs s fun t => ∃ u, s.Keeps u ∧ Tracks site address g'.cache u ∧
          t.regs = u.regs ∧ t.mem = u.mem.write
            ((site.frame.contents s).word address l + (site.frame.contents s).word address r * 8 + 8).toNat
              ((site.frame.contents s).word address o) := by
  simp only [genInstr, hop, genSetIndex, GenM.bind_eq_ok_iff, GenM.pure_eq_ok_iff,
    GenM.within_eq_ok_iff, Prod.mk.injEq] at hgen
  obtain ⟨_, _, ⟨pair, g₁, hpair, value, _, hvalue, rfl, rfl⟩, ⟨rfl, rfl⟩, rfl⟩ := hgen
  obtain ⟨l, r, hl, hr, hkeeps, hpair⟩ := loadPair_ensures (h := h) hpair hsound hplaces
    (Instr.dst_mem hx) (Instr.src1_mem hx)
  obtain ⟨o, ho, hkeeps', hvalue⟩ := load_ensures (h := h) hvalue (hkeeps.strings ▸ hsound)
    (hkeeps.strings ▸ hplaces) (Instr.src2_mem hx)
  refine ⟨l, r, o, _, hl, hr, ho, rfl, rfl, hkeeps.trans hkeeps', fun s htracks => ?_⟩
  rw [List.append_assoc]
  refine Host.Ensures.append ((hpair s _ htracks).mono ?_)
  rintro t ⟨hrax, hrcx, hst, htracks⟩
  refine Host.Ensures.append ((hvalue t _ htracks).mono ?_)
  rintro u ⟨rfl, htracks⟩
  rw [Host.ensures_store]
  intro _ _
  rw [Host.ensures_nil]
  refine ⟨_, hst.trans (.setAdvance ..), htracks, rfl, ?_⟩
  simp [Address.resolve, State.set_regs_ne, hrax, hrcx, hst.contents]

/-- A return puts its operand into the first register, and the last one needs no jump. -/
theorem genInstr_ret (hop : x.op = .ret) :
    covered = false ∧ ∃ xs : List Insn,
      code = (xs ++ if i + 1 < site.func.code.length then [Insn.jump "exit"] else []).map .insn ∧
        ∀ s, Tracks site address g.cache s → h.Ensures False xs s fun t => s.Keeps t ∧
          ∀ o, x.src1 = some o → t.regs (.tracked .rax) = (site.frame.contents s).word address o := by
  simp only [genInstr, hop] at hgen
  by_cases hnone : x.src1.isNone = true
  · simp only [hnone, if_true, GenM.bind_eq_ok_iff, GenM.pure_eq_ok_iff, Prod.mk.injEq] at hgen
    obtain ⟨_, _, ⟨rfl, rfl⟩, ⟨rfl, rfl⟩, rfl⟩ := hgen
    refine ⟨rfl, [], rfl, fun s _ => Host.ensures_nil.mpr ⟨.refl s, fun o ho => ?_⟩⟩
    simp [ho] at hnone
  · simp only [hnone, Bool.false_eq_true, if_false, GenM.bind_eq_ok_iff, GenM.pure_eq_ok_iff, Prod.mk.injEq] at hgen
    obtain ⟨xs, _, hvalue, ⟨rfl, rfl⟩, rfl⟩ := hgen
    obtain ⟨o, ho, _, hload⟩ := load_ensures (h := h) hvalue hsound hplaces (Instr.src1_mem hx)
    refine ⟨rfl, xs, rfl, fun s htracks => (hload s False htracks).mono ?_⟩
    rintro t ⟨rfl, _⟩
    refine ⟨.setAdvance .., fun o' ho' => ?_⟩
    cases ho.symm.trans ho'
    simp

end Operations

end TreeCompiler.Asm
