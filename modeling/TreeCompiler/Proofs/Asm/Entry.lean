import TreeCompiler.Proofs.Asm.Activations

namespace TreeCompiler.Asm

open Code

variable {h : Host} {site : Site} {address : Bytes → Word} {before heap : Heap} {arrays vs : List Word}
  {entry s t u : State} {e : Halt}

/-- A function stands at its entry: its frame is open, and all arrays that exist are its caller's.
    -/
structure Entered (site : Site) (before : Heap) (entry : State) (heap : Heap) (s : State) : Prop where
  framed : Framed site before entry s
  held : Held s.mem heap
  shared : ∀ b ws, heap b = some ws → site.argsEnd entry ≤ b.toNat
  shape : heap.SameShape before
  settled : site.frame.hasArrays = false → site.Settled s

theorem Entered.of_keeps (hentered : Entered site before entry heap s) (hkeeps : s.Keeps t) :
    Entered site before entry heap t where
  framed := hentered.framed.of_keeps hkeeps
  held := hkeeps.mem ▸ hentered.held
  shared := hentered.shared
  shape := hentered.shape
  settled hbare := by
    unfold Site.Settled
    rw [hkeeps.rsp, hkeeps.rbp]
    exact hentered.settled hbare

/-- A function that replaces its arguments and gives up its arrays can start again. -/
theorem Alive.rebound {os : List Operand} (halive : Alive site before entry heap arrays s)
    (hrebound : Rebound site address os s t) (hlength : os.length = site.func.params.length) :
    Entered site before entry (heap.free arrays) t := by
  have hbase := halive.framed.rbp_toNat
  have hend : site.argsEnd entry = (s.regs .rbp).toNat + 16 + 8 * (os.length - 6) := by
    unfold Site.argsEnd
    omega
  have hshared : ∀ b ws, heap.free arrays b = some ws → site.argsEnd entry ≤ b.toNat := fun b ws hb =>
    halive.shared b (Heap.free_eq_some_iff.mp hb).1 ws (Heap.free_eq_some_iff.mp hb).2
  refine ⟨?_, ?_, hshared, halive.shape, fun _ => ?_⟩
  · exact halive.framed.of_mem hrebound.rbp fun c _ hkept => hrebound.mem c (by omega)
  · refine (halive.held.free arrays).congr ?_
    rintro c ⟨b, ws, hb, hle, _⟩
    have hlow := hshared b ws hb
    exact hrebound.mem c (.inr (by omega))
  · unfold Site.Settled
    rw [hrebound.rsp, hrebound.rbp]
    exact halive.settled

/-- The prologue saves the base of the frame before, and reserves the slots below the new one. -/
theorem prologue_reserves {Q : State → Prop}
    (hQ : ∀ t, site.frame.Fits → (s.regs .rsp - 8).toNat + 8 = (s.regs .rsp).toNat →
      (s.regs .rsp).toNat ≤ 2 ^ 47 →
      t.regs .rbp = s.regs .rsp - 8 → t.regs .rsp = s.regs .rsp - 8 - BitVec.ofNat 64 site.frame.size →
        (∀ r, t.regs (.tracked r) = s.regs (.tracked r)) →
          t.mem = s.mem.write (s.regs .rsp - 8).toNat (s.regs .rbp) → Q t) :
    h.Ensures False (prologue site.frame) s Q := by
  rw [prologue, List.cons_append, Host.ensures_push]
  intro haccess
  rw [List.cons_append, List.nil_append, Host.ensures_mov]
  refine reserve_ensures _ fun t hsize hrsp hother hmem => ?_
  obtain ⟨hnext, hbound⟩ := Host.push_bound haccess
  refine hQ t hsize hnext hbound ?_ (hrsp.trans ?_) (fun r => ?_) hmem
  · rw [hother .rbp (by simp)]
    simp
  · simp [State.set_regs_ne]
  · rw [hother (.tracked r) (by simp)]
    simp [State.set_regs_ne]

/-- Opening the frame of a function that was called with its arguments. -/
theorem prologue_ensures (hpassed : Passed entry ((entry.regs .rsp).toNat + 8) 0 vs)
    (hheld : Held entry.mem heap) (hshared : ∀ b ws, heap b = some ws → site.argsEnd entry ≤ b.toNat) :
    h.Ensures False (prologue site.frame) entry.next fun t =>
      Entered site heap entry heap t ∧ Passed t ((t.regs .rbp).toNat + 16) 0 vs ∧ site.frame.Fits := by
  refine prologue_reserves fun t hsize hnext hbound hrbp hrsp hother hmem => ?_
  simp only [State.next_regs, State.next_mem] at hrbp hrsp hother hmem hnext hbound
  have habove : ∀ c, (entry.regs .rsp).toNat ≤ c → t.mem c = entry.mem c := by
    intro c hc
    rw [hmem]
    exact Memory.write_of_le _ _ (by omega)
  have hframed : Framed site heap entry t := by
    refine ⟨⟨by omega, by omega⟩, hrbp, ?_, ?_, fun c hc _ => ?_⟩
    · rw [hmem, show (entry.regs .rsp).toNat - 8 = (entry.regs .rsp - 8).toNat by omega]
      exact Memory.read_write_same _ _ _
    · exact Memory.read_congr fun c hlo _ => habove c hlo
    · unfold Site.argsEnd at hc
      exact habove c (by omega)
  have hbase := hframed.rbp_toNat
  refine ⟨⟨hframed, ?_, hshared, .refl heap, fun _ => ?_⟩,
    ⟨fun j v r hv hr => ?_, fun j v hv hj => ?_⟩, hsize⟩
  · refine hheld.congr ?_
    rintro c ⟨b, ws, hb, hle, _⟩
    have hlow := hshared b ws hb
    unfold Site.argsEnd at hlow
    exact habove c (by omega)
  · refine .of_rsp hsize ?_ hframed.rbp_le
    rw [hrsp, hrbp]
  · rw [← hpassed.inRegs j v r hv hr, hother]
  · rw [← hpassed.onStack j v hv hj, show (t.regs .rbp).toNat + 16 = (entry.regs .rsp).toNat + 8 by omega]
    exact Memory.read_congr fun c hlo _ => habove c (by omega)

/-- Behind its entry a function gives up the arrays of an earlier round, if it builds any. -/
theorem rewind_ensures (hentered : Entered site before entry heap s) (hfits : site.frame.Fits)
    {Q : State → Prop} (hQ : ∀ t, Alive site before entry heap [] t →
      (∀ r, t.regs (.tracked r) = s.regs (.tracked r)) → t.regs .rbp = s.regs .rbp → t.mem = s.mem → Q t) :
    h.Ensures False (rewind site.frame) s Q := by
  -- With nothing built by itself, all arrays are shared.
  have halive : ∀ t : State, site.Settled t → t.regs .rbp = s.regs .rbp → t.mem = s.mem →
      Alive site before entry heap [] t := by
    intro t hsettled hrbp hmem
    refine ⟨hentered.framed.of_mem hrbp fun _ _ _ => by rw [hmem], hsettled, hmem ▸ hentered.held,
      (fun b hb => by simp at hb), fun b _ ws hb => hentered.shared b ws hb, ?_, fun _ => rfl⟩
    rw [Heap.free_nil]
    exact hentered.shape
  unfold rewind
  split
  · rw [Host.ensures_leaFrame]
    intro _
    rw [Host.ensures_nil]
    have hrbp : (s.set .rsp (s.regs .rbp - BitVec.ofNat 64 site.frame.size)).next.regs .rbp =
        s.regs .rbp := by simp [State.set_regs_ne]
    refine hQ _ (halive _ (.of_rsp hfits ?_ ?_) hrbp rfl) (fun r => by simp [State.set_regs_ne]) hrbp rfl
    · rw [hrbp]
      simp
    · rw [hrbp]
      exact hentered.framed.rbp_le
  · next hnone =>
    rw [Host.ensures_nil]
    exact hQ s (halive s (hentered.settled (by simpa using hnone)) rfl rfl) (fun _ => rfl) rfl rfl

/-- Giving parameters their arguments touches neither the frame nor any array. -/
theorem Alive.bound {ps : List Param} (halive : Alive site before entry heap [] s)
    (hbound : Bound site ps vs s t) : Alive site before entry heap [] t := by
  refine halive.of_mem hbound.rsp hbound.rbp hbound.above ?_
  rintro c ⟨b, ws, hb, hle, _⟩
  have hlow := halive.shared b (by simp) ws hb
  have hbase := halive.framed.rbp_toNat
  unfold Site.argsEnd at hlow
  exact hbound.above c (by omega)

/-- A call put its return address on the stack and went to a function. -/
structure Invoked (h : Host) (s t : State) : Prop where
  rsp : t.regs .rsp = s.regs .rsp - 8
  room : (t.regs .rsp).toNat + 8 = (s.regs .rsp).toNat ∧ (s.regs .rsp).toNat ≤ 2 ^ 47
  rbp : t.regs .rbp = s.regs .rbp
  regs : ∀ r, t.regs (.tracked r) = s.regs (.tracked r)
  mem : ∀ c, (s.regs .rsp).toNat ≤ c → t.mem c = s.mem c
  returnAddress : h.lineAt (t.mem.read (t.regs .rsp).toNat) = some (s.pc + 1)

/-- A call that is executed has found its function. -/
theorem Invoked.of_exec {name : String} (hline : s.pc < h.lines.length) (hexec : h.exec s (.call name) = .ok t) :
    h.symbol? name = some t.pc ∧ Invoked h s t := by
  simp only [Host.exec, Host.push, Host.store] at hexec
  split at hexec
  · next haccess =>
    cases hsymbol : h.symbol? name with
    | none =>
      rw [hsymbol] at hexec
      cases hexec
    | some pc =>
      rw [hsymbol] at hexec
      cases hexec
      obtain ⟨hnext, hbound⟩ := Host.push_bound haccess
      have hother : ∀ r, r ≠ .rsp → (s.set .rsp (s.regs .rsp - 8)).regs r = s.regs r :=
        fun r hr => s.set_regs_ne _ hr
      refine ⟨rfl, s.set_regs_same .rsp _, ⟨?_, hbound⟩, hother .rbp (by simp), fun r =>
        hother (.tracked r) (by simp),
        fun c hc => Memory.write_of_le _ _ (by omega), ?_⟩
      · simpa using hnext
      · simp only [State.set_regs_same, Memory.read_write_same]
        exact h.lineAt_address _ hline
  · cases hexec

/-- A machine that stops without a fault finds the functions that it calls. -/
theorem run_call {n : Nat} {name : String} {ls : List Line} (hcode : h.HasCode s.pc (.insn (.call name) :: ls))
    (hrun : h.run n s = .error e) (hfault : e ≠ .fault) :
    ∃ m t, n = m + 1 ∧ h.symbol? name = some t.pc ∧ Invoked h s t ∧ h.run m t = .error e := by
  obtain ⟨m, rfl, hstop | ⟨t, hexec, hrest⟩⟩ := Host.run_insn hcode hrun
  · refine absurd ?_ hfault
    simp only [Host.exec, Host.push, Host.store] at hstop
    split at hstop
    · cases hsymbol : h.symbol? name with
      | none =>
        rw [hsymbol] at hstop
        exact (Except.error.inj hstop).symm
      | some pc =>
        rw [hsymbol] at hstop
        cases hstop
    · exact (Except.error.inj hstop).symm
  · obtain ⟨hsymbol, hinvoked⟩ := Invoked.of_exec (List.getElem?_eq_some_iff.mp hcode.getElem?).1 hexec
    exact ⟨m, t, rfl, hsymbol, hinvoked, hrest⟩

section Invoked

variable {callee : Site} {os : List Operand}

/-- What a function does not keep below its own stack is kept when it calls another. -/
theorem Invoked.mem_of_calling (hinvoked : Invoked h t u) (hcalling : Calling site address os s t) {c : Nat}
    (hc : (s.regs .rsp).toNat ≤ c) : u.mem c = s.mem c := by
  have hroom := hcalling.room hinvoked.room.2
  rw [hinvoked.mem c (by omega), hcalling.mem c hc]

/-- The arguments of a called function end below the stack of its caller. -/
theorem Invoked.argsEnd_le (hinvoked : Invoked h t u) (hcalling : Calling site address os s t)
    (hlength : os.length = callee.func.params.length) : callee.argsEnd u ≤ (s.regs .rsp).toNat := by
  have hroom := hcalling.room hinvoked.room.2
  have hreturn := hinvoked.room.1
  unfold Site.argsEnd
  omega

theorem Invoked.passed (hinvoked : Invoked h t u) (hcalling : Calling site address os s t) :
    Passed u ((u.regs .rsp).toNat + 8) 0 (os.map ((site.frame.contents s).word address)) := by
  rw [hinvoked.room.1]
  refine ⟨fun j v r hv hr => ?_, fun j v hv hj => ?_⟩
  · rw [hinvoked.regs r]
    exact hcalling.passed.inRegs j v r hv hr
  · rw [← hcalling.passed.onStack j v hv hj]
    exact Memory.read_congr fun c hlo _ => hinvoked.mem c (by omega)

/-- The arrays of a caller lie above the arguments of the function that it calls. -/
theorem Alive.invoked (halive : Alive site before entry heap arrays s) (hinvoked : Invoked h t u)
    (hcalling : Calling site address os s t) (hlength : os.length = callee.func.params.length) :
    Held u.mem heap ∧ ∀ b ws, heap b = some ws → callee.argsEnd u ≤ b.toNat := by
  have hsmall := (hcalling.room hinvoked.room.2).2
  have habove : ∀ c, heap.Covers c → (s.regs .rsp).toNat ≤ c := fun c hcovers =>
    Nat.le_of_not_lt fun hc => halive.not_covers_below hsmall hc hcovers
  refine ⟨halive.held.congr fun c hcovers => hinvoked.mem_of_calling hcalling (habove c hcovers), ?_⟩
  intro b ws hb
  exact Nat.le_trans (hinvoked.argsEnd_le hcalling hlength) (habove _ ⟨b, ws, hb, by omega, by omega⟩)

/-- Behind a call, when the space of its arguments is given back, the caller runs on with its arrays,
    of which the callee may have changed elements. -/
theorem Alive.resumed {w z : State} {heap' : Heap} (halive : Alive site before entry heap arrays s)
    (hfits : site.frame.Fits) (hcalling : Calling site address os s t) (hsmall : (s.regs .rsp).toNat < 2 ^ 63)
    (hwrsp : w.regs .rsp = t.regs .rsp) (hwrbp : w.regs .rbp = t.regs .rbp)
    (hmem : ∀ c, (s.regs .rsp).toNat ≤ c → ¬ heap.Covers c → w.mem c = s.mem c) (hheld : Held w.mem heap')
    (hshape : heap'.SameShape heap) (hzmem : z.mem = w.mem) (hzrbp : z.regs .rbp = w.regs .rbp)
    (hzrsp : z.regs .rsp = w.regs .rsp + BitVec.ofNat 64 (callSpace os.length)) :
    Alive site before entry heap' arrays z ∧ site.frame.contents z = site.frame.contents s := by
  have hrsp : z.regs .rsp = s.regs .rsp := by
    rw [hzrsp, hwrsp, hcalling.rsp, BitVec.sub_add_cancel]
  have hrbp : z.regs .rbp = s.regs .rbp := by
    rw [hzrbp, hwrbp, hcalling.rbp]
  rw [← hzmem] at hmem hheld
  exact ⟨halive.called hsmall hrsp hrbp hmem hheld hshape, halive.contents_called hfits hsmall hrbp hmem⟩

end Invoked

/-- How a machine goes on when a function returns: at the line behind the call, or outside. -/
def Host.Resumes (h : Host) (entry t : State) (n : Nat) (e : Halt) : Prop :=
  match h.lineAt (entry.mem.read (entry.regs .rsp).toNat) with
  | some pc => h.run n { t with pc } = .error e
  | none => e = .left t

/-- Closing the frame of a function gives the stack and the frame of its caller back. -/
theorem epilogue_ensures (hframed : Framed site before entry s) :
    h.Ensures False [.mov .rsp .rbp, .pop .rbp] s fun t => t.regs .rsp = entry.regs .rsp ∧
      t.regs .rbp = entry.regs .rbp ∧ (∀ r, t.regs (.tracked r) = s.regs (.tracked r)) ∧ t.mem = s.mem := by
  have hbase := hframed.rbp_toNat
  rw [Host.ensures_mov, Host.ensures_pop]
  intro _
  rw [Host.ensures_nil]
  refine ⟨?_, ?_, fun r => by simp [State.set_regs_ne], rfl⟩
  · simp only [State.next_regs, State.set_regs_ne, ne_eq, reduceCtorEq, not_false_eq_true,
      State.set_regs_same, hframed.rbp]
    exact BitVec.sub_add_cancel _ _
  · simp only [State.next_regs, State.set_regs_same, State.next_mem, State.set_mem, ← hframed.saved]
    congr 1
    omega

/-- A return goes on at the line whose address is on top of the stack. -/
theorem exec_ret : h.exec s .ret = if h.accessible (s.regs .rsp).toNat then
    match h.lineAt (s.mem.read (s.regs .rsp).toNat) with
    | some pc => .ok { s.set .rsp (s.regs .rsp + 8) with pc }
    | none => .error (.left (s.set .rsp (s.regs .rsp + 8)))
    else .error .fault := by
  simp only [Host.exec, Host.pop, Host.load]
  split <;> rfl

/-- Closing the frame of a function returns to its caller, with the stack and the frame of the
    caller as they were. -/
theorem run_epilogue {n : Nat} {ls : List Line} (hcode : h.HasCode s.pc (epilogue ++ ls))
    (hframed : Framed site before entry s) (hrun : h.run n s = .error e) (hfault : e ≠ .fault) :
    ∃ m t, m ≤ n ∧ t.regs .rsp = entry.regs .rsp + 8 ∧ t.regs .rbp = entry.regs .rbp ∧
      (∀ r, t.regs (.tracked r) = s.regs (.tracked r)) ∧ t.mem = s.mem ∧ h.Resumes entry t m e := by
  have hcode' : h.HasCode s.pc ([Insn.mov .rsp .rbp, .pop .rbp].map .insn ++ (.insn .ret :: ls)) := hcode
  obtain ⟨m, t, rfl, ⟨hrsp, hrbp, hregs, hmem⟩, hpc, hrest⟩ :=
    Host.run_past hcode' (epilogue_ensures hframed) hrun hfault
  have hret : h.HasCode t.pc (.insn .ret :: ls) := hpc ▸ hcode'.right
  obtain ⟨k, rfl, hexec⟩ := Host.run_insn hret hrest
  have haddress : t.mem.read (t.regs .rsp).toNat = entry.mem.read (entry.regs .rsp).toNat := by
    rw [hmem, hrsp, hframed.returnAddress]
  refine ⟨k, t.set .rsp (t.regs .rsp + 8), by simp only [List.length_cons, List.length_nil]; omega, ?_, ?_,
    fun r => ?_, hmem, ?_⟩
  · rw [State.set_regs_same, hrsp]
  · rw [State.set_regs_ne _ _ (by simp), hrbp]
  · rw [State.set_regs_ne _ _ (by simp), hregs r]
  · rw [exec_ret, haddress] at hexec
    unfold Host.Resumes
    split at hexec
    · cases hline : h.lineAt (entry.mem.read (entry.regs .rsp).toNat) with
      | some pc =>
        simp only [hline] at hexec ⊢
        rcases hexec with hstop | ⟨u, hu, hrest⟩
        · cases hstop
        · cases hu
          exact hrest
      | none =>
        simp only [hline] at hexec ⊢
        rcases hexec with hstop | ⟨u, hu, _⟩
        · exact (Except.error.inj hstop).symm
        · cases hu
    · rcases hexec with hstop | ⟨u, hu, _⟩
      · exact absurd (Except.error.inj hstop).symm hfault
      · cases hu

end TreeCompiler.Asm
