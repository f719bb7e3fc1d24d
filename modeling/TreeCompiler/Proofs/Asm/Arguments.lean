import Mathlib.Data.List.Nodup
import TreeCompiler.Proofs.Asm.Completion

/-!
Arguments reach parameters. A caller places its arguments in registers and on the stack, and the
function that it calls copies them from there into the slots of its parameters. A function that calls
itself last replaces its own arguments and goes to its entry. Either way each parameter holds what its
operand held before, whatever the registers were known to hold.
-/

namespace TreeCompiler.Asm

open Code

/-- A parameter is given the argument at its position. -/
theorem map_bindArgs {ps : List Param} {vs : List Word} (hlength : vs.length = ps.length)
    (hsome : ∀ p ∈ ps, p.operand ≠ none) (hnodup : (ps.map (·.operand)).Nodup) (σ : Store) :
    ps.map (fun p => p.operand.map (bindArgs σ ps vs)) = vs.map some := by
  induction ps generalizing vs with
  | nil =>
    rw [List.eq_nil_of_length_eq_zero hlength]
    rfl
  | cons p ps ih =>
    obtain ⟨v, vs, rfl⟩ := List.exists_cons_of_length_eq_add_one hlength
    obtain ⟨hp, hnodup⟩ := List.nodup_cons.mp hnodup
    obtain ⟨o, ho⟩ := Option.ne_none_iff_exists'.mp (hsome p (by simp))
    have hrest := ih (by simpa using hlength) (fun q hq => hsome q (by simp [hq])) hnodup
    simp only [List.map_cons, bindArgs, ho, Store.put?, Option.map_some, Store.put_same, List.cons.injEq, true_and]
    rw [← hrest]
    refine List.map_congr_left fun q hq => ?_
    cases hq' : q.operand with
    | none => rfl
    | some o' =>
      have hne : o' ≠ o := by
        rintro rfl
        exact hp (List.mem_map.mpr ⟨q, hq, hq'.trans ho.symm⟩)
      rw [Option.map_some, Option.map_some, Store.put_ne _ _ hne]

/-- The parameters of a function have slots, each one its own. -/
structure Site.TakesParams (site : Site) : Prop where
  slots : ∀ p ∈ site.func.params, ∃ o offset, p.operand = some o ∧ site.frame.offset? o = some offset
  apart : (site.func.params.map fun p => p.operand.bind site.frame.offset?).Nodup

/-- The slots of the parameters hold values in order. -/
def Site.Binds (site : Site) (vs : List Word) (s : State) : Prop :=
  site.func.params.map (fun p => p.operand.map (site.frame.contents s)) = vs.map some

/-- The words of the frame that a function owns, by their distances from its base: its slots and the
    arguments that it was passed on the stack. -/
def Site.Owns (site : Site) (offset : Int) : Prop :=
  site.frame.HasSlot offset ∨ ∃ j, 6 ≤ j ∧ j < site.func.params.length ∧ offset = stackArg j

/-- The lines of a function from its entry to the code of its first instruction. -/
def Site.bindLines (site : Site) (params : List Insn) : List Line :=
  .mark "entry" :: (rewind site.frame ++ params).map .insn

/-- The lines of a function from its symbol to the code of its first instruction. -/
def Site.openLines (site : Site) (params : List Insn) : List Line :=
  .symbol site.func.name :: ((prologue site.frame).map .insn ++ site.bindLines params)

theorem funcLines_eq_openLines (site : Site) (params : List Insn) (body : List Line) :
    funcLines site.func site.frame params body = (if site.func.isPublic then [.global site.func.name] else []) ++
      (site.openLines params ++ (body ++ .mark "exit" :: epilogue)) := by
  simp [funcLines_eq, innerLines, Site.openLines, Site.bindLines]

/-- Instructions that copy the arguments of a function into the slots of its parameters. -/
structure Site.Opening (site : Site) (params : List Insn) : Prop where
  takes : site.TakesParams
  frame : site.frame.Fits
  near : fits (stackArg site.func.params.length) = true
  code : ∃ g g', g.cache = .empty ∧
    bindParams site 0 (site.func.params.map (·.operand)) Reg.args g = .ok (params, g')

/-- The function with its instructions taken away. -/
def Site.hollow (site : Site) : Site :=
  { site with func := { site.func with code := [] } }

variable {h : Host} {site caller callee : Site} {address : Bytes → Word} {g g' : GenState} {s t u : State}
  {params : List Insn} {vs : List Word} {os : List Operand}

theorem bindParams_hollow (index : Nat) (as : List (Option Operand)) (regs : List Reg) :
    bindParams site.hollow index as regs = bindParams site index as regs := by
  induction as generalizing index regs with
  | nil => rfl
  | cons a as ih =>
    simp only [bindParams, ih]
    rfl

theorem Site.TakesParams.sound_hollow (hparams : site.TakesParams) (hfits : site.frame.Fits)
    (strings : StringTable) : site.hollow.Sound strings := by
  have hmem : ∀ o, some o ∈ site.hollow.func.operands → ∃ p ∈ site.func.params, p.operand = some o := by
    intro o ho
    simpa [Site.hollow, Code.Func.operands] using ho
  refine ⟨fun o o' offset ho ho' hoffset hoffset' => ?_, hfits, fun t ht => ?_⟩
  · obtain ⟨p, hp, hpo⟩ := hmem o ho
    obtain ⟨q, hq, hqo⟩ := hmem o' ho'
    have hoffset : site.frame.offset? o = some offset := hoffset
    have hoffset' : site.frame.offset? o' = some offset := hoffset'
    obtain rfl := List.inj_on_of_nodup_map hparams.apart hp hq (by simp [hpo, hqo, hoffset, hoffset'])
    exact Option.some.inj (hpo.symm.trans hqo)
  · obtain ⟨p, hp, hpo⟩ := hmem _ ht
    obtain ⟨o, offset, hpo', hoffset⟩ := hparams.slots p hp
    cases hpo.symm.trans hpo'
    simp [Frame.offset?, Frame.slot?] at hoffset

/-- Copying arguments from where they are passed gives each parameter its own, whatever the other
    operands of the function are. -/
theorem Site.Opening.ensures_binds (hopening : site.Opening params) (hrbp : (s.regs .rbp).toNat ≤ 2 ^ 47)
    (hlength : vs.length = site.func.params.length) (hpassed : Passed s ((s.regs .rbp).toNat + 16) 0 vs) :
    h.Ensures False params s (site.Binds vs) := by
  obtain ⟨hparams, hfits, _, g, g', hcache, hbind⟩ := hopening
  have hsome : ∀ p ∈ site.func.params, p.operand ≠ none := by
    intro p hp
    obtain ⟨o, _, ho, _⟩ := hparams.slots p hp
    simp [ho]
  have hnodup : (site.func.params.map (·.operand)).Nodup := by
    refine List.Nodup.of_map (fun a : Option Operand => a.bind site.frame.offset?) ?_
    rw [List.map_map]
    exact hparams.apart
  have hmem : ∀ p ∈ site.func.params, p.operand ∈ site.hollow.func.operands := fun p hp =>
    Code.Func.mem_operands_of_param hp
  have htracks : Tracks site.hollow (fun _ => 0) g.cache s := by
    rw [hcache]
    exact .empty ..
  rw [← bindParams_hollow] at hbind
  have hfresh : ∀ p ∈ site.func.params, ∀ r, g.cache.get r ≠ p.operand := fun p hp r => by
    simpa [hcache] using (hsome p hp).symm
  refine Host.Ensures.mono ((bindParams_ensures hbind rfl (hparams.sound_hollow hfits g.strings) hmem hnodup
    hfresh).2 s vs hlength htracks hrbp hpassed) ?_
  rintro t ⟨hbound, _⟩
  refine (List.map_congr_left fun p hp => ?_).trans (map_bindArgs hlength hsome hnodup (site.frame.contents s))
  obtain ⟨o, _, ho, _⟩ := hparams.slots p hp
  simp only [ho, Option.map_some, Option.some.injEq]
  exact hbound.contents o (ho ▸ hmem p hp)

/-- Copying arguments completes where the function can use what it owns. -/
theorem Site.Opening.achieves (hopening : site.Opening params)
    (howns : ∀ offset, site.Owns offset → h.Spans s offset) :
    h.Achieves params s fun t => t.regs .rsp = s.regs .rsp ∧ t.regs .rbp = s.regs .rbp := by
  obtain ⟨g, g', _, hbind⟩ := hopening.code
  refine achieves_of_within howns (bindParams_gives_within (i := 0) (fun _ => .inl) ?_ g params g' hbind)
  exact fun j hj hlt => .inr ⟨j, hj, by simpa using hlt, rfl⟩

/-- At its entry a function that finds its arguments where they are passed goes on to its first
    instruction, with its parameters bound to them. -/
theorem Site.Opening.comesTo_binds (hopening : site.Opening params) (hrbp : (s.regs .rbp).toNat ≤ 2 ^ 47)
    (hlength : vs.length = site.func.params.length) (hpassed : Passed s ((s.regs .rbp).toNat + 16) 0 vs)
    (howns : ∀ offset, site.Owns offset → h.Spans s offset)
    (hcode : h.HasCode s.pc (site.bindLines params)) :
    h.ComesTo s (s.pc + (site.bindLines params).length) (site.Binds vs) := by
  refine .silent hcode rfl ?_
  have hlines : h.HasCode s.next.pc ((rewind site.frame).map .insn ++ params.map .insn) := by
    rw [← List.map_append]
    exact hcode.tail
  have hrewind : h.Ensures False (rewind site.frame) s.next _ := rewind_keeps site.frame s.next
  refine ((rewind_achieves hopening.frame).comesTo hrewind hlines).trans ?_
  rintro t hpc ⟨_, hregs, htrbp, hmem⟩
  have hpassed' : Passed t ((t.regs .rbp).toNat + 16) 0 vs := by
    refine ⟨fun j v r hv hr => ?_, fun j v hv hj => ?_⟩
    · rw [hregs]
      exact hpassed.inRegs j v r hv hr
    · rw [htrbp, hmem]
      exact hpassed.onStack j v hv hj
  have howns' : ∀ offset, site.Owns offset → h.Spans t offset := by
    intro offset hoffset
    simpa only [Host.Spans, State.slotAddress, htrbp, State.next_regs] using howns offset hoffset
  have hcode' : h.HasCode t.pc (params.map .insn ++ []) := by
    rw [hpc, List.append_nil]
    simpa using hlines.right
  refine ((hopening.achieves howns').comesTo (hopening.ensures_binds (htrbp ▸ hrbp) hlength hpassed')
    hcode').trans fun w hw hbinds => ?_
  have hend : w.pc = s.pc + (site.bindLines params).length := by
    rw [hw, hpc]
    simp only [Site.bindLines, List.length_cons, List.length_map, List.length_append, State.next_pc]
    omega
  exact hend ▸ .refl hbinds.2

/-- A running function has its slots above its stack, and memory can be used from some bytes below
    the stack up to the last argument of the function. -/
structure Site.Stands (site : Site) (h : Host) (room : Nat) (s : State) : Prop where
  clear : (s.regs .rsp).toNat + 8 * site.frame.slots.size ≤ (s.regs .rbp).toNat
  deep : room ≤ (s.regs .rsp).toNat
  usable : ∀ a, (s.regs .rsp).toNat ≤ a + room →
    a + 8 ≤ (s.regs .rbp).toNat + 16 + 8 * (site.func.params.length - 6) → h.accessible a = true

theorem toNat_sub_ofNat {x : Word} {k : Nat} (hk : k ≤ x.toNat) :
    (x - BitVec.ofNat 64 k).toNat = x.toNat - k := by
  have hlt := x.isLt
  rw [BitVec.toNat_sub, BitVec.toNat_ofNat]
  omega

namespace Site.Stands

variable {room : Nat}

variable (hstands : site.Stands h room s)
include hstands

theorem rbp_le : (s.regs .rbp).toNat + 16 ≤ 2 ^ 47 := by
  have hclear := hstands.clear
  have haccess := hstands.usable ((s.regs .rbp).toNat + 8) (by omega) (by omega)
  have hbound := h.accessible_bound _ haccess
  omega

theorem congr (hrsp : t.regs .rsp = s.regs .rsp) (hrbp : t.regs .rbp = s.regs .rbp) : site.Stands h room t := by
  refine ⟨?_, ?_, ?_⟩
  · rw [hrsp, hrbp]
    exact hstands.clear
  · rw [hrsp]
    exact hstands.deep
  · rw [hrsp, hrbp]
    exact hstands.usable

theorem of_le {room' : Nat} (hle : room' ≤ room) : site.Stands h room' s :=
  ⟨hstands.clear, Nat.le_trans hle hstands.deep, fun a ha hend => hstands.usable a (by omega) hend⟩

/-- The words below the stack can be used as far as there is room. -/
theorem below {k : Nat} (hlo : 8 ≤ k) (hhi : k ≤ room) :
    h.accessible (s.regs .rsp - BitVec.ofNat 64 k).toNat = true := by
  have hclear := hstands.clear
  have hroom := hstands.deep
  rw [toNat_sub_ofNat (Nat.le_trans hhi hroom)]
  exact hstands.usable _ (by omega) (by omega)

variable {offset : Int}

/-- A function can use its slots. -/
theorem spans_slot (hfits : site.frame.Fits) (hslot : site.frame.HasSlot offset) : h.Spans s offset := by
  have hclear := hstands.clear
  have hbase := hstands.rbp_le
  obtain ⟨o, hoffset⟩ := hslot
  obtain ⟨k, hk, rfl⟩ := Frame.offset?_bound hoffset
  have hk' := hfits.slots_lt hk
  refine ⟨fits_iff.mpr (by omega), ?_⟩
  rw [slotAddress_eq s k hk']
  exact hstands.usable _ (by omega) (by omega)

/-- A function can use what it owns. -/
theorem spans (hfits : site.frame.Fits) (hsmall : fits (stackArg site.func.params.length) = true)
    (howns : site.Owns offset) : h.Spans s offset := by
  rcases howns with hslot | ⟨j, hj, hlt, rfl⟩
  · exact hstands.spans_slot hfits hslot
  · have hclear := hstands.clear
    have hbase := hstands.rbp_le
    have hoffset : fits (stackArg j) = true := by
      rw [fits_iff] at hsmall ⊢
      unfold stackArg at hsmall ⊢
      omega
    have haddress : s.slotAddress (stackArg j) = (s.regs .rbp).toNat + 16 + 8 * (j - 6) :=
      stackArg_resolve hj hoffset (by omega)
    refine ⟨hoffset, ?_⟩
    rw [haddress]
    exact hstands.usable _ (by omega) (by omega)

omit hstands in
/-- A function that was called has a stack of its own below the arguments. -/
theorem entered (hstands : caller.Stands h (callSpace os.length + 16 + callee.frame.size) s)
    (hcalling : Calling caller address os s t) (hinvoked : Invoked h t u)
    (hlength : os.length = callee.func.params.length) {v : State} (hrbp : v.regs .rbp = u.regs .rsp - 8)
    (hrsp : v.regs .rsp = v.regs .rbp - BitVec.ofNat 64 callee.frame.size) : callee.Stands h 0 v := by
  have hclear := hstands.clear
  have hdeep := hstands.deep
  have hbase := hstands.rbp_le
  have hspace : 8 * (callee.func.params.length - 6) ≤ callSpace os.length := by
    unfold callSpace
    omega
  have hslots := callee.frame.slots_size_le_size
  have htop : (t.regs .rsp).toNat = (s.regs .rsp).toNat - callSpace os.length := by
    rw [hcalling.rsp, toNat_sub_ofNat (by omega)]
  have hentry := hinvoked.room.1
  have hvrbp : (v.regs .rbp).toNat = (u.regs .rsp).toNat - 8 := by
    rw [hrbp, show (8 : Word) = BitVec.ofNat 64 8 from rfl, toNat_sub_ofNat (by omega)]
  have hvrsp : (v.regs .rsp).toNat = (v.regs .rbp).toNat - callee.frame.size := by
    rw [hrsp, toNat_sub_ofNat (by omega)]
  exact ⟨by omega, Nat.zero_le _, fun a ha hend => hstands.usable a (by omega) (by omega)⟩

end Site.Stands

variable {pushes inRegs : List Insn} {g₁ g₂ : GenState} {room start : Nat} {ls : List Line}

/-- The arguments of a call are placed where there is room for them. -/
theorem callArgs_achieves {args : List (Option Operand)}

    (hpushes : pushArgs caller (stackArgs args).reverse g = .ok (pushes, g₁))
    (hregs : loadRegArgs caller 0 args Reg.args g₁ = .ok (inRegs, g₂)) (hstands : caller.Stands h room s)
    (hroom : callSpace args.length ≤ room) (hslots : ∀ offset, caller.frame.HasSlot offset → h.Spans s offset) :
    h.Achieves (callArgs args.length pushes inRegs) s fun _ => True := by
  have hlength : (stackArgs args).reverse.length = args.length - 6 := by
    simp [stackArgs]
  -- Behind the padding, whatever it is, there is room for the pushes.
  have hplaced : ∀ t, t.regs .rbp = s.regs .rbp →
      t.regs .rsp = s.regs .rsp - BitVec.ofNat 64 (8 * ((args.length - 6) % 2)) →
        h.Achieves (pushes ++ inRegs) t fun _ => True := by
    intro t hrbp hrsp
    have hspans : ∀ u : State, u.regs .rbp = s.regs .rbp →
        ∀ offset, caller.frame.HasSlot offset → h.Spans u offset := by
      intro u hrbp offset hslot
      simpa only [Host.Spans, State.slotAddress, hrbp] using hslots offset hslot
    have hstack : ∀ k, k < (stackArgs args).reverse.length →
        h.accessible (t.regs .rsp - BitVec.ofNat 64 (8 * (k + 1))).toNat = true := by
      intro k hk
      rw [hrsp, BitVec.sub_sub, ← BitVec.ofNat_add]
      unfold callSpace at hroom
      exact hstands.below (by omega) (by omega)
    refine .append ((pushArgs_gives_achieves g pushes g₁ hpushes t (hspans t hrbp) hstack).mono fun u hu => ?_)
    exact (achieves_of_within (hspans u (hu.trans hrbp))
      (loadRegArgs_gives_within (fun _ hslot => hslot) g₁ inRegs g₂ hregs)).mono fun _ _ => trivial
  rw [callArgs, List.append_assoc]
  split
  · next hpad => exact hplaced s rfl (by simp [hpad])
  · refine ⟨_, Host.exec_grow (fits_iff.mpr (by omega)), hplaced _ ?_ ?_⟩
    · simp [State.set_regs_ne]
    · rw [State.next_regs, State.clearFlags_regs, State.set_regs_same, BitVec.ofInt_natCast]

/-- A call finds the function with the symbol that it names. -/
theorem exists_invoked {name : String}
    (hcode : h.HasCode t.pc (.insn (.call name) :: ls))
    (haccess : h.accessible (t.regs .rsp - 8).toNat = true) (hsymbol : h.symbol? name = some start) :
    ∃ u, h.exec t (.call name) = .ok u ∧ u.pc = start ∧ Invoked h t u := by
  have hexec : ∃ u, h.exec t (.call name) = .ok u := by
    simp only [Host.exec, Host.push, Host.store, if_pos haccess, hsymbol]
    exact ⟨_, rfl⟩
  obtain ⟨u, hexec⟩ := hexec
  obtain ⟨hpc, hinvoked⟩ := Invoked.of_exec (List.getElem?_eq_some_iff.mp hcode.getElem?).1 hexec
  exact ⟨u, hexec, Option.some.inj (hpc.symm.trans hsymbol), hinvoked⟩

/-- A function that was called with its arguments placed opens its frame and binds them. -/
theorem Invoked.comesTo_binds (hinvoked : Invoked h t u) (hcalling : Calling caller address os s t)
    (hstands : caller.Stands h (callSpace os.length + 16 + callee.frame.size) s)
    (hlength : os.length = callee.func.params.length) (hopening : callee.Opening params)
    (hcode : h.HasCode u.pc (callee.openLines params)) :
    h.ComesTo u (u.pc + (callee.openLines params).length)
      (callee.Binds (os.map ((caller.frame.contents s).word address))) := by
  have haccess : h.accessible (u.next.regs .rsp - 8).toNat = true := by
    rw [State.next_regs, hinvoked.rsp, hcalling.rsp, show (8 : Word) = BitVec.ofNat 64 8 from rfl, BitVec.sub_sub,
      BitVec.sub_sub, ← BitVec.ofNat_add, ← BitVec.ofNat_add]
    exact hstands.below (by omega) (by omega)
  have hprologue : h.Ensures False (prologue callee.frame) u.next _ :=
    prologue_ensures (hinvoked.passed hcalling) (Held.empty u.mem) fun _ _ hb => by cases hb
  refine .silent hcode rfl (((prologue_achieves hopening.frame haccess).comesTo hprologue hcode.tail).trans ?_)
  rintro v hpc ⟨⟨hrbp, hrsp⟩, hentered, hpassed, _⟩
  have hstands' : callee.Stands h 0 v := hstands.entered hcalling hinvoked hlength hrbp hrsp
  have hcode' : h.HasCode v.pc (callee.bindLines params) := by
    rw [hpc]
    simpa using hcode.tail.right
  have hbase : (v.regs .rbp).toNat ≤ 2 ^ 47 := Nat.le_trans (Nat.le_add_right _ 16) hstands'.rbp_le
  refine (hopening.comesTo_binds hbase (by simpa using hlength) hpassed
    (fun _ => hstands'.spans hopening.frame hopening.near) hcode').trans fun w hw hbinds => ?_
  have hend : w.pc = u.pc + (callee.openLines params).length := by
    rw [hw, hpc]
    simp only [Site.openLines, List.length_cons, List.length_map, List.length_append, State.next_pc]
    omega
  exact hend ▸ .refl hbinds

/-- The instructions of a call come to the call itself with the arguments placed. -/
theorem callArgs_comesTo
    (hpushes : pushArgs caller (stackArgs (os.map some)).reverse g = .ok (pushes, g₁))
    (hregs : loadRegArgs caller 0 (os.map some) Reg.args g₁ = .ok (inRegs, g₂)) (hfits : caller.frame.Fits)
    (hos : ∀ o ∈ os, g.strings.Lists o) (hcache : g.cache.Sound caller (h.place g.strings) s)
    (hstands : caller.Stands h room s) (hroom : callSpace os.length ≤ room)
    (hcode : h.HasCode s.pc ((callArgs os.length pushes inRegs).map .insn ++ ls)) :
    h.ComesTo s (s.pc + (callArgs os.length pushes inRegs).length) (Calling caller (h.place g.strings) os s) := by
  have hplaced := (callArgs_ensures (h := h) hpushes hregs hfits (fun _ _ => rfl) hos).2 s hcache
    fun _ => hstands.clear
  have hachieves : h.Achieves (callArgs os.length pushes inRegs) s fun _ => True := by
    simpa using callArgs_achieves hpushes hregs hstands (by rw [List.length_map]; exact hroom)
      fun _ => hstands.spans_slot hfits
  exact (hachieves.comesTo hplaced hcode).mono fun _ _ ht => ht.2

/-- From a call whose arguments are placed, the function that is called goes on to its first
    instruction with its parameters bound. -/
theorem Calling.comesTo_binds (hcalling : Calling caller address os s t)
    (hstands : caller.Stands h (callSpace os.length + 16 + callee.frame.size) s)
    (hlength : os.length = callee.func.params.length) (hopening : callee.Opening params)
    (hcode : h.HasCode t.pc (.insn (.call callee.func.name) :: ls))
    (hsymbol : h.symbol? callee.func.name = some start) (hopens : h.HasCode start (callee.openLines params)) :
    h.ComesTo t (start + (callee.openLines params).length)
      (callee.Binds (os.map ((caller.frame.contents s).word address))) := by
  have haccess : h.accessible (t.regs .rsp - 8).toNat = true := by
    rw [hcalling.rsp, show (8 : Word) = BitVec.ofNat 64 8 from rfl, BitVec.sub_sub, ← BitVec.ofNat_add]
    exact hstands.below (by omega) (by omega)
  obtain ⟨u, hexec, rfl, hinvoked⟩ := exists_invoked hcode haccess hsymbol
  exact .exec hcode hexec (hinvoked.comesTo_binds hcalling hstands hlength hopening hopens)

/-- A call of the function itself comes to its jump with the arguments replaced. -/
theorem tailJump_comesTo {xs : List Insn} (hgen : tailJump site (os.map some) g = .ok (xs, g'))
    (hfits : site.frame.Fits) (hos : ∀ o ∈ os, g.strings.Lists o)
    (hcache : g.cache.Sound site (h.place g.strings) s) (hstands : site.Stands h 0 s)
    (hsmall : fits (stackArg os.length) = true) (hcode : h.HasCode s.pc (xs.map .insn)) :
    h.ComesTo s (s.pc + (xs.length - 1)) fun t =>
      h.HasCode t.pc [.insn (.jump "entry")] ∧ t.regs .rsp = s.regs .rsp ∧ t.regs .rbp = s.regs .rbp ∧
        Passed t ((s.regs .rbp).toNat + 16) 0 (os.map ((site.frame.contents s).word (h.place g.strings))) := by
  have hbase := hstands.rbp_le
  obtain ⟨hlength, _, ys, hys, hensures⟩ := tailJump_ensures (h := h) hgen hfits (fun _ _ => rfl) hos
  obtain ⟨_, onStack, g₁, inRegs, g₂, hstack, hregs, _, rfl⟩ := tailJump_ok hgen
  obtain rfl := List.append_cancel_right hys
  have hachieves : h.Achieves (onStack ++ inRegs) s fun _ => True := by
    refine (achieves_of_within (P := site.Owns) (fun _ => hstands.spans hfits (hlength ▸ hsmall))
      (List.forall_mem_append.mpr ⟨?_, ?_⟩)).mono fun _ _ => trivial
    · refine overwriteArgs_gives_within (fun _ => .inl) (fun a ha => .inr ?_) g onStack g₁ hstack
      simp only [stackArgs_map_some, List.mem_map, Prod.exists] at ha
      obtain ⟨o, j, ho, rfl⟩ := ha
      have hj := List.mem_zipIdx ho
      simp only [List.length_drop] at hj
      exact ⟨j, hj.1, by omega, rfl⟩
    · exact loadRegArgs_gives_within (fun _ => .inl) g₁ inRegs g₂ hregs
  rw [List.map_append] at hcode
  rw [List.length_append, List.length_singleton, Nat.add_sub_cancel]
  refine (hachieves.comesTo (hensures s hcache (by omega)) hcode).mono ?_
  rintro t hpc ⟨_, hrebound⟩
  refine ⟨?_, hrebound.rsp, hrebound.rbp, hrebound.passed⟩
  rw [hpc]
  simpa using hcode.right

/-- From its jump a call of the function itself goes on to the first instruction with the parameters
    bound, even if they were the operands. -/
theorem jump_comesTo_binds {entry : Nat} (hjump : h.HasCode t.pc [.insn (.jump "entry")])
    (hstands : site.Stands h 0 t) (hlength : vs.length = site.func.params.length) (hopening : site.Opening params)
    (hpassed : Passed t ((t.regs .rbp).toNat + 16) 0 vs) (hmark : h.mark? t.pc "entry" = some entry)
    (hopens : h.HasCode entry (site.bindLines params)) :
    h.ComesTo t (entry + (site.bindLines params).length) (site.Binds vs) := by
  have hexec : h.exec t (.jump "entry") = .ok { t with pc := entry } := by
    simp only [Host.exec, hmark, State.goto]
  have hbase : (t.regs .rbp).toNat ≤ 2 ^ 47 := Nat.le_trans (Nat.le_add_right _ 16) hstands.rbp_le
  exact .exec hjump hexec (hopening.comesTo_binds hbase hlength ⟨hpassed.inRegs, hpassed.onStack⟩
    (fun _ => hstands.spans hopening.frame hopening.near) hopens)

theorem Frame.Offers.lists {fr : Frame} {strings : StringTable} {o : Operand} (ho : fr.Offers strings (some o)) :
    strings.Lists o := by
  rintro t rfl
  exact ho

/-- Arguments reach parameters. -/
theorem arguments_reach_parameters {opened : GenState} {dst : Option Operand}
    (hos : ∀ o ∈ os, caller.frame.Offers g.strings (some o))
    (hdst : ∀ d, dst = some d → ∃ offset, caller.frame.offset? d = some offset)
    (hlength : os.length = callee.func.params.length) (hparams : callee.TakesParams)
    (hcaller : caller.frame.Fits) (hcallee : callee.frame.Fits) (hsmall : fits (stackArg os.length) = true)
    (hopened : opened.cache = .empty) :
    ∃ params opened',
      bindParams callee 0 (callee.func.params.map (·.operand)) Reg.args opened = .ok (params, opened') ∧
      (∃ xs g', plainCall caller callee.func.name (os.map some) dst g = .ok (xs, g') ∧
        ∀ (h : Host) (s : State) (start : Nat), g.cache.Sound caller (h.place g.strings) s →
          caller.Stands h (callSpace os.length + 16 + callee.frame.size) s →
          h.HasCode s.pc (xs.map .insn) → h.symbol? callee.func.name = some start →
          h.HasCode start (callee.openLines params) →
            (∃ k, xs[k]? = some (.call callee.func.name) ∧ h.ComesTo s (s.pc + k) fun t =>
              Passed t (t.regs .rsp).toNat 0 (os.map ((caller.frame.contents s).word (h.place g.strings)))) ∧
            h.ComesTo s (start + (callee.openLines params).length)
              (callee.Binds (os.map ((caller.frame.contents s).word (h.place g.strings))))) ∧
      (callee = caller → ∃ xs g', tailJump caller (os.map some) g = .ok (xs, g') ∧
        ∀ (h : Host) (s : State) (entry : Nat), g.cache.Sound caller (h.place g.strings) s →
          caller.Stands h 0 s → h.HasCode s.pc (xs.map .insn) →
          h.mark? (s.pc + (xs.length - 1)) "entry" = some entry → h.HasCode entry (caller.bindLines params) →
            h.ComesTo s (entry + (caller.bindLines params).length)
              (caller.Binds (os.map ((caller.frame.contents s).word (h.place g.strings))))) := by
  have hoffers : ∀ a ∈ os.map some, caller.frame.Offers g.strings a := by
    intro a ha
    obtain ⟨o, ho, rfl⟩ := List.mem_map.mp ha
    exact hos o ho
  have hlists : ∀ o ∈ os, g.strings.Lists o := fun o ho => (hos o ho).lists
  have hslots : ∀ a ∈ callee.func.params.map (·.operand), ∃ o offset, a = some o ∧
      callee.frame.offset? o = some offset := by
    intro a ha
    obtain ⟨p, hp, rfl⟩ := List.mem_map.mp ha
    exact hparams.slots p hp
  obtain ⟨params, opened', hbind, _⟩ := bindParams_returns (g := opened) hslots
  have hopening : callee.Opening params := ⟨hparams, hcallee, hlength ▸ hsmall, opened, opened', hopened, hbind⟩
  refine ⟨params, opened', hbind, ?_, ?_⟩
  · obtain ⟨xs, g', hgen, _⟩ := plainCall_returns hoffers hdst
    refine ⟨xs, g', hgen, fun h s start hcache hstands hcode hsymbol hopens => ?_⟩
    obtain ⟨pushes, g₁, inRegs, g₂, keep, hpushes, hregs, _, rfl⟩ := plainCall_ok hgen
    rw [List.length_map] at hcode ⊢
    rw [List.map_append] at hcode
    have hplaced := callArgs_comesTo hpushes hregs hcaller hlists hcache hstands (by omega) hcode
    refine ⟨⟨_, by simp, hplaced.mono fun t _ hcalling => hcalling.passed⟩, hplaced.trans ?_⟩
    intro t hpc hcalling
    have hcall := hcode.right
    rw [List.length_map, ← hpc, List.map_cons] at hcall
    exact hcalling.comesTo_binds hstands hlength hopening hcall hsymbol hopens
  · rintro rfl
    obtain ⟨xs, g', hgen, _⟩ := tailJump_returns hoffers (by simpa using hlength)
    refine ⟨xs, g', hgen, fun h s entry hcache hstands hcode hmark hopens => ?_⟩
    refine (tailJump_comesTo hgen hcaller hlists hcache hstands hsmall hcode).trans ?_
    rintro t hpc ⟨hjump, hrsp, hrbp, hpassed⟩
    rw [← hpc] at hmark
    rw [← hrbp] at hpassed
    exact jump_comesTo_binds hjump (hstands.congr hrsp hrbp) (by simpa using hlength) hopening hpassed hmark hopens

/-- A function of nine parameters. -/
def turn : Site :=
  let f : Code.Func :=
    { name := "turn"
      params := ["a", "b", "c", "d", "e", "f", "g", "h", "i"].map fun name => ⟨some (.var name), .number⟩
      code := [], ret := .number, isPublic := false, isExternal := false }
  ⟨f, (Frame.ofFunc f).toOption.getD {}, []⟩

/-- What it calls itself with: its parameters in another order. -/
def turned : List Operand :=
  ["b", "a", "d", "c", "f", "e", "h", "i", "g"].map .var

/-- The code that binds its parameters, and what is known of the registers behind it. -/
def turnBound : List Insn × GenState :=
  (bindParams turn 0 (turn.func.params.map (·.operand)) Reg.args { strings := {} }).toOption.getD
    ([], { strings := {} })

/-- The code of a call. -/
def turnCall : List Insn :=
  ((plainCall turn "turn" (turned.map some) none turnBound.2).toOption.map (·.1)).getD []

/-- The code that goes to the entry instead. -/
def turnJump : List Insn :=
  ((tailJump turn (turned.map some) turnBound.2).toOption.map (·.1)).getD []

/-- The function with both, one after the other. -/
def turnLines : List Line :=
  funcLines turn.func turn.frame turnBound.1 ((turnCall ++ turnJump).map .insn)

theorem length_turnLines : turnLines.length < 2 ^ 50 := by
  decide +kernel

/-- The function runs with its parameters holding the numbers from one to nine. -/
def turnState (pc : Nat) : State where
  regs
    | .rsp => 0xffffffffb0#64
    | .rbp => 0x10000000000#64
    | .tracked r => if r = .rax then 9 else BitVec.ofNat 64 (Reg.args.idxOf r + 1)
  flags := none
  mem a := if a % 8 = 0 then BitVec.ofNat 8 ((2 ^ 40 - a) / 8) else 0
  pc

theorem turned_arguments :
    let h := Host.flat turnLines length_turnLines
    let first := (turn.openLines turnBound.1).length
    h.ComesTo (turnState first) first (turn.Binds [2, 1, 4, 3, 6, 5, 8, 9, 7]) ∧
      h.ComesTo (turnState (first + turnCall.length)) first (turn.Binds [2, 1, 4, 3, 6, 5, 8, 9, 7]) := by
  intro h first
  have hos : ∀ o ∈ turned, turn.frame.Offers turnBound.2.strings (some o) := by
    have hslots : ∀ o ∈ turned, (turn.frame.offset? o).isSome = true := by decide +kernel
    intro o ho
    obtain ⟨name, _, rfl⟩ := List.mem_map.mp ho
    exact Option.isSome_iff_exists.mp (hslots _ ho)
  have hparams : turn.TakesParams := by
    have hslots : ∀ p ∈ turn.func.params, (p.operand.bind turn.frame.offset?).isSome = true := by decide +kernel
    refine ⟨fun p hp => ?_, by decide +kernel⟩
    obtain ⟨offset, hoffset⟩ := Option.isSome_iff_exists.mp (hslots p hp)
    obtain ⟨o, ho, hoffset⟩ := Option.bind_eq_some_iff.mp hoffset
    exact ⟨o, offset, ho, hoffset⟩
  have hfits : turn.frame.Fits := by
    unfold Frame.Fits
    decide +kernel
  have hcache : ∀ pc, turnBound.2.cache.Sound turn (h.place turnBound.2.strings) (turnState pc) := by
    have hknown : ∀ r ∈ Reg.all, ∀ o ∈ turnBound.2.cache.get r, Operand.isStorage (some o) = true ∧
        (turnState 0).regs (.tracked r) = turn.frame.contents (turnState 0) o := by decide +kernel
    intro pc r o hget
    obtain ⟨hstorage, hvalue⟩ := hknown r (by cases r <;> decide) o hget
    exact hvalue.trans (Store.word_of_isStorage _ _ hstorage).symm
  have hstands : ∀ pc, turn.Stands h (2 ^ 39) (turnState pc) := by
    have hclear : ((turnState 0).regs .rsp).toNat + 8 * turn.frame.slots.size ≤ ((turnState 0).regs .rbp).toNat ∧
        2 ^ 39 ≤ ((turnState 0).regs .rsp).toNat := by decide +kernel
    have hend : ((turnState 0).regs .rbp).toNat + 16 + 8 * (turn.func.params.length - 6) ≤ 2 ^ 47 := by
      decide +kernel
    exact fun pc => ⟨hclear.1, hclear.2, fun a _ ha => decide_eq_true (Nat.le_trans ha hend)⟩
  have hvalues : ∀ pc, turned.map ((turn.frame.contents (turnState pc)).word (h.place turnBound.2.strings)) =
      [2, 1, 4, 3, 6, 5, 8, 9, 7] := by
    have hcontents : turned.map (turn.frame.contents (turnState 0)) = [2, 1, 4, 3, 6, 5, 8, 9, 7] := by
      decide +kernel
    refine fun pc => (List.map_congr_left fun o ho => ?_).trans hcontents
    obtain ⟨name, _, rfl⟩ := List.mem_map.mp ho
    rfl
  obtain ⟨params, opened', hbind, ⟨xs, g', hcall, hcalls⟩, hself⟩ := arguments_reach_parameters
    hos (show ∀ d, (none : Option Operand) = some d → _ from nofun) (by decide +kernel) hparams hfits hfits
    (by decide +kernel) (show GenState.cache { strings := {} } = .empty from rfl)
  obtain ⟨ys, g'', hjump, hjumps⟩ := hself rfl
  obtain rfl : turnBound.1 = params := by simp [turnBound, hbind, Except.toOption]
  obtain rfl : turnCall = xs := by
    have hcall : plainCall turn "turn" (turned.map some) none turnBound.2 = .ok (xs, g') := hcall
    simp [turnCall, hcall, Except.toOption]
  obtain rfl : turnJump = ys := by simp [turnJump, hjump, Except.toOption]
  have hlines : h.HasCode 0 (turn.openLines turnBound.1 ++ (turnCall.map .insn ++
      (turnJump.map .insn ++ .mark "exit" :: epilogue))) := by
    rw [← List.append_assoc (turnCall.map _), ← List.map_append]
    exact ⟨[], (List.append_nil _).trans (funcLines_eq_openLines turn turnBound.1 _).symm⟩
  have hbody := hlines.right
  rw [Nat.zero_add] at hbody
  constructor
  · have hcomes := (hcalls h (turnState first) 0 (hcache first) ((hstands first).of_le (by decide +kernel))
      hbody.left (by decide +kernel) hlines.left).2
    rwa [hvalues, Nat.zero_add] at hcomes
  · have hcode := hbody.right
    rw [List.length_map] at hcode
    have hfirst : 0 + 1 + ((prologue turn.frame).map Line.insn).length + (turn.bindLines turnBound.1).length =
        first := by decide +kernel
    have hcomes := hjumps h (turnState (first + turnCall.length)) _ (hcache _) ((hstands _).of_le (Nat.zero_le _))
      hcode.left (by decide +kernel) hlines.left.tail.right
    rwa [hvalues, hfirst] at hcomes

end TreeCompiler.Asm
