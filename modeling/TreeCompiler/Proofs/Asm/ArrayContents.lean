import TreeCompiler.Proofs.Asm.JourneyCalls

/-!
Arrays keep their contents within an activation: they lie in memory that nothing else uses, and what is
read from them is what was last written to them.
-/

namespace TreeCompiler.Asm

open Code

variable {h : Host} {options : Options} {p : Code.Program} {k : Station h options p} {address : Bytes → Word}
  {before heap : Heap} {arrays : List Word} {entry u v t : State} {c c' : Point} {l l' : Ledger} {x : Instr}

/-- No array lies in a slot. -/
theorem Alive.not_covers_slot {site : Site} (halive : Alive site before entry heap arrays u)
    (hfits : site.frame.Fits) {o : Operand} {offset : Int} (hoffset : site.frame.offset? o = some offset) {i : Nat}
    (hi : i < 8) : ¬ heap.Covers (u.slotAddress offset + i) := by
  obtain ⟨j, hj, rfl⟩ := Frame.offset?_bound hoffset
  have hbase := halive.framed.rbp_toNat
  have hlow := halive.framed.rbp_le
  have hsmall := hfits.slots_lt hj
  rw [slotAddress_eq u j hsmall]
  rintro ⟨b, ws, hb, hle, hlt⟩
  have hroom := halive.held.room hb
  -- A slot below address zero would be beyond the end of memory.
  refine halive.not_covers_frame ?_ ?_ ⟨b, ws, hb, hle, hlt⟩
  · omega
  · unfold Site.argsEnd
    omega

namespace Station

/-- A function that stands in the text has a station there. -/
theorem exists_of_mem (hp : p.WellFormed) (htext : genProgram options p = .ok h.lines) {f : Func} (hf : f ∈ p.funcs)
    (hinternal : f.isExternal = false) : ∃ k : Station h options p, k.site.func = f := by
  obtain ⟨site, start, params, opened, body, rfl, hplaced⟩ := exists_placed hp htext hf hinternal
  exact ⟨⟨site, start, params, opened, body, hplaced⟩, rfl⟩

/-- What an ordinary call pushes lies below all arrays. -/
theorem Kept.below_calls {name : String} (hp : p.WellFormed) (hplaces : h.Places address (StringTable.ofProgram p))
    (hkept : k.Kept address before entry c l u) (hcalls : k.Calls c u name v c')
    (haccess : h.accessible (v.regs .rsp - 8).toNat = true) :
    (v.regs .rsp - 8).toNat < (u.regs .rsp).toNat ∧ (∀ a, (u.regs .rsp).toNat ≤ a → v.mem a = u.mem a) ∧
      ∀ a, a < (u.regs .rsp).toNat → ¬ l.heap.Covers a := by
  obtain ⟨f, os, _, hat⟩ := hkept.atCall hp hplaces hcalls
  obtain ⟨hpush, hbound⟩ := Host.push_bound haccess
  obtain ⟨hroom, hsmall⟩ := hat.calling.room hbound
  exact ⟨by omega, hat.calling.mem, fun a ha => hkept.shows.alive.not_covers_below hsmall ha⟩

end Station

/-- Where a function stands in the text: the lines of its symbol and of its first instruction, and what
    the generator knows there. -/
structure Chart where
  site : Site
  start : Nat
  base : Nat
  opened : GenState

/-- The chart of a function whose symbol is on a line. -/
def chart? (options : Options) (p : Code.Program) (start : Nat) (f : Func) : Option Chart :=
  (outline? options p f).map fun (site, params, opened, _) =>
    ⟨site, start, Placed.bodyLine start site.frame params, opened⟩

def Station.chart (k : Station h options p) : Chart :=
  ⟨k.site, k.start, Placed.bodyLine k.start k.site.frame k.params, k.opened⟩

theorem Station.chart?_eq_some (k : Station h options p) :
    chart? options p k.start k.site.func = some k.chart := by
  rw [chart?, k.placed.outline?_eq_some]
  rfl

instance (address : Bytes → Word) (σ : Store) (x : Instr) : Decidable (Jumps address σ x) :=
  inferInstanceAs (Decidable (_ ∨ _))

namespace Point

/-- The point behind an instruction. -/
def next? (options : Options) (site : Site) (c : Point) : Option Point :=
  (site.func.code[c.index]?).bind fun x => (genInstr site c.index x c.state).toOption.map fun r =>
    ⟨if r.1.2 then c.index + 2 else c.index + 1, r.2, c.before ++ (announcement options x ++ r.1.1)⟩

/-- The point behind a label that is placed from a point on. -/
def behind? (options : Options) (site : Site) (name : String) : Nat → Point → Option Point
  | 0, _ => none
  | n + 1, c =>
    if (site.func.code[c.index]?).bind Instr.label? = some name then c.next? options site
    else (c.next? options site).bind (behind? options site name n)

theorem next_of_next? {site : Site} (hnext : c.next? options site = some c') : Next options site c c' := by
  obtain ⟨x, hx, hnext⟩ := Option.bind_eq_some_iff.mp hnext
  obtain ⟨r, hgen, rfl⟩ := Option.map_eq_some_iff.mp hnext
  exact .intro hx (eq_ok_of_toOption hgen)

theorem exists_of_behind? {site : Site} {opened : GenState} {name : String} {n : Nat}
    (hc : Boundary options site opened c) (hbehind : behind? options site name n c = some c') :
    ∃ b y, Boundary options site opened b ∧ site.func.code[b.index]? = some y ∧ y.label? = some name ∧
      Next options site b c' := by
  induction n generalizing c with
  | zero => cases hbehind
  | succ n ih =>
    unfold behind? at hbehind
    split at hbehind
    · next hlabel =>
      obtain ⟨y, hy, hname⟩ := Option.bind_eq_some_iff.mp hlabel
      exact ⟨c, y, hc, hy, hname, next_of_next? hbehind⟩
    · obtain ⟨d, hd, hrest⟩ := Option.bind_eq_some_iff.mp hbehind
      exact ih (hc.next (next_of_next? hd)) hrest

end Point

/-- Where a journey stands. -/
structure Stop where
  point : Point
  ledger : Ledger
  state : State

namespace Stop

variable (h : Host) (options : Options) (address : Bytes → Word) (o : Chart)

/-- Enters a function. -/
def enter? (before : Heap) (entry : State) : Option Stop :=
  if entry.pc = o.start then (h.run (o.base - o.start) entry).toOption.map fun t =>
    ⟨⟨0, o.opened, []⟩, .opening before, t⟩
  else none

/-- Where an instruction goes, and over how many lines. -/
def goes? (x : Instr) (a : Stop) : Option (Point × Nat) :=
  (a.point.next? options o.site).bind fun c =>
    if Jumps address (o.site.frame.contents a.state) x then
      x.target?.bind fun name =>
        (Point.behind? options o.site name o.site.func.code.length ⟨0, o.opened, []⟩).map fun d =>
          (d, c.before.length - a.point.before.length + 1)
    else some (c, c.before.length - a.point.before.length)

/-- Executes an instruction that neither calls nor ends the function or the program. -/
def follow? (a : Stop) : Option Stop := do
  let x ← o.site.func.code[a.point.index]?
  let (c, n) ← a.goes? options address o x
  let t ← (h.run n a.state).toOption
  let l ← a.ledger.after? address x (o.site.frame.contents a.state) (o.site.frame.contents t)
  if x.op ∈ [.call, .ret, .exit] then none else some ⟨c, l, t⟩

/-- Executes a number of such instructions. -/
def follows? : Nat → Stop → Option Stop
  | 0, a => some a
  | n + 1, a => (a.follow? h options address o).bind (follows? n)

/-- Executes a return. -/
def leave? (a : Stop) : Option State := do
  let x ← o.site.func.code[a.point.index]?
  let c ← a.point.next? options o.site
  if x.op = .ret then (h.run (c.before.length - a.point.before.length + (epilogue.length + 1)) a.state).toOption
  else none

/-- Executes an ordinary call, whose line is the one after the given number of lines. -/
def through? (o' : Chart) (lines instrs : Nat) (a : Stop) : Option Stop := do
  let x ← o.site.func.code[a.point.index]?
  let c ← a.point.next? options o.site
  let v ← (h.run lines a.state).toOption
  let .insn (.call _) ← h.lines[v.pc]? | none
  let w ← (h.step v).toOption
  let first ← enter? h o' a.ledger.heap w
  let last ← first.follows? h options address o' instrs
  let z ← last.leave? h options o'
  let t ← (h.run (o.base + c.before.length - (v.pc + 1)) z).toOption
  if x.op = .call ∧ o.site.restarts a.point.index x = false ∧ v.pc = o.base + a.point.before.length + lines ∧
      v.pc < o.base + c.before.length then
    some ⟨c, ⟨last.ledger.left, a.ledger.arrays, []⟩, t⟩
  else none

end Stop

namespace Station

variable {a b : Stop} {n : Nat} {k' : Station h options p}

theorem line_sub (k : Station h options p) (c c' : Point) :
    k.line c' - k.line c = c'.before.length - c.before.length := by
  simp only [line]
  omega

theorem goes_of_goes? (hgoes : a.goes? options address k.chart x = some (c, n)) (hrun : h.run n a.state = .ok t) :
    k.Goes address x a.point a.state c t := by
  obtain ⟨c', hc, hgoes⟩ := Option.bind_eq_some_iff.mp hgoes
  have hnext := Point.next_of_next? hc
  split at hgoes
  · next hjumps =>
    obtain ⟨name, hname, hgoes⟩ := Option.bind_eq_some_iff.mp hgoes
    obtain ⟨d, hd, hdest⟩ := Option.map_eq_some_iff.mp hgoes
    cases hdest
    obtain ⟨b, y, hboundary, hy, hlabel, hbehind⟩ := Point.exists_of_behind? .refl hd
    exact .jump hjumps hname hnext hboundary hy hlabel hbehind (k.line_sub _ _ ▸ hrun)
  · next hstays =>
    cases hgoes
    exact .straight hstays hnext (k.line_sub _ _ ▸ hrun)

theorem executes_of_follow? (hfollow : a.follow? h options address k.chart = some b) :
    ∃ x, k.Executes address x a.point a.ledger a.state b.point b.ledger b.state := by
  simp only [Stop.follow?, Option.bind_eq_bind, Option.bind_eq_some_iff] at hfollow
  obtain ⟨x, hx, ⟨c, n⟩, hgoes, t, ht, l, hl, hb⟩ := hfollow
  split at hb
  · cases hb
  · next hop =>
    cases hb
    exact ⟨x, hx, by simpa using hop, hl, goes_of_goes? hgoes (eq_ok_of_toOption ht)⟩

theorem leaves_of_leave? (hleave : a.leave? h options k.chart = some t) : k.Leaves a.point a.state t := by
  simp only [Stop.leave?, Option.bind_eq_bind, Option.bind_eq_some_iff] at hleave
  obtain ⟨x, hx, c, hc, hleave⟩ := hleave
  split at hleave
  · next hop =>
    exact ⟨⟨x, hx, hop⟩, c, Point.next_of_next? hc, k.line_sub _ _ ▸ eq_ok_of_toOption hleave⟩
  · cases hleave

namespace Journey

theorem of_enter? (henter : Stop.enter? h k.chart before entry = some a) :
    Journey address k entry before a.point a.ledger a.state := by
  unfold Stop.enter? at henter
  split at henter
  · next hstart =>
    obtain ⟨t, ht, rfl⟩ := Option.map_eq_some_iff.mp henter
    exact .enter hstart (eq_ok_of_toOption ht)
  · cases henter

theorem follows (hjourney : Journey address k entry before a.point a.ledger a.state)
    (hfollows : a.follows? h options address k.chart n = some b) :
    Journey address k entry before b.point b.ledger b.state := by
  induction n generalizing a with
  | zero =>
    cases hfollows
    exact hjourney
  | succ n ih =>
    obtain ⟨d, hd, hrest⟩ := Option.bind_eq_some_iff.mp hfollows
    obtain ⟨x, hexecutes⟩ := executes_of_follow? hd
    exact ih (hjourney.step hexecutes) hrest

theorem through {lines instrs : Nat} (hjourney : Journey address k entry before a.point a.ledger a.state)
    (hthrough : a.through? h options address k.chart k'.chart lines instrs = some b) :
    Journey address k entry before b.point b.ledger b.state := by
  simp only [Stop.through?, Option.bind_eq_bind, Option.bind_eq_some_iff] at hthrough
  obtain ⟨x, hx, c, hc, v, hv, i, hi, hthrough⟩ := hthrough
  split at hthrough
  · next name =>
    simp only [Option.bind_eq_some_iff] at hthrough
    obtain ⟨w, hw, first, hfirst, last, hlast, z, hz, t, ht, hb⟩ := hthrough
    split at hb
    · next hcall =>
      obtain ⟨hop, hordinary, hpc, hinside⟩ := hcall
      cases hb
      have hline : v.pc = k.line a.point + lines := hpc
      have hcalls : k.Calls a.point a.state name v c := {
        instr := ⟨x, hx, hop, hordinary⟩
        next := Point.next_of_next? hc
        line := hi
        inside := ⟨by omega, hinside⟩
        run := by
          rw [hline, Nat.add_sub_cancel_left]
          exact eq_ok_of_toOption hv }
      exact hjourney.call hcalls (eq_ok_of_toOption hw) ((of_enter? hfirst).follows hlast) (leaves_of_leave? hz)
        (eq_ok_of_toOption ht)
    · cases hb
  · cases hthrough

end Journey

end Station

/-- Arrays keep their contents within an activation, on every journey of a function that starts with
    the arrays of its callers above its arguments. -/
theorem arrays_keep_contents {prog : Tree.Program} {p : Code.Program} (hbuild : buildCode prog = .ok p)
    {options : Options} {h : Host} {address : Bytes → Word} (hplaces : h.Places address (StringTable.ofProgram p))
    {k : Station h options p} {entry u : State} {before : Heap} {c : Point} {l : Ledger}
    (hheld : Held entry.mem before) (hshared : ∀ b ws, before b = some ws → k.site.argsEnd entry ≤ b.toNat)
    (hjourney : Station.Journey address k entry before c l u) :
    Held u.mem l.heap ∧ l.arrays.Nodup ∧ (∀ b ∈ l.arrays, ∃ ws, l.heap b = some ws) ∧
    (∀ o offset, k.site.frame.offset? o = some offset → ∀ i, i < 8 →
      ¬ l.heap.Covers (u.slotAddress offset + i)) ∧
    (u.regs .rbp = entry.regs .rsp - 8 ∧ (∀ i, i < 16 → ¬ l.heap.Covers ((u.regs .rbp).toNat + i)) ∧
      u.mem.read (u.regs .rbp).toNat = entry.regs .rbp ∧
        u.mem.read ((u.regs .rbp).toNat + 8) = entry.mem.read (entry.regs .rsp).toNat) ∧
    (∀ name v c', k.Calls c u name v c' → h.accessible (v.regs .rsp - 8).toNat = true →
      (v.regs .rsp - 8).toNat < (u.regs .rsp).toNat ∧ (∀ a, (u.regs .rsp).toNat ≤ a → v.mem a = u.mem a) ∧
        ∀ a, a < (u.regs .rsp).toNat → ¬ l.heap.Covers a) ∧
    (∀ x c' l' t, k.Executes address x c l u c' l' t → x.op = .array →
      ∃ d, x.dst = some d ∧ Operand.isLength x.src1 l.args.length = true ∧
        l.heap (k.site.frame.contents t d) = none ∧ l'.heap (k.site.frame.contents t d) = some l.args) ∧
    (∀ x c' l' t, k.Executes address x c l u c' l' t → x.op = .unary .len →
      ∃ d o, x.dst = some d ∧ x.src1 = some o ∧
        ∀ ws, l.heap ((k.site.frame.contents u).word address o) = some ws →
        k.site.frame.contents t d = BitVec.ofNat 64 ws.length) ∧
    ∀ x c' l' t, k.Executes address x c l u c' l' t → x.op = .index →
      ∃ d a b, x.dst = some d ∧ x.src1 = some a ∧ x.src2 = some b ∧
        l.heap.get? ((k.site.frame.contents u).word address a) ((k.site.frame.contents u).word address b) =
          some (k.site.frame.contents t d) := by
  have hp := buildCode_wellFormed hbuild
  have hkept := hjourney.kept hp hplaces hheld hshared
  have halive := hkept.shows.alive
  have hbase := halive.framed.rbp_toNat
  refine ⟨halive.held, hkept.shows.nodup, hkept.shows.built,
    fun o offset hoffset i hi => halive.not_covers_slot hkept.fits hoffset hi,
    ⟨halive.framed.rbp, fun i hi => halive.not_covers_frame (by omega) (by unfold Site.argsEnd; omega), ?_, ?_⟩,
    fun name v c' hcalls haccess => hkept.below_calls hp hplaces hcalls haccess,
    fun x c' l' t hexecutes hop => ?_, fun x c' l' t hexecutes hop => ?_, fun x c' l' t hexecutes hop => ?_⟩
  · rw [← halive.framed.saved]
    congr 1
    omega
  · rw [hbase, halive.framed.returnAddress]
  · obtain ⟨s, code, rest, covered, fr, hus, hrun⟩ := hexecutes.front hp hkept (by simp [hop])
    have hledger := hexecutes.ledger
    rw [← hus.contents] at hledger
    exact (fr.array hp hplaces hop hledger hrun).2
  · obtain ⟨s, code, rest, covered, fr, hus, hrun⟩ := hexecutes.front hp hkept (by simp [hop])
    obtain ⟨_, d, o, hd, ho, hvalue⟩ := fr.unary hp hplaces hop hrun
    rw [hus.contents] at hvalue
    exact ⟨d, o, hd, ho, fun ws hws => hvalue _ (by simp [Code.UnaryOp.eval, Heap.length?, hws])⟩
  · obtain ⟨s, code, rest, covered, fr, hus, hrun⟩ := hexecutes.front hp hkept (by simp [hop])
    have hledger := hexecutes.ledger
    rw [← hus.contents] at hledger ⊢
    exact (fr.element hp hplaces hop hledger hrun).2

/-- A function that builds an array, hands it to a function with an array of its own that writes to it,
    builds an array in every round of a loop, and then reads the first one. -/
def rowsTree : Tree.Program where
  body := [
    .func ⟨"touch", [⟨"a", .array⟩], .void, false, false⟩
      (.block [.define "own" .array (.array [.literal (.number 1), .literal (.number 2), .literal (.number 3)]),
        .setIndex (.var "a") (.literal (.number 0)) (.unary "len" (.var "own"))]),
    .func ⟨"rows", [⟨"n", .number⟩], .number, true, false⟩
      (.block [.define "keep" .array (.array [.var "n", .var "n"]), .call "touch" [.var "keep"],
        .loop (.var "n") (.block [.define "row" .array (.array [.var "n"]),
          .assign "n" (.binary "-" (.var "n") (.literal (.number 1)))]),
        .ret (.index (.var "keep") (.literal (.number 0)))])]

def rowsCode : Code.Program :=
  (buildCode rowsTree).toOption.getD ⟨[], []⟩

def rowsLines : List Line :=
  (genProgram {} rowsCode).toOption.getD []

theorem length_rowsLines : rowsLines.length < 2 ^ 50 := by
  decide +kernel

def rowsHost : Host :=
  .flat rowsLines length_rowsLines

/-- The way of the function to where it reads its first array, with two rounds of the loop. -/
def rowsStop? (o o' : Chart) : Option Stop := do
  let first ← Stop.enter? rowsHost o .empty (.calling 47 [2])
  let built ← first.follows? rowsHost {} (fun _ => 0) o 8
  let touched ← built.through? rowsHost {} (fun _ => 0) o o' 1 13
  touched.follows? rowsHost {} (fun _ => 0) o 27

theorem Station.Journey.of_rowsStop? {k k' : Station rowsHost {} rowsCode} {a : Stop}
    (hstop : rowsStop? k.chart k'.chart = some a) :
    Journey (fun _ => 0) k (.calling 47 [2]) .empty a.point a.ledger a.state := by
  simp only [rowsStop?, Option.bind_eq_bind, Option.bind_eq_some_iff] at hstop
  obtain ⟨first, hfirst, built, hbuilt, touched, htouched, hstop⟩ := hstop
  exact (((of_enter? hfirst).follows hbuilt).through htouched).follows hstop

/-- What the arrays are where the function reads its first one, and the element that it should find. -/
def rowsSeen? (o o' : Chart) : Option (List (Option (List Word)) × Word) := do
  let a ← rowsStop? o o'
  let _ ← a.follow? rowsHost {} (fun _ => 0) o
  let x ← o.site.func.code[a.point.index]?
  let base ← x.src1
  let position ← x.src2
  let σ := o.site.frame.contents a.state
  let element ← a.ledger.heap.get? (σ.word (fun _ => 0) base) (σ.word (fun _ => 0) position)
  if x.op = .index then some (a.ledger.arrays.map a.ledger.heap, element) else none

/-- Behind the call and the loop three arrays exist, and the first element of the first one is what the
    other function stored there. -/
theorem rows_keep_contents : ∃ (k : Station rowsHost {} rowsCode) (x : Instr) (c c' : Point) (l l' : Ledger)
    (u t : State) (d : Operand), k.site.func.name = "rows" ∧
      Station.Journey (fun _ => 0) k (.calling 47 [2]) .empty c l u ∧
        l.arrays.map l.heap = [some [1], some [2], some [3, 2]] ∧ Held u.mem l.heap ∧ l.arrays.Nodup ∧
      k.Executes (fun _ => 0) x c l u c' l' t ∧ x.op = .index ∧ x.dst = some d ∧
        k.site.frame.contents t d = 3 := by
  have hbuild : buildCode rowsTree = .ok rowsCode := eq_ok_of_toOption (by decide +kernel)
  have htext : genProgram {} rowsCode = .ok rowsHost.lines := eq_ok_of_toOption (by decide +kernel)
  have hstrings : (StringTable.ofProgram rowsCode).strings = #[] := by decide +kernel
  have hinternal : ∀ f ∈ rowsCode.funcs, f.isExternal = false := by decide +kernel
  have hrows : rowsHost.symbol? "rows" = some 47 := by decide +kernel
  have htouch : rowsHost.symbol? "touch" = some 4 := by decide +kernel
  have hseen : ((rowsCode.func? "rows").bind fun f => (rowsCode.func? "touch").bind fun g =>
      (chart? {} rowsCode 47 f).bind fun o => (chart? {} rowsCode 4 g).bind (rowsSeen? o)) =
        some ([some [1], some [2], some [3, 2]], 3) := by
    decide +kernel
  have hp := buildCode_wellFormed hbuild
  obtain ⟨f, hf, hseen⟩ := Option.bind_eq_some_iff.mp hseen
  obtain ⟨g, hg, hseen⟩ := Option.bind_eq_some_iff.mp hseen
  obtain ⟨hf, hfname⟩ := Code.Program.mem_of_func? hf
  obtain ⟨hg, hgname⟩ := Code.Program.mem_of_func? hg
  obtain ⟨k, rfl⟩ := Station.exists_of_mem hp htext hf (hinternal f hf)
  obtain ⟨k', rfl⟩ := Station.exists_of_mem hp htext hg (hinternal g hg)
  have hstart : k.start = 47 := Option.some.inj (k.placed.symbol.symm.trans (hfname ▸ hrows))
  have hstart' : k'.start = 4 := Option.some.inj (k'.placed.symbol.symm.trans (hgname ▸ htouch))
  rw [← hstart, k.chart?_eq_some, Option.bind_some, ← hstart', k'.chart?_eq_some, Option.bind_some] at hseen
  simp only [rowsSeen?, Option.bind_eq_bind, Option.bind_eq_some_iff] at hseen
  obtain ⟨a, ha, b, hb, x, hx, base, hbase, position, hposition, element, helement, hseen⟩ := hseen
  split at hseen
  · next hop =>
    obtain ⟨harrays, rfl⟩ := Prod.mk.inj (Option.some.inj hseen)
    obtain ⟨y, hexecutes⟩ := Station.executes_of_follow? hb
    obtain rfl : x = y := Option.some.inj (hx.symm.trans hexecutes.instr)
    have hjourney := Station.Journey.of_rowsStop? ha
    obtain ⟨hheld, hnodup, _, _, _, _, _, _, helements⟩ := arrays_keep_contents hbuild
      (fun t ht => by simp [hstrings] at ht) (.empty _) (fun _ _ hnone => by cases hnone) hjourney
    obtain ⟨d, base', position', hd, hbase', hposition', hvalue⟩ := helements x _ _ _ hexecutes hop
    cases hbase.symm.trans hbase'
    cases hposition.symm.trans hposition'
    exact ⟨k, x, a.point, b.point, a.ledger, b.ledger, a.state, b.state, d, hfname, hjourney, harrays, hheld, hnodup,
      hexecutes, hop, hd, Option.some.inj (hvalue.symm.trans helement)⟩
  · cases hseen

end TreeCompiler.Asm
