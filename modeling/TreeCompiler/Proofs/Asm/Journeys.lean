import TreeCompiler.Proofs.Asm.CallSteps
import TreeCompiler.Proofs.Asm.Stages

/-!
What the machine does between the symbol of a function and one of its points, told instruction by
instruction together with a ledger of the arrays. The ledger is kept from the instructions alone: it
says what the elements of the arrays should be, and never looks at the memory that holds them.
-/

namespace TreeCompiler.Asm

open Code

/-- What has become of arrays: the elements of those that exist, the addresses of those that the
    running activation built, the latest first, and the values handed over for the next array or
    call. -/
structure Ledger where
  heap : Heap
  arrays : List Word
  args : List Word

namespace Ledger

/-- An activation that has built nothing yet. -/
def opening (heap : Heap) : Ledger :=
  ⟨heap, [], []⟩

/-- The arrays that are left when the running activation gives up its own. -/
def left (l : Ledger) : Heap :=
  l.heap.free l.arrays

/-- What an instruction does to arrays, if it finds one store and leaves another. -/
def after? (address : Bytes → Word) (x : Instr) (σ τ : Store) (l : Ledger) : Option Ledger :=
  match x.op, x.dst, x.src1, x.src2 with
  | .arg, _, some o, _ => some { l with args := l.args ++ [σ.word address o] }
  | .array, some d, _, _ => some ⟨l.heap.build (τ d) l.args, τ d :: l.arrays, []⟩
  | .index, _, some b, some i => (l.heap.get? (σ.word address b) (σ.word address i)).map fun _ => l
  | .setIndex, some b, some i, some o =>
    (l.heap.set? (σ.word address b) (σ.word address i) (σ.word address o)).map fun heap => { l with heap }
  | _, _, _, _ => some l

end Ledger

/-- Whether an instruction goes to its label. -/
def Jumps (address : Bytes → Word) (σ : Store) (x : Instr) : Prop :=
  x.op = .jump ∨ x.op = .jumpIfFalse ∧ x.src1.map (σ.word address) = some 0

/-- A function of a program at its place in the text. -/
structure Station (h : Host) (options : Options) (p : Code.Program) where
  site : Site
  start : Nat
  params : List Insn
  opened : GenState
  body : List Line
  placed : Placed h options p site start params opened body

/-- A function that is not part of the text came back to its caller. -/
structure State.Answered (g : Func) (v z : State) : Prop where
  pc : z.pc = v.pc + 1
  rsp : z.regs .rsp = v.regs .rsp
  rbp : z.regs .rbp = v.regs .rbp
  mem : ∀ a, (v.regs .rsp).toNat + 8 * (g.params.length - 6) ≤ a → z.mem a = v.mem a

namespace Station

variable {h : Host} {options : Options} {p : Code.Program}

section Steps

variable (k : Station h options p) (address : Bytes → Word)

/-- Where a point stands in the text. -/
def line (c : Point) : Nat :=
  Placed.bodyLine k.start k.site.frame k.params + c.before.length

/-- The point before the first instruction. -/
def first : Point :=
  ⟨0, k.opened, []⟩

/-- Where the entry of the function is marked. -/
def entryLine : Nat :=
  Placed.entryLine k.start k.site.frame

/-- From one point to another: over the lines of the instruction to the point behind it, or with them
    and over the mark of a label to the point behind the label. -/
inductive Goes (x : Instr) (c : Point) (u : State) : Point → State → Prop where
  | straight {c' : Point} {t : State} (hstays : ¬ Jumps address (k.site.frame.contents u) x)
      (hnext : Next options k.site c c') (hrun : h.run (k.line c' - k.line c) u = .ok t) : Goes x c u c' t
  | jump {name : String} {y : Instr} {c₁ b c' : Point} {t : State}
    (hjumps : Jumps address (k.site.frame.contents u) x)
      (hname : x.target? = some name) (hnext : Next options k.site c c₁) (hb : Boundary options k.site k.opened b)
      (hy : k.site.func.code[b.index]? = some y) (hlabel : y.label? = some name)
      (hbehind : Next options k.site b c') (hrun : h.run (k.line c₁ - k.line c + 1) u = .ok t) : Goes x c u c' t

/-- The machine executes the lines of an instruction that neither calls nor ends the function or the
    program, and the ledger is kept. -/
structure Executes (x : Instr) (c : Point) (l : Ledger) (u : State) (c' : Point) (l' : Ledger) (t : State) :
    Prop where
  instr : k.site.func.code[c.index]? = some x
  op : x.op ≠ .call ∧ x.op ≠ .ret ∧ x.op ≠ .exit
  ledger : l.after? address x (k.site.frame.contents u) (k.site.frame.contents t) = some l'
  goes : k.Goes address x c u c' t

/-- The machine comes from the point before an ordinary call to the line that calls. -/
structure Calls (c : Point) (u : State) (name : String) (v : State) (c' : Point) : Prop where
  instr : ∃ x, k.site.func.code[c.index]? = some x ∧ x.op = .call ∧ k.site.restarts c.index x = false
  next : Next options k.site c c'
  line : h.lines[v.pc]? = some (.insn (.call name))
  inside : k.line c ≤ v.pc ∧ v.pc < k.line c'
  run : h.run (v.pc - k.line c) u = .ok v

/-- The machine executes a call that starts the function again, up to the first point. -/
structure Restarts (c : Point) (u t : State) : Prop where
  instr : ∃ x, k.site.func.code[c.index]? = some x ∧ x.op = .call ∧ k.site.restarts c.index x = true
  run : ∃ c', Next options k.site c c' ∧
    h.run (k.line c' - k.line c + (k.line k.first - k.entryLine)) u = .ok t

/-- The machine executes a return and leaves the function. -/
structure Leaves (c : Point) (u z : State) : Prop where
  instr : ∃ x, k.site.func.code[c.index]? = some x ∧ x.op = .ret
  run : ∃ c', Next options k.site c c' ∧ h.run (k.line c' - k.line c + (epilogue.length + 1)) u = .ok z

end Steps

/-- A run of one activation, from the state `entry` in which its function is called, with the arrays
    `before` of its callers, to one of its points. -/
inductive Journey (address : Bytes → Word) :
    (k : Station h options p) → (entry : State) → (before : Heap) → Point → Ledger → State → Prop where
  | enter {k : Station h options p} {entry t : State} {before : Heap} (hstart : entry.pc = k.start)
      (hrun : h.run (k.line k.first - k.start) entry = .ok t) :
      Journey address k entry before k.first (.opening before) t
  | step {k : Station h options p} {entry u t : State} {before : Heap} {x : Instr} {c c' : Point} {l l' : Ledger}
      (hjourney : Journey address k entry before c l u) (hexecutes : k.Executes address x c l u c' l' t) :
      Journey address k entry before c' l' t
  | call {k k' : Station h options p} {entry u v w y z t : State} {before : Heap} {name : String} {c d c' : Point}
      {l m : Ledger} (hjourney : Journey address k entry before c l u) (hcalls : k.Calls c u name v c')
      (hcall : h.step v = .ok w) (hcallee : Journey address k' w l.heap d m y) (hleaves : k'.Leaves d y z)
      (hrun : h.run (k.line c' - (v.pc + 1)) z = .ok t) :
      Journey address k entry before c' ⟨m.left, l.arrays, []⟩ t
  | foreign {k : Station h options p} {entry u v z t : State} {before : Heap} {g : Func} {c c' : Point} {l : Ledger}
      (hjourney : Journey address k entry before c l u) (hcalls : k.Calls c u g.name v c') (hg : g ∈ p.funcs)
      (hexternal : g.isExternal = true) (haccess : h.accessible (v.regs .rsp - 8).toNat = true)
      (hanswered : v.Answered g z) (hrun : h.run (k.line c' - (v.pc + 1)) z = .ok t) :
      Journey address k entry before c' ⟨l.heap, l.arrays, []⟩ t
  | restart {k : Station h options p} {entry u t : State} {before : Heap} {c : Point} {l : Ledger}
      (hjourney : Journey address k entry before c l u) (hrestarts : k.Restarts c u t) :
      Journey address k entry before k.first (.opening l.left) t

end Station

/-- A state shows a ledger at a point: the function runs with its arrays, the registers hold what the
    generator knows, and the values handed over are those of the operands that are pending. -/
structure Shows (site : Site) (address : Bytes → Word) (before : Heap) (entry : State) (g : GenState)
    (l : Ledger) (s : State) : Prop where
  alive : Alive site before entry l.heap l.arrays s
  tracks : Tracks site address g.cache s
  args : ∃ os : List Operand, g.pending.toList = os.map some ∧
    l.args = os.map ((site.frame.contents s).word address)
  built : ∀ b ∈ l.arrays, ∃ ws, l.heap b = some ws
  nodup : l.arrays.Nodup

namespace Shows

variable {h : Host} {site : Site} {address : Bytes → Word} {before : Heap} {entry s t : State} {g g' : GenState}
  {l : Ledger} {d : Operand} {v : Word}

/-- Nothing is handed over where nothing is pending. -/
theorem args_nil (hshows : Shows site address before entry g l s) (hpending : g.pending = #[]) : l.args = [] := by
  obtain ⟨os, hos, hargs⟩ := hshows.args
  rw [hpending] at hos
  have hnil : os = [] := by simpa using hos.symm
  rw [hargs, hnil]
  rfl

theorem congr (hshows : Shows site address before entry g l s) (hregs : t.regs = s.regs) (hmem : t.mem = s.mem) :
    Shows site address before entry g l t := by
  have hkeeps : s.Keeps t := ⟨hmem, by rw [hregs], by rw [hregs]⟩
  refine ⟨hshows.alive.of_keeps hkeeps, hshows.tracks.congr (fun r => by rw [hregs]) hkeeps.contents, ?_,
    hshows.built, hshows.nodup⟩
  rw [hkeeps.contents]
  exact hshows.args

/-- A place was given a value. -/
theorem put (hshows : Shows site address before entry g l s) (hfits : site.frame.Fits) (hwrote : Wrote h site d v s t)
    (htracks : Tracks site address g'.cache t) (hkeeps : g.Keeps g') (hnone : g.pending = #[]) :
    Shows site address before entry g' l t where
  alive := hshows.alive.wrote hfits hwrote
  tracks := htracks
  args := ⟨[], by simp [hkeeps.pending, hnone], hshows.args_nil hnone⟩
  built := hshows.built
  nodup := hshows.nodup

end Shows

end TreeCompiler.Asm
