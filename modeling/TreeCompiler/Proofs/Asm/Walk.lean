import TreeCompiler.Proofs.Asm.Tracking

namespace TreeCompiler.Asm

namespace State

variable (s : State) (pc pc' : Nat)

/-- The same state at another line. -/
def moved (s : State) (pc : Nat) : State :=
  { s with pc }

@[simp] theorem moved_regs : (s.moved pc).regs = s.regs := rfl

@[simp] theorem moved_flags : (s.moved pc).flags = s.flags := rfl

@[simp] theorem moved_mem : (s.moved pc).mem = s.mem := rfl

@[simp] theorem moved_pc : (s.moved pc).pc = pc := rfl

@[simp] theorem moved_moved : (s.moved pc).moved pc' = s.moved pc' := rfl

@[simp] theorem moved_self : s.moved s.pc = s := rfl

@[simp] theorem slotAddress_moved (offset : Int) : (s.moved pc).slotAddress offset = s.slotAddress offset := rfl

theorem divide_moved (d : Word) : (s.moved pc).divide d = (s.divide d).map (·.moved pc) := by
  unfold divide
  dsimp only [moved_regs]
  rw [apply_ite (Except.map fun u : State => u.moved pc)]
  rfl

end State

/-- Instructions that do not send control elsewhere. -/
def Insn.isPlain : Insn → Bool
  | .jump _ | .jumpIfZero _ | .call _ | .ret => false
  | _ => true

/-- Two texts use the same memory and have their strings in the same places. -/
structure Host.Like (h h' : Host) : Prop where
  accessible : h'.accessible = h.accessible
  dataAddress : h'.dataAddress = h.dataAddress

theorem Host.Like.symm {h h' : Host} (hlike : h.Like h') : h'.Like h :=
  ⟨hlike.accessible.symm, hlike.dataAddress.symm⟩

namespace Host.Like

variable {h h' : Host} (hlike : h.Like h') (s : State) (pc : Nat)

include hlike

theorem load_moved (a : Word) : h'.load (s.moved pc) a = h.load s a := by
  simp [load, hlike.accessible]

theorem store_moved (a v : Word) : h'.store (s.moved pc) a v = (h.store s a v).map (·.moved pc) := by
  unfold store
  rw [hlike.accessible]
  split <;> rfl

theorem push_moved (v : Word) : h'.push (s.moved pc) v = (h.push s v).map (·.moved pc) :=
  hlike.store_moved (s.set .rsp (s.regs .rsp - 8)) pc (s.regs .rsp - 8) v

/-- Plain instructions do the same in another text and at another line. -/
theorem exec_moved {x : Insn} (hx : x.isPlain = true) :
    h'.exec (s.moved pc) x = (h.exec s x).map (·.moved (pc + 1)) := by
  cases x with
  | push r =>
    simp only [exec, hlike.push_moved, State.moved_regs]
    cases h.push s (s.regs r) <;> rfl
  | pop r =>
    simp only [exec, pop, hlike.load_moved, State.moved_regs]
    cases h.load s (s.regs .rsp) <;> rfl
  | load dst src =>
    simp only [exec, hlike.load_moved]
    split
    · have hresolve : src.resolve (s.moved pc) = src.resolve s := by cases src <;> rfl
      rw [hresolve]
      cases h.load s (src.resolve s) <;> rfl
    · rfl
  | store dst src =>
    simp only [exec, hlike.store_moved, State.moved_regs]
    split
    · have hresolve : dst.resolve (s.moved pc) = dst.resolve s := by cases dst <;> rfl
      rw [hresolve]
      cases h.store s (dst.resolve s) (s.regs src) <;> rfl
    · rfl
  | storeConst dst v =>
    simp only [exec, hlike.store_moved]
    split
    · have hresolve : dst.resolve (s.moved pc) = dst.resolve s := by cases dst <;> rfl
      rw [hresolve]
      cases h.store s (dst.resolve s) (BitVec.ofInt 64 v) <;> rfl
    · rfl
  | leaString dst index =>
    simp only [exec, hlike.dataAddress]
    rfl
  | divide divisor =>
    simp only [exec, State.moved_regs, State.divide_moved]
    cases s.divide (s.regs divisor) <;> rfl
  | setFlag test =>
    simp only [exec, State.moved_flags]
    cases s.flags <;> rfl
  | leaFrame dst depth =>
    simp only [exec]
    split <;> rfl
  | grow bytes =>
    simp only [exec]
    split <;> rfl
  | shrink bytes =>
    simp only [exec]
    split <;> rfl
  | syscall =>
    simp only [exec]
    rw [apply_ite (Except.map fun u : State => u.moved (pc + 1))]
    rfl
  | jump name => cases hx
  | jumpIfZero name => cases hx
  | call name => cases hx
  | ret => cases hx
  | _ => rfl

end Host.Like

theorem Host.exec_pc {h : Host} {x : Insn} (hx : x.isPlain = true) {s t : State} (hexec : h.exec s x = .ok t) :
    t.pc = s.pc + 1 := by
  have hsame : h.Like h := ⟨rfl, rfl⟩
  have hmoved := hsame.exec_moved s s.pc hx
  rw [State.moved_self, hexec] at hmoved
  exact congrArg State.pc (Except.ok.inj hmoved)

/-- A word of memory overlaps no slot of the running function. -/
def Frame.Misses (fr : Frame) (s : State) (a : Nat) : Prop :=
  ∀ o offset, fr.offset? o = some offset → a + 8 ≤ s.slotAddress offset ∨ s.slotAddress offset + 8 ≤ a

/-- What functions may do when they are called by their names: the states before and after a call,
    whichever line it stands at. -/
abbrev Answers := String → State → State → Prop

/-- Instructions that hand control on to the next line, calls included. -/
def Insn.isStraight : Insn → Bool
  | .jump _ | .jumpIfZero _ | .ret => false
  | _ => true

theorem Insn.isStraight_of_isPlain {x : Insn} (hx : x.isPlain = true) : x.isStraight = true := by
  cases x <;> first | rfl | cases hx

/-- Lines that hand control on to the next one. -/
def Line.isStraight : Line → Bool
  | .insn x => x.isStraight
  | l => l.isSilent

namespace Host

variable (h : Host) (fr : Frame) (answers : Answers)

/-- What an instruction does that hands control on to the next line. -/
def Acts (s : State) (x : Insn) (t : State) : Prop :=
  match x with
  | .call name => answers name (s.moved 0) (t.moved 0) ∧ t.pc = s.pc + 1 ∧
      t.regs .rsp = s.regs .rsp ∧ t.regs .rbp = s.regs .rbp
  | .store (.element base position) src => h.exec s (.store (.element base position) src) = .ok t ∧
      fr.Misses s (Address.resolve s (.element base position)).toNat
  | x => x.isPlain = true ∧ h.exec s x = .ok t

/-- What a line does that hands control on to the next one. -/
def Passes (s : State) (l : Line) (t : State) : Prop :=
  match l with
  | .insn x => h.Acts fr answers s x t
  | l => l.isSilent = true ∧ t = s.next

/-- What lines do one after another. -/
def Does : List Line → State → State → Prop
  | [], s, t => t = s
  | l :: ls, s, t => ∃ u, h.Passes fr answers s l u ∧ Does ls u t

/-- One move of a function that runs, until it returns. -/
inductive Moves (s : State) : State → Prop where
  | passes {l : Line} {t : State} (hline : h.lines[s.pc]? = some l) (hpasses : h.Passes fr answers s l t) :
      Moves s t
  | jump {name : String} {pc : Nat} (hline : h.lines[s.pc]? = some (.insn (.jump name)))
      (hmark : h.mark? s.pc name = some pc) : Moves s (s.moved (pc + 1))
  | taken {name : String} {pc : Nat} {f : Flags} (hline : h.lines[s.pc]? = some (.insn (.jumpIfZero name)))
      (hflags : s.flags = some f) (hzero : f.zero = true) (hmark : h.mark? s.pc name = some pc) :
      Moves s (s.moved (pc + 1))
  | passed {name : String} {f : Flags} (hline : h.lines[s.pc]? = some (.insn (.jumpIfZero name)))
      (hflags : s.flags = some f) (hzero : f.zero = false) : Moves s s.next

/-- A number of moves. -/
def Walk : Nat → State → State → Prop
  | 0, s, t => t = s
  | n + 1, s, t => ∃ u, h.Moves fr answers s u ∧ Walk n u t

variable {h fr answers} {s t u : State} {x : Insn} {l : Line} {ls ms : List Line} {m n : Nat}

theorem Acts.pc (hacts : h.Acts fr answers s x t) : t.pc = s.pc + 1 := by
  unfold Acts at hacts
  split at hacts
  · exact hacts.2.1
  · exact exec_pc rfl hacts.1
  · exact exec_pc hacts.1 hacts.2

theorem Acts.isStraight (hacts : h.Acts fr answers s x t) : x.isStraight = true := by
  unfold Acts at hacts
  split at hacts
  · rfl
  · rfl
  · exact Insn.isStraight_of_isPlain hacts.1

/-- What an instruction does, it does in a text like this one and at another line. -/
theorem Acts.moved {h' : Host} (hlike : h.Like h') (hacts : h.Acts fr answers s x t) (pc : Nat) :
    h'.Acts fr answers (s.moved pc) x (t.moved (pc + 1)) := by
  unfold Acts at hacts ⊢
  split at hacts
  · exact ⟨hacts.1, rfl, hacts.2.2⟩
  · refine ⟨?_, hacts.2⟩
    rw [hlike.exec_moved s pc rfl, hacts.1]
    rfl
  · refine ⟨hacts.1, ?_⟩
    rw [hlike.exec_moved s pc hacts.1, hacts.2]
    rfl

/-- Instructions that are no calls are executed. -/
theorem Acts.exec (hacts : h.Acts fr answers s x t) (hx : x.isPlain = true) : h.exec s x = .ok t := by
  unfold Acts at hacts
  split at hacts
  · cases hx
  · exact hacts.1
  · exact hacts.2

theorem acts_of_exec (hx : x.isPlain = true)
    (helement : ∀ base position src, x ≠ .store (.element base position) src) (hexec : h.exec s x = .ok t) :
    h.Acts fr answers s x t := by
  unfold Acts
  split
  · cases hx
  · next base position src => exact absurd rfl (helement base position src)
  · exact ⟨hx, hexec⟩

theorem Passes.pc (hpasses : h.Passes fr answers s l t) : t.pc = s.pc + 1 := by
  cases l with
  | insn x => exact Acts.pc hpasses
  | _ => exact congrArg State.pc hpasses.2

theorem Passes.isStraight (hpasses : h.Passes fr answers s l t) : l.isStraight = true := by
  cases l with
  | insn x => exact Acts.isStraight hpasses
  | _ => exact hpasses.1

theorem Passes.moved {h' : Host} (hlike : h.Like h') (hpasses : h.Passes fr answers s l t) (pc : Nat) :
    h'.Passes fr answers (s.moved pc) l (t.moved (pc + 1)) := by
  cases l with
  | insn x => exact Acts.moved hlike hpasses pc
  | _ => exact ⟨hpasses.1, by rw [hpasses.2]; rfl⟩

@[simp] theorem does_nil : h.Does fr answers [] s t ↔ t = s := Iff.rfl

@[simp] theorem does_cons :
    h.Does fr answers (l :: ls) s t ↔ ∃ u, h.Passes fr answers s l u ∧ h.Does fr answers ls u t := Iff.rfl

theorem does_insn : h.Does fr answers ([x].map .insn) s t ↔ h.Acts fr answers s x t := by
  constructor
  · rintro ⟨u, hacts, rfl⟩
    exact hacts
  · intro hacts
    exact ⟨t, hacts, rfl⟩

theorem does_append :
    h.Does fr answers (ls ++ ms) s t ↔ ∃ u, h.Does fr answers ls s u ∧ h.Does fr answers ms u t := by
  induction ls generalizing s with
  | nil => simp
  | cons l ls ih =>
    simp only [List.cons_append, does_cons, ih]
    constructor
    · rintro ⟨v, hfirst, u, hls, hms⟩
      exact ⟨u, ⟨v, hfirst, hls⟩, hms⟩
    · rintro ⟨u, ⟨v, hfirst, hls⟩, hms⟩
      exact ⟨v, hfirst, u, hls, hms⟩

theorem Does.pc (hdoes : h.Does fr answers ls s t) : t.pc = s.pc + ls.length := by
  induction ls generalizing s with
  | nil => rw [does_nil.mp hdoes]; rfl
  | cons l ls ih =>
    obtain ⟨u, hfirst, hrest⟩ := hdoes
    rw [ih hrest, hfirst.pc, List.length_cons]
    omega

theorem Does.moved {h' : Host} (hlike : h.Like h') (hdoes : h.Does fr answers ls s t) (pc : Nat) :
    h'.Does fr answers ls (s.moved pc) (t.moved (pc + ls.length)) := by
  induction ls generalizing s pc with
  | nil => rw [does_nil.mp hdoes]; rfl
  | cons l ls ih =>
    obtain ⟨u, hfirst, hrest⟩ := hdoes
    refine ⟨u.moved (pc + 1), hfirst.moved hlike pc, ?_⟩
    rw [List.length_cons, show pc + (ls.length + 1) = pc + 1 + ls.length by omega]
    exact ih hrest (pc + 1)

/-- What instructions without calls ensure holds when they are done. -/
theorem Does.ensures {xs : List Insn} {trap : Prop} {Q : State → Prop} (hdoes : h.Does fr answers (xs.map .insn) s t)
    (hxs : ∀ x ∈ xs, x.isPlain = true) (hensures : h.Ensures trap xs s Q) : Q t := by
  induction xs generalizing s with
  | nil =>
    cases hdoes
    exact ensures_nil.mp hensures
  | cons x xs ih =>
    obtain ⟨u, hfirst, hrest⟩ := hdoes
    exact ih hrest (fun y hy => hxs y (by simp [hy]))
      (hensures.of_exec (Acts.exec hfirst (hxs x (by simp))))

/-- Lines without effect are passed over. -/
theorem does_silent (hsilent : ∀ l ∈ ls, l.isSilent = true) :
    h.Does fr answers ls s t ↔ t = s.advance ls.length := by
  induction ls generalizing s with
  | nil => rfl
  | cons l ls ih =>
    have hfirst : ∀ u, h.Passes fr answers s l u ↔ u = s.next := by
      intro u
      have hl := hsilent l (by simp)
      cases l <;> first | exact ⟨fun hpasses => hpasses.2, fun hu => ⟨hl, hu⟩⟩ | cases hl
    simp only [does_cons, hfirst, exists_eq_left, ih fun l hl => hsilent l (by simp [hl])]
    simp only [State.advance, State.next, List.length_cons]
    rw [show s.pc + 1 + ls.length = s.pc + (ls.length + 1) by omega]

theorem Walk.trans (hfirst : h.Walk fr answers m s u) (hrest : h.Walk fr answers n u t) :
    h.Walk fr answers (m + n) s t := by
  induction m generalizing s with
  | zero =>
    cases hfirst
    rwa [Nat.zero_add]
  | succ m ih =>
    obtain ⟨v, hmove, hfirst⟩ := hfirst
    rw [show m + 1 + n = m + n + 1 by omega]
    exact ⟨v, hmove, ih hfirst⟩

/-- A text in which lines stand does what they do. -/
theorem Does.walk (hdoes : h.Does fr answers ls s t) (hcode : h.HasCode s.pc (ls ++ ms)) :
    h.Walk fr answers ls.length s t := by
  induction ls generalizing s with
  | nil => exact does_nil.mp hdoes
  | cons l ls ih =>
    obtain ⟨u, hfirst, hrest⟩ := hdoes
    refine ⟨u, .passes hcode.getElem? hfirst, ih hrest ?_⟩
    rw [hfirst.pc]
    exact HasCode.tail hcode

/-- At a line that hands control on there is one way to move. -/
theorem Moves.passes_of_isStraight (hmoves : h.Moves fr answers s t) (hline : h.lines[s.pc]? = some l)
    (hl : l.isStraight = true) : h.Passes fr answers s l t := by
  cases hmoves with
  | passes hline' hpasses =>
    cases hline.symm.trans hline'
    exact hpasses
  | jump hline' _ =>
    cases hline.symm.trans hline'
    cases hl
  | taken hline' _ _ _ =>
    cases hline.symm.trans hline'
    cases hl
  | passed hline' _ _ =>
    cases hline.symm.trans hline'
    cases hl

/-- A walk that starts at lines which hand control on ends inside them, or does what they do and
    goes on behind them. -/
theorem Walk.through (hwalk : h.Walk fr answers n s t) (hcode : h.HasCode s.pc (ls ++ ms))
    (hstraight : ∀ l ∈ ls, l.isStraight = true) :
    (n < ls.length ∧ t.pc = s.pc + n) ∨
      ∃ m u, n = ls.length + m ∧ h.Does fr answers ls s u ∧ h.Walk fr answers m u t := by
  induction ls generalizing s n with
  | nil => exact .inr ⟨n, s, by simp, rfl, hwalk⟩
  | cons l ls ih =>
    cases n with
    | zero =>
      cases hwalk
      exact .inl ⟨by simp, rfl⟩
    | succ n =>
      obtain ⟨u, hmoves, hwalk⟩ := hwalk
      have hpasses := hmoves.passes_of_isStraight hcode.getElem? (hstraight l (by simp))
      have hcode' : h.HasCode u.pc (ls ++ ms) := by
        rw [hpasses.pc]
        exact HasCode.tail hcode
      rw [List.length_cons]
      rcases ih hwalk hcode' fun l hl => hstraight l (by simp [hl]) with ⟨hn, hpc⟩ | ⟨m, v, rfl, hdoes, hwalk⟩
      · exact .inl ⟨by omega, by rw [hpc, hpasses.pc]; omega⟩
      · exact .inr ⟨m, v, by omega, ⟨u, hpasses, hdoes⟩, hwalk⟩

/-- A function that returns does not move any more. -/
theorem Moves.ne_ret (hmoves : h.Moves fr answers s t) : h.lines[s.pc]? ≠ some (.insn .ret) := by
  intro hret
  cases hmoves with
  | passes hline hpasses =>
    cases hret.symm.trans hline
    cases hpasses.isStraight
  | jump hline _ => cases hret.symm.trans hline
  | taken hline _ _ _ => cases hret.symm.trans hline
  | passed hline _ _ => cases hret.symm.trans hline

end Host

/-- Instructions do the same as others wherever a condition holds, and ensure another condition. -/
structure Alike (h h' : Host) (fr : Frame) (answers : Answers) (P : State → Prop) (xs ys : List Insn)
    (Q : State → Prop) : Prop where
  straight : ∀ x ∈ xs, x.isStraight = true
  straight' : ∀ y ∈ ys, y.isStraight = true
  does : ∀ s t pc, P s → h.Does fr answers (xs.map .insn) s t →
    h'.Does fr answers (ys.map .insn) (s.moved pc) (t.moved (pc + ys.length)) ∧ Q t

namespace Alike

variable {h h' : Host} {fr : Frame} {answers : Answers} {P Q R : State → Prop} {xs ys xs' ys' : List Insn} {x : Insn}

theorem nil (himp : ∀ s, P s → Q s) : Alike h h' fr answers P [] [] Q where
  straight := by simp
  straight' := by simp
  does s t pc hP hdoes := by
    cases hdoes
    exact ⟨rfl, himp s hP⟩

theorem append (hfirst : Alike h h' fr answers P xs ys Q) (hrest : Alike h h' fr answers Q xs' ys' R) :
    Alike h h' fr answers P (xs ++ xs') (ys ++ ys') R where
  straight x hx := (List.mem_append.mp hx).elim (hfirst.straight x) (hrest.straight x)
  straight' y hy := (List.mem_append.mp hy).elim (hfirst.straight' y) (hrest.straight' y)
  does s t pc hP hdoes := by
    rw [List.map_append, Host.does_append] at hdoes
    obtain ⟨u, hxs, hxs'⟩ := hdoes
    obtain ⟨hys, hQ⟩ := hfirst.does s u pc hP hxs
    obtain ⟨hys', hR⟩ := hrest.does u t (pc + ys.length) hQ hxs'
    refine ⟨?_, hR⟩
    rw [List.map_append, Host.does_append, List.length_append, ← Nat.add_assoc]
    exact ⟨_, hys, hys'⟩

theorem imp {P' Q' : State → Prop} (halike : Alike h h' fr answers P xs ys Q) (hP : ∀ s, P' s → P s)
    (hQ : ∀ s, Q s → Q' s) : Alike h h' fr answers P' xs ys Q' where
  straight := halike.straight
  straight' := halike.straight'
  does s t pc hs hdoes := by
    obtain ⟨hys, ht⟩ := halike.does s t pc (hP s hs) hdoes
    exact ⟨hys, hQ t ht⟩

/-- Instructions do the same as themselves. -/
theorem same (hlike : h.Like h') (hxs : ∀ x ∈ xs, x.isStraight = true)
    (hQ : ∀ s t, P s → h.Does fr answers (xs.map .insn) s t → Q t) : Alike h h' fr answers P xs xs Q where
  straight := hxs
  straight' := hxs
  does s t pc hP hdoes := by
    have hmoved := hdoes.moved hlike pc
    rw [List.length_map] at hmoved
    exact ⟨hmoved, hQ s t hP hdoes⟩

end Alike

end TreeCompiler.Asm
