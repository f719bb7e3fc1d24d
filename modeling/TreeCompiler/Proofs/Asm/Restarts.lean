import TreeCompiler.Proofs.Asm.Refinement
import TreeCompiler.Proofs.Code.Doubling
import TreeCompiler.Proofs.Code.Freeing
import TreeCompiler.Proofs.Code.Must

namespace TreeCompiler.Asm

open Code

/-- In a doubled program no call becomes a new start. -/
theorem restarts_doubled {p : Code.Program} (hp : p.WellFormed) {g : Func} (hg : g ∈ p.doubled.funcs)
    (i : Nat) : restarts g i = false := by
  obtain ⟨f, hf, hcopy⟩ := Code.Program.mem_doubled.mp hg
  obtain ⟨own, other, rfl, hne, hown⟩ : ∃ own other, g = f.copy own other ∧ other ≠ own ∧
      (own = f.name ∨ own = p.second f.name) := by
    rcases hcopy with rfl | ⟨_, rfl⟩
    · exact ⟨_, _, rfl, Code.Program.second_ne hf, .inl rfl⟩
    · exact ⟨_, _, rfl, (Code.Program.second_ne hf).symm, .inr rfl⟩
  rw [← Bool.not_eq_true]
  intro hrestarts
  unfold restarts at hrestarts
  split at hrestarts
  · next x _ _ hx =>
    simp only [Bool.decide_and, Bool.and_eq_true, decide_eq_true_eq] at hrestarts
    obtain ⟨hop, hself⟩ := hrestarts
    have hself := (Site.restarts_iff.mp hself).1
    obtain ⟨y, hy, rfl⟩ := List.mem_map.mp (List.mem_of_getElem? hx)
    rw [Instr.redirect_op] at hop
    have hinternal : f.isExternal = false := by
      rw [← Bool.not_eq_true]
      intro hexternal
      rw [hp.external f hf hexternal] at hy
      cases hy
    obtain ⟨callee, n, hcallee, harity⟩ :=
      (hp.shaped f hf hinternal).fragment.args.exists_arity hy hop
    rw [Instr.redirect_callee hop hcallee, Option.some.injEq, Operand.func.injEq] at hself
    obtain ⟨f', hf', _⟩ := Option.map_eq_some_iff.mp harity
    obtain ⟨hmem, rfl⟩ := Code.Program.mem_of_func? hf'
    split at hself
    · exact hne hself
    · next hother =>
      rcases hown with rfl | rfl
      · exact hother hself
      · exact Code.Program.second_ne hmem hself.symm
  · cases hrestarts

/-- Starting a function again instead of calling it is not seen where no array of an earlier round
    is used any more and nothing depends on where arrays are. -/
theorem outcome_of_restarts {prog : Tree.Program} {p : Code.Program} (hbuild : buildCode prog = .ok p)
    {options : Options} {h h' : Host} (htext : genProgram options p = .ok h.lines)
    (htext' : genProgram options p.doubled = .ok h'.lines) {address : Bytes → Word}
    (hplaces : h.Places address (StringTable.ofProgram p))
    (hplaces' : h'.Places address (StringTable.ofProgram p.doubled)) {f : Func} (hf : f ∈ p.funcs)
    (hinternal : f.isExternal = false) {args : List Word} {s s' : State} (hcalls : h.Calls f args s)
    (hcalls' : h'.Calls f args s') {n n' : Nat} {o o' seen : Outcome} (hstops : h.outcome? n s = some o)
    (hstops' : h'.outcome? n' s' = some o')
    (hsafe : ∀ end', p.CanEndFreeing address restarts f args end' → end' = seen) (hseen : seen ≠ .stuck) :
    o = seen ∧ o' = seen := by
  have hp := buildCode_wellFormed hbuild
  constructor
  · let im : Image :=
      { host := h, options, program := p, address, frees := restarts, wellFormed := hp, text := htext
        places := hplaces, restarts_of_frees := fun _ _ _ hfrees => hfrees
        frees_of_restarts := fun _ _ _ hrestarts _ => hrestarts }
    obtain ⟨junk, heap, hends | ⟨_, hstuck⟩⟩ := im.run_of_stopped hf hinternal hcalls hstops
    · exact hsafe o ⟨junk, heap, hends⟩
    · exact (hseen (hsafe .stuck ⟨junk, heap, hstuck⟩).symm).elim
  · let im : Image :=
      { host := h', options, program := p.doubled, address, frees := fun _ _ => false
        wellFormed := hp.doubled, text := htext', places := hplaces'
        restarts_of_frees := fun _ _ _ hfrees => by cases hfrees
        frees_of_restarts := fun g hg i hrestarts _ => by
          rw [restarts_doubled hp hg i] at hrestarts
          cases hrestarts }
    have hordinary : ∀ o, p.doubled.CanEnd address (f.copy f.name (p.second f.name)) args o → o = seen := by
      intro o hends
      rcases (hends.of_doubled hp hf hinternal).freeing restarts with hends | hstuck
      · exact hsafe o hends
      · exact (hseen (hsafe .stuck hstuck).symm).elim
    have hcalls'' : h'.Calls (f.copy f.name (p.second f.name)) args s' :=
      ⟨hcalls'.length, hcalls'.symbol, hcalls'.passed, hcalls'.outside⟩
    obtain ⟨junk, heap, hends | ⟨_, hstuck⟩⟩ := im.run_of_stopped
      (Code.Program.mem_doubled.mpr ⟨f, hf, .inl rfl⟩) hinternal hcalls'' hstops'
    · exact hordinary o' ⟨junk, heap, hends⟩
    · exact (hseen (hordinary .stuck ⟨junk, heap, hstuck⟩).symm).elim

/-- A function that calls itself with an array of its own, which only the result may use. -/
def roundsTree (result : Tree.Expr) : Tree.Program where
  body := [.func ⟨"rounds", [⟨"n", .number⟩, ⟨"a", .array⟩], .number, true, false⟩
    (.cond (.var "n")
      (.ret (.call "rounds" [.binary "-" (.var "n") (.literal (.number 1)), .array [.var "n"]]))
      (.ret result))]

/-- The result uses an array of the last round. -/
def ownElem : Tree.Expr :=
  .index (.array [.var "n"]) (.literal (.number 0))

/-- The result also uses the array that was handed on to the last round. -/
def handedElem : Tree.Expr :=
  .binary "+" ownElem (.index (.var "a") (.literal (.number 0)))

namespace Rounds

def number (k : Int) : Operand :=
  .temp ⟨k, .number⟩

def array (k : Int) : Operand :=
  .temp ⟨k, .array⟩

def void (k : Int) : Operand :=
  .temp ⟨k, .void⟩

def literal (v : Int64) : Operand :=
  .const (.int v)

/-- The code of the rounds, with the code of the result behind it. -/
def func (result : List Instr) : Func where
  name := "rounds"
  params := [⟨some (.var "n"), .number⟩, ⟨some (.var "a"), .array⟩]
  ret := .number
  isPublic := true
  isExternal := false
  code := [⟨.load, some (number 0), some (.var "n"), none⟩,
    ⟨.jumpIfFalse, some (.label "L0"), some (number 0), none⟩,
    ⟨.load, some (number 1), some (.var "n"), none⟩,
    ⟨.move, some (number 2), some (literal 1), none⟩,
    ⟨.binary .sub, some (number 3), some (number 1), some (number 2)⟩,
    ⟨.load, some (number 4), some (.var "n"), none⟩,
    ⟨.arg, none, some (number 4), some (literal 0)⟩,
    ⟨.array, some (array 5), some (literal 1), none⟩,
    ⟨.arg, none, some (number 3), some (literal 0)⟩,
    ⟨.arg, none, some (array 5), some (literal 1)⟩,
    ⟨.call, some (number 6), some (.func "rounds"), some (literal 2)⟩,
    ⟨.ret, none, some (number 6), none⟩,
    ⟨.move, some (void 8), some (void 7), none⟩,
    ⟨.jump, some (.label "L1"), none, none⟩,
    ⟨.label, some (.label "L0"), none, none⟩,
    ⟨.load, some (number 9), some (.var "n"), none⟩,
    ⟨.arg, none, some (number 9), some (literal 0)⟩,
    ⟨.array, some (array 10), some (literal 1), none⟩,
    ⟨.move, some (number 11), some (literal 0), none⟩,
    ⟨.index, some (number 12), some (array 10), some (number 11)⟩] ++ result

/-- Code that returns a number and, never reached, the value of the condition. -/
def leave (t : Int) : List Instr :=
  [⟨.ret, none, some (number t), none⟩, ⟨.move, some (void 8), some (void (t + 1)), none⟩,
    ⟨.label, some (.label "L1"), none, none⟩, ⟨.ret, none, some (void 8), none⟩]

def own : Func :=
  func (leave 12)

def handed : Func :=
  func ([⟨.load, some (array 13), some (.var "a"), none⟩,
    ⟨.move, some (number 14), some (literal 0), none⟩,
    ⟨.index, some (number 15), some (array 13), some (number 14)⟩,
    ⟨.binary .add, some (number 16), some (number 12), some (number 15)⟩] ++ leave 16)

variable {address : Bytes → Word} {frees : Func → Nat → Bool} {p : Code.Program} {result : List Instr}
  {heap : Heap} {junk : Store} {w : Word}

open Code.Activation

/-- A round that is not the last one hands its array on, and gives it up if the call does so. -/
theorem must_of_one {Q : Outcome → Prop} (hfunc : p.func? "rounds" = some (func result))
    (hroom : ∃ base, heap base = none)
    (hlast : ∀ base junk heap', heap base = none →
      (frees (func result) 10 = true → heap' = (heap.build base [1]).free [base]) →
        (frees (func result) 10 = false → heap' = heap.build base [1]) →
          Must address frees p (func result) ((func result).start [0, base] junk heap') (fun _ => False)
            fun o _ => Q o) :
    Must address frees p (func result) ((func result).start [1, w] junk heap) (fun _ => False) fun o _ => Q o := by
  refine .goto (Does.next? rfl .load) ?_
  refine .goto (Does.next? rfl (.passed (by decide : (1 : Word) ≠ 0))) ?_
  have hminus : Code.BinaryOp.sub.eval (1 : Word) 1 = some 0 := by decide
  refine .goto (Does.next? rfl .load) (.goto (Does.next? rfl .move) (.goto (Does.next? rfl (.binary hminus)) ?_))
  refine .goto (Does.next? rfl .load) (.goto (Does.next? rfl (.arg rfl)) ?_)
  refine .build (Does.next? rfl (.array rfl)) hroom fun base hfresh => ?_
  refine .goto (Does.next? rfl (.arg rfl)) (.goto (Does.next? rfl (.arg rfl)) ?_)
  exact .tailCall (Does.next? rfl (.call rfl)) hfunc rfl rfl rfl fun junk => hlast base junk _ hfresh
    (congrArg fun b => (release _ b).heap) (congrArg fun b => (release _ b).heap)

/-- The last round builds an array of its own. -/
theorem must_of_zero {Q : Outcome → Heap → Prop} (hroom : ∃ base, heap base = none)
    (hresult : ∀ a base, heap base = none → a.index = 20 → a.args = [] → a.heap = heap.build base [0] →
      a.store (number 12) = 0 → a.store (.var "a") = w →
        Must address frees p (func result) a (fun _ => False) Q) :
    Must address frees p (func result) ((func result).start [0, w] junk heap) (fun _ => False) Q := by
  refine .goto (Does.next? rfl .load) ?_
  refine .goto (Does.next? rfl (.taken (i := 14) rfl rfl)) (.goto (Does.next? rfl .label) ?_)
  refine .goto (Does.next? rfl .load) (.goto (Does.next? rfl (.arg rfl)) ?_)
  refine .build (Does.next? rfl (.array rfl)) hroom fun base hfresh => .goto (Does.next? rfl .move) ?_
  refine .goto (Does.next? rfl (.index (v := 0) ?_)) (hresult _ base hfresh rfl rfl rfl rfl rfl)
  show (heap.build base [0]).get? base 0 = some 0
  simp [Heap.get?, Heap.build]

/-- Where one array was built and perhaps given up, there is room for another one. -/
theorem room_of_build {base : Word} {elems : List Word} {heap' : Heap} {b : Bool}
    (hfreed : b = true → heap' = (Heap.empty.build base elems).free [base])
    (hkept : b = false → heap' = Heap.empty.build base elems) : ∃ base', heap' base' = none := by
  cases b with
  | true => exact ⟨base, by simp [hfreed rfl, Heap.free]⟩
  | false => exact ⟨base + 1, by simp [hkept rfl, Heap.build, Heap.empty]⟩

theorem must_own (hfunc : p.func? "rounds" = some own) :
    Must address frees p own (own.start [1, w] junk .empty) (fun _ => False) fun o _ => o = .returned 0 := by
  refine must_of_one hfunc ⟨0, rfl⟩ fun base junk heap' _ hfreed hkept => ?_
  refine must_of_zero (room_of_build hfreed hkept) fun a base' _ hindex _ _ hvalue _ => ?_
  refine .ret (Does.next? (by rw [hindex]; rfl) .ret) fun v hv => ?_
  rw [hv _ rfl]
  exact congrArg _ hvalue

theorem must_handed (hfunc : p.func? "rounds" = some handed) (hkeeps : frees handed 10 = false) :
    Must address frees p handed (handed.start [1, w] junk .empty) (fun _ => False)
      fun o _ => o = .returned 1 := by
  refine must_of_one hfunc ⟨0, rfl⟩ fun base junk heap' _ hfreed hkept => ?_
  refine must_of_zero (room_of_build hfreed hkept) fun a base' hfresh hindex hargs hheap hvalue harray => ?_
  -- The array handed on is still there, and the new one has another address.
  rw [hkept hkeeps] at hfresh hheap
  have hne : base ≠ base' := by
    rintro rfl
    simp [Heap.build] at hfresh
  have hget : a.heap.get? (a.store (.var "a")) 0 = some 1 := by
    simp [hheap, harray, Heap.get?, Heap.build, hne]
  have hadd : Code.BinaryOp.add.eval (a.store (number 12)) 1 = some 1 := by
    rw [hvalue]
    decide
  obtain ⟨index, store, args, heap, arrays⟩ := a
  subst hindex
  refine .goto (Does.next? rfl .load) (.goto (Does.next? rfl .move) (.goto (Does.next? rfl (.index hget)) ?_))
  refine .goto (Does.next? rfl (.binary hadd)) (.ret (Does.next? rfl .ret) fun v hv => ?_)
  rw [hv _ rfl]
  rfl

end Rounds

/-- The code of the rounds whose result uses an array of the last round only. -/
def ownCode : Code.Program :=
  ⟨[.int 1, .int 0], [Rounds.own]⟩

/-- The code of the rounds whose result uses the array that was handed on. -/
def handedCode : Code.Program :=
  ⟨[.int 1, .int 0, .int 0], [Rounds.handed]⟩

/-- The text of a program, in which the calls of functions by themselves may be ordinary. -/
def linesOf (p : Code.Program) (ordinary : Bool) : List Line :=
  (genProgram {} (if ordinary then p.doubled else p)).toOption.getD []

theorem length_linesOf : ∀ ordinary,
    (linesOf ownCode ordinary).length < 2 ^ 50 ∧ (linesOf handedCode ordinary).length < 2 ^ 50 := by
  decide +kernel

def ownHost (ordinary : Bool) : Host :=
  .flat (linesOf ownCode ordinary) (length_linesOf ordinary).1

def handedHost (ordinary : Bool) : Host :=
  .flat (linesOf handedCode ordinary) (length_linesOf ordinary).2

theorem outcome_ownHost : ∃ o o', (ownHost false).outcome? 120 (.calling 5 [1, 0]) = some o ∧
    (ownHost true).outcome? 120 (.calling 5 [1, 0]) = some o' ∧ o = .returned 0 ∧ o' = .returned 0 := by
  have hbuild : buildCode (roundsTree ownElem) = .ok ownCode := eq_ok_of_toOption (by decide +kernel)
  have htext : genProgram {} ownCode = .ok (ownHost false).lines := eq_ok_of_isSome (by decide +kernel)
  have htext' : genProgram {} ownCode.doubled = .ok (ownHost true).lines := eq_ok_of_isSome (by decide +kernel)
  have hplaces : (ownHost false).Places (fun _ => 0) (StringTable.ofProgram ownCode) := by
    have hstrings : (StringTable.ofProgram ownCode).strings = #[] := by decide +kernel
    intro t ht
    simp [hstrings] at ht
  have hplaces' : (ownHost true).Places (fun _ => 0) (StringTable.ofProgram ownCode.doubled) := by
    have hstrings : (StringTable.ofProgram ownCode.doubled).strings = #[] := by decide +kernel
    intro t ht
    simp [hstrings] at ht
  have hcalls : (ownHost false).Calls Rounds.own [1, 0] (.calling 5 [1, 0]) :=
    Host.calls_flat rfl (by decide) (by decide +kernel)
  have hcalls' : (ownHost true).Calls Rounds.own [1, 0] (.calling 5 [1, 0]) :=
    Host.calls_flat rfl (by decide) (by decide +kernel)
  obtain ⟨o, hstops⟩ : ∃ o, (ownHost false).outcome? 120 (.calling 5 [1, 0]) = some o :=
    Option.isSome_iff_exists.mp (by decide +kernel)
  obtain ⟨o', hstops'⟩ : ∃ o, (ownHost true).outcome? 120 (.calling 5 [1, 0]) = some o :=
    Option.isSome_iff_exists.mp (by decide +kernel)
  refine ⟨o, o', hstops, hstops', ?_⟩
  refine outcome_of_restarts hbuild htext htext' hplaces hplaces' (by simp [ownCode]) rfl hcalls hcalls' hstops hstops'
    ?_ (by decide)
  rintro end' ⟨junk, heap, hend⟩
  exact (Rounds.must_own rfl).run.2 end' heap hend

/-- The array that was handed on is overwritten if the call becomes a new start. -/
theorem outcome_handedHost :
    buildCode (roundsTree handedElem) = .ok handedCode ∧
      genProgram {} handedCode = .ok (handedHost false).lines ∧
        genProgram {} handedCode.doubled = .ok (handedHost true).lines ∧
          handedCode.func? "rounds" = some Rounds.handed ∧
            (∀ address o, handedCode.CanEnd address Rounds.handed [1, 0] o → o = .returned 1) ∧
              (handedHost false).Calls Rounds.handed [1, 0] (.calling 5 [1, 0]) ∧
                (handedHost true).Calls Rounds.handed [1, 0] (.calling 5 [1, 0]) ∧
                  (handedHost false).outcome? 150 (.calling 5 [1, 0]) = some (.returned 0) ∧
                    (handedHost true).outcome? 150 (.calling 5 [1, 0]) = some (.returned 1) := by
  refine ⟨eq_ok_of_toOption (by decide +kernel), eq_ok_of_isSome (by decide +kernel),
    eq_ok_of_isSome (by decide +kernel), rfl, ?_, Host.calls_flat rfl (by decide) (by decide +kernel),
    Host.calls_flat rfl (by decide) (by decide +kernel), by decide +kernel, by decide +kernel⟩
  rintro address o ⟨junk, heap, hend⟩
  exact (Rounds.must_handed rfl rfl).run.2 o heap hend

end TreeCompiler.Asm
