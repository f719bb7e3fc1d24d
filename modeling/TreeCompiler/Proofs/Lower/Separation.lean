import TreeCompiler.Proofs.Lower.Congruence
import TreeCompiler.Proofs.Lower.Program

/-!
A function is lowered in the same way in every program that declares what it calls alike, whatever
else the program holds and whatever was lowered before.
-/

namespace TreeCompiler.Lower

open Code
open TreeCompiler.Tree (Expr Literal Header nodesAll)

/-- Two contexts differ by the literals pooled so far only. -/
structure Context.Alike (c d : Context) : Prop where
  scopes : d.scopes = c.scopes
  code : d.code = c.code
  temps : d.temps = c.temps
  labels : d.labels = c.labels

/-- Two computations that both succeed in contexts alike give the same and leave contexts alike. -/
def LowerM.Agree {α : Type} (m m' : LowerM α) : Prop :=
  ∀ c d a b c' d', c.Alike d → m c = .ok (a, c') → m' d = .ok (b, d') → b = a ∧ c'.Alike d'

namespace LowerM.Agree

variable {α β : Type} {m m' : LowerM α}

theorem pure (a : α) : Agree (Pure.pure a) (Pure.pure a) := by
  intro c d b b' c' d' halike hb hb'
  obtain ⟨rfl, rfl⟩ := pure_eq_ok_iff.mp hb
  obtain ⟨rfl, rfl⟩ := pure_eq_ok_iff.mp hb'
  exact ⟨rfl, halike⟩

theorem bind {k k' : α → LowerM β} (hm : Agree m m') (hk : ∀ a, Agree (k a) (k' a)) :
    Agree (m >>= k) (m' >>= k') := by
  intro c d b b' c' d' halike hb hb'
  obtain ⟨a, c₁, ha, hb⟩ := bind_eq_ok_iff.mp hb
  obtain ⟨a', d₁, ha', hb'⟩ := bind_eq_ok_iff.mp hb'
  obtain ⟨rfl, halike⟩ := hm c d a a' c₁ d₁ halike ha ha'
  exact hk a' c₁ d₁ b b' c' d' halike hb hb'

theorem fail (cause : Cause) : Agree (LowerM.fail cause) m' := by
  intro c d a b c' d' _ ha _
  exact (fail_ne_ok c ha).elim

theorem of_fail (cause : Cause) : Agree m (LowerM.fail cause) := by
  intro c d a b c' d' _ _ hb
  exact (fail_ne_ok d hb).elim

theorem within {place place' : Place} (hm : Agree m m') :
    Agree (LowerM.within place m) (LowerM.within place' m') := by
  intro c d a b c' d' halike ha hb
  exact hm c d a b c' d' halike (within_eq_ok_iff.mp ha) (within_eq_ok_iff.mp hb)

theorem temp (ty : Code.Ty) : Agree (LowerM.temp ty) (LowerM.temp ty) := by
  intro c d a b c' d' halike ha hb
  obtain ⟨rfl, rfl⟩ := temp_eq_ok_iff.mp ha
  obtain ⟨rfl, rfl⟩ := temp_eq_ok_iff.mp hb
  rw [halike.temps]
  exact ⟨rfl, halike.scopes, halike.code, rfl, halike.labels⟩

theorem label : Agree LowerM.label LowerM.label := by
  intro c d a b c' d' halike ha hb
  obtain ⟨rfl, rfl⟩ := label_eq_ok_iff.mp ha
  obtain ⟨rfl, rfl⟩ := label_eq_ok_iff.mp hb
  rw [halike.labels]
  exact ⟨rfl, halike.scopes, halike.code, halike.temps, rfl⟩

theorem emit {op : Op} {dst src1 src2 : Option Operand} :
    Agree (LowerM.emit op dst src1 src2) (LowerM.emit op dst src1 src2) := by
  intro c d a b c' d' halike ha hb
  obtain rfl := emit_eq_ok_iff.mp ha
  obtain rfl := emit_eq_ok_iff.mp hb
  rw [halike.code]
  exact ⟨rfl, halike.scopes, rfl, halike.temps, halike.labels⟩

theorem pool (k : Const) : Agree (LowerM.pool k) (LowerM.pool k) := by
  intro c d a b c' d' halike ha hb
  obtain rfl := pool_eq_ok_iff.mp ha
  obtain rfl := pool_eq_ok_iff.mp hb
  exact ⟨rfl, halike.scopes, halike.code, halike.temps, halike.labels⟩

theorem enter : Agree LowerM.enter LowerM.enter := by
  intro c d a b c' d' halike ha hb
  obtain rfl := enter_eq_ok_iff.mp ha
  obtain rfl := enter_eq_ok_iff.mp hb
  rw [halike.scopes]
  exact ⟨rfl, rfl, halike.code, halike.temps, halike.labels⟩

theorem leave : Agree LowerM.leave LowerM.leave := by
  intro c d a b c' d' halike ha hb
  obtain ⟨scopes, hscopes, rfl⟩ := leave_eq_ok_iff.mp ha
  obtain ⟨scopes', hscopes', rfl⟩ := leave_eq_ok_iff.mp hb
  rw [halike.scopes, hscopes, Except.ok.injEq] at hscopes'
  exact ⟨rfl, hscopes'.symm, halike.code, halike.temps, halike.labels⟩

theorem declare (name : String) (ty : Code.Ty) : Agree (LowerM.declare name ty) (LowerM.declare name ty) := by
  intro c d a b c' d' halike ha hb
  obtain ⟨scopes, hscopes, rfl⟩ := declare_eq_ok_iff.mp ha
  obtain ⟨scopes', hscopes', rfl⟩ := declare_eq_ok_iff.mp hb
  rw [halike.scopes, hscopes, Except.ok.injEq, Prod.mk.injEq] at hscopes'
  exact ⟨hscopes'.1.symm, hscopes'.2.symm, halike.code, halike.temps, halike.labels⟩

theorem lookup (name : String) : Agree (LowerM.lookup name) (LowerM.lookup name) := by
  intro c d a b c' d' halike ha hb
  obtain ⟨hsymbol, rfl⟩ := lookup_eq_ok_iff.mp ha
  obtain ⟨hsymbol', rfl⟩ := lookup_eq_ok_iff.mp hb
  rw [halike.scopes, hsymbol, Except.ok.injEq] at hsymbol'
  exact ⟨hsymbol'.symm, halike⟩

/-- The code so far is the same. -/
theorem get {k k' : Context → LowerM β} (hk : ∀ c d, d.code = c.code → Agree (k c) (k' d)) :
    Agree (MonadState.get >>= k) (MonadState.get >>= k') := by
  intro c d a b c' d' halike ha hb
  obtain ⟨_, _, hget, ha⟩ := bind_eq_ok_iff.mp ha
  obtain ⟨_, _, hget', hb⟩ := bind_eq_ok_iff.mp hb
  obtain ⟨rfl, rfl⟩ := get_eq_ok_iff.mp hget
  obtain ⟨rfl, rfl⟩ := get_eq_ok_iff.mp hget'
  exact hk c d halike.code c d a b c' d' halike ha hb

end LowerM.Agree

open LowerM (Agree)

/-- Two declarations look the same to callers. -/
def SameKind (h h' : Header) : Prop :=
  h'.params.length = h.params.length ∧ h'.ret = h.ret

/-- The functions that some nodes call look the same under both signatures, where both have one. -/
def Signatures.AgreeOn (sigs sigs' : Signatures) (nodes : List Expr) : Prop :=
  ∀ name args h h', .call name args ∈ nodes → sigs.lookup name = some h → sigs'.lookup name = some h' →
    SameKind h h'

section Lowering

variable {sigs sigs' : Signatures}

/-- Agreement is kept by all steps of lowering. -/
theorem LowerM.Agree.congruence : LowerM.Congruence id @Agree where
  pure := .pure
  bind := .bind
  within hm := .within hm
  fail _ _ := .fail _
  temp := .temp
  label := .label
  pool := .pool
  enter := .enter
  leave := .leave
  emit _ := .emit
  load name := .bind (.lookup name) fun s => .bind (.temp s.ty) fun t => .bind .emit fun _ => .pure t
  store name _ := .bind (.lookup name) fun _ => .emit
  define name ty _ := .bind (.declare name ty) fun _ => .emit

/-- An expression is lowered in the same way wherever what it calls is declared alike. -/
theorem lowerExpr_agree {e : Expr} (hsigs : sigs.AgreeOn sigs' e.nodes) :
    Agree (lowerExpr sigs e) (lowerExpr sigs' e) := by
  have hfollowed : Followed @Agree sigs sigs' e.WellFormed e.nodes := by
    refine ⟨.inl fun _ _ => .fail _, fun name args h hcall hheader => ?_⟩
    split
    · next h' hheader' => exact hsigs name args h h' hcall hheader hheader'
    · exact fun _ => .of_fail _
  have hrelated := lowerExpr_related LowerM.Agree.congruence e hfollowed
  rwa [Expr.rename_id] at hrelated

theorem lowerParams_agree (ps : List Tree.Param) : Agree (lowerParams ps) (lowerParams ps) := by
  induction ps with
  | nil => exact .pure _
  | cons p ps ih => exact .bind (.within (.declare _ _)) fun storage => .bind ih fun rest => .pure _

theorem lowerFunc_agree {h : Header} {body : Expr} (hsigs : sigs.AgreeOn sigs' body.nodes) :
    Agree (lowerFunc sigs h body) (lowerFunc sigs' h body) := by
  have hclose : ∀ (params : List Code.Param) (code : List Instr), Agree
      (do
        LowerM.within .paramsScope LowerM.leave
        return { name := h.name, params, code, ret := lowerTy h.ret, isPublic := h.isPublic,
                 isExternal := h.isExternal : Code.Func })
      (do
        LowerM.within .paramsScope LowerM.leave
        return { name := h.name, params, code, ret := lowerTy h.ret, isPublic := h.isPublic,
                 isExternal := h.isExternal : Code.Func }) :=
    fun params code => .bind (.within .leave) fun _ => .pure _
  unfold lowerFunc
  refine .bind .enter fun _ => .bind (lowerParams_agree h.params) fun params => ?_
  dsimp only
  split
  · exact .bind (.pure _) fun _ => hclose params _
  · split
    · exact .bind (.fail _) fun _ => hclose params _
    · refine .bind (lowerExpr_agree hsigs).within fun result => .bind .emit fun _ => ?_
      refine .get fun c d hcode => ?_
      rw [hcode]
      exact .bind (.pure _) fun code => hclose params code

end Lowering

theorem Lowers.eq_of_agree {sigs sigs' : Signatures} {h : Header} {body : Expr} {f f' : Code.Func}
    (hlowers : Lowers sigs h body f) (hlowers' : Lowers sigs' h body f')
    (hsigs : sigs.AgreeOn sigs' body.nodes) : f' = f ∧ f'.name = h.name := by
  have hname := hlowers'.shaped.1
  obtain ⟨pool, c, hrun⟩ := hlowers
  obtain ⟨pool', c', hrun'⟩ := hlowers'
  have halike : Context.Alike { pool } { pool := pool' } := ⟨rfl, rfl, rfl, rfl⟩
  exact ⟨(lowerFunc_agree hsigs _ _ f f' c c' halike hrun hrun').1, hname⟩

/-- The functions of a lowered program are found by their names. -/
theorem lowerProgram_func? {prog : Tree.Program} {p : Code.Program} (hlower : lowerProgram prog = .ok p)
    {f : Code.Func} (hf : f ∈ p.funcs) : p.func? f.name = some f := by
  obtain ⟨sigs, hcollect, hlowers⟩ := lowerProgram_funcs hlower
  refine Code.Program.func?_of_mem ?_ hf
  rw [names_of_lowers hlowers]
  exact collect_nodup hcollect

/-- A session lowers a program as a fresh one does. -/
theorem Session.compile_eq (s : Session) (prog : Tree.Program) : (s.compile prog).1 = lowerProgram prog := rfl

/-- What a declaration is lowered to depends on the declaration and on how the functions that it
    calls are declared, and on nothing else: neither on the other items of the program nor on what the
    session was used for before. -/
theorem compile_separately {s₁ s₂ : Session} {prog₁ prog₂ : Tree.Program} {p₁ p₂ : Code.Program}
    (hcompile₁ : (s₁.compile prog₁).1 = .ok p₁) (hcompile₂ : (s₂.compile prog₂).1 = .ok p₂) {h : Header}
    {body : Expr} (hmem₁ : .func h body ∈ prog₁.body) (hmem₂ : .func h body ∈ prog₂.body)
    (hcalls : ∀ name args, .call name args ∈ body.nodes →
      ∀ h₁ body₁ h₂ body₂, .func h₁ body₁ ∈ prog₁.body →
      .func h₂ body₂ ∈ prog₂.body → h₁.name = name → h₂.name = name → SameKind h₁ h₂) :
    ∃ f, p₁.func? h.name = some f ∧ p₂.func? h.name = some f := by
  rw [Session.compile_eq] at hcompile₁ hcompile₂
  obtain ⟨sigs₁, _, hsigs₁, _, hto₁⟩ := lowerProgram_ok hcompile₁
  obtain ⟨sigs₂, _, hsigs₂, _, hto₂⟩ := lowerProgram_ok hcompile₂
  obtain ⟨f, hf, hlowers₁⟩ := hto₁ h body (mem_funcItems.mpr hmem₁)
  obtain ⟨f', hf', hlowers₂⟩ := hto₂ h body (mem_funcItems.mpr hmem₂)
  have hagree : sigs₁.AgreeOn sigs₂ body.nodes := by
    intro name args h₁ h₂ hcall hlookup₁ hlookup₂
    obtain ⟨hname₁, body₁, hitem₁⟩ := hsigs₁ name h₁ hlookup₁
    obtain ⟨hname₂, body₂, hitem₂⟩ := hsigs₂ name h₂ hlookup₂
    exact hcalls name args hcall h₁ body₁ h₂ body₂ (mem_funcItems.mp hitem₁)
      (mem_funcItems.mp hitem₂) hname₁ hname₂
  obtain ⟨rfl, hname⟩ := hlowers₁.eq_of_agree hlowers₂ hagree
  rw [← hname]
  exact ⟨f', lowerProgram_func? hcompile₁ hf, lowerProgram_func? hcompile₂ hf'⟩

/-- A function that calls another one. -/
def twice : Expr :=
  .func ⟨"twice", [⟨"n", .number⟩], .number, true, false⟩
    (.binary "+" (.call "step" [.var "n"]) (.call "step" [.literal (.number 7)]))

/-- It stands before a function that returns its argument. -/
def twiceFirst : Tree.Program where
  body := [twice, .func ⟨"step", [⟨"n", .number⟩], .number, false, false⟩ (.var "n")]

/-- It stands behind literals and other functions, and what it calls is external. -/
def twiceLast : Tree.Program where
  body := [.literal (.str []), .func ⟨"other", [], .void, false, false⟩ (.literal (.number 9)),
    .func ⟨"step", [⟨"m", .bool⟩], .number, false, true⟩ .missing, twice]

/-- A program that is given up in the middle of its second function. -/
def givenUp : Tree.Program where
  body := [.func ⟨"twice", [], .bool, false, false⟩ (.literal (.number 1)),
    .func ⟨"step", [⟨"n", .number⟩], .number, false, false⟩
      (.block [.define "k" .number (.var "n"), .var "gone"])]

/-- A fresh session and one that has given up a program lower the function alike. -/
theorem twice_lowered : ∃ p₁ p₂ f, (Session.compile {} givenUp).1.toOption = none ∧
    (Session.compile {} twiceFirst).1 = .ok p₁ ∧ ((Session.compile {} givenUp).2.compile twiceLast).1 = .ok p₂ ∧
      p₁.func? "twice" = some f ∧ p₂.func? "twice" = some f := by
  have hgiven : (Session.compile {} givenUp).1.toOption = none := by decide +kernel
  obtain ⟨p₁, hp₁⟩ : ∃ p, (Session.compile {} twiceFirst).1.toOption = some p :=
    Option.isSome_iff_exists.mp (by decide +kernel)
  obtain ⟨p₂, hp₂⟩ : ∃ p, ((Session.compile {} givenUp).2.compile twiceLast).1.toOption = some p :=
    Option.isSome_iff_exists.mp (by decide +kernel)
  have hcompile₁ := eq_ok_of_toOption hp₁
  have hcompile₂ := eq_ok_of_toOption hp₂
  have hmem₁ : twice ∈ twiceFirst.body := by simp [twiceFirst]
  have hmem₂ : twice ∈ twiceLast.body := by simp [twiceLast]
  have hcalls : ∀ name args,
      .call name args ∈ (Expr.binary "+" (.call "step" [.var "n"]) (.call "step" [.literal (.number 7)])).nodes →
        ∀ h₁ body₁ h₂ body₂, .func h₁ body₁ ∈ twiceFirst.body →
          .func h₂ body₂ ∈ twiceLast.body →
          h₁.name = name → h₂.name = name → SameKind h₁ h₂ := by
    intro name args hcall h₁ body₁ h₂ body₂ hitem₁ hitem₂ hname₁ hname₂
    have hstep : name = "step" := by
      simp only [Expr.nodes, nodesAll, List.mem_cons, List.mem_append, Expr.call.injEq, reduceCtorEq] at hcall
      grind
    simp only [twiceFirst, twiceLast, twice, List.mem_cons, Expr.func.injEq, reduceCtorEq, List.not_mem_nil,
      or_false, false_or] at hitem₁ hitem₂
    unfold SameKind
    grind
  obtain ⟨f, hf₁, hf₂⟩ := compile_separately hcompile₁ hcompile₂ hmem₁ hmem₂ hcalls
  exact ⟨p₁, p₂, f, hgiven, hcompile₁, hcompile₂, hf₁, hf₂⟩

end TreeCompiler.Lower
