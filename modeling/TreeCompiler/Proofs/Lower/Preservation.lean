import TreeCompiler.Proofs.Lower.Program
import TreeCompiler.Proofs.Lower.Simulation

namespace TreeCompiler.Lower

open Code
open ScopeTable (namesOf)
open TreeCompiler.Tree (Expr Header Env eval)

/-- Parameters are declared one after another, and nothing else changes. -/
theorem lowerParams_grows {ps : List Tree.Param} {qs : List Code.Param} {c c' : Context}
    (hlower : lowerParams ps c = .ok (qs, c')) :
    ∃ added, c.scopes.Grows c'.scopes added ∧ added.reverse.map Symbol.name = ps.map (·.name) ∧
      qs.map (·.operand) = added.reverse.map (fun s => some (.var s.storage)) ∧
        c' = { c with scopes := c'.scopes } := by
  induction ps generalizing c qs with
  | nil =>
    obtain ⟨rfl, rfl⟩ := LowerM.pure_eq_ok_iff.mp hlower
    exact ⟨[], .refl _, rfl, rfl, rfl⟩
  | cons p ps ih =>
    obtain ⟨storage, scopes, rest, hdeclare, hrest, rfl⟩ := lowerParams_cons_ok hlower
    obtain ⟨added, hgrows, hnames, hoperands, hkept⟩ := ih hrest
    refine ⟨added ++ [⟨p.name, storage, lowerTy p.ty⟩], .trans (.declare hdeclare) hgrows, ?_, ?_, hkept⟩
    · rw [List.reverse_append, List.map_append, hnames]
      rfl
    · rw [List.reverse_append, List.map_append, List.map_cons, hoperands]
      rfl

/-- Parameters hold their arguments. -/
theorem bindArgs_of_lookup (junk : Store) : ∀ {qs : List Code.Param} {symbols : List Symbol} {ws : List Word}
    {s : Symbol} {w : Word}, qs.map (·.operand) = symbols.map (fun s => some (.var s.storage)) →
      (symbols.map Symbol.storage).Nodup → (symbols.map Symbol.name).Nodup → s ∈ symbols →
        ((symbols.map Symbol.name).zip ws).lookup s.name = some w →
          Code.bindArgs junk qs ws (.var s.storage) = w
  | _, [], _, _, _, _, _, _, hs, _ => by cases hs
  | _, _ :: _, [], _, _, _, _, _, _, hlookup => by simp at hlookup
  | [], _ :: _, _ :: _, _, _, hqs, _, _, _, _ => by cases hqs
  | q :: qs, s' :: symbols, w' :: ws, s, w, hqs, hstorages, hnames, hs, hlookup => by
    rw [List.map_cons, List.map_cons, List.cons.injEq] at hqs
    obtain ⟨hq, hqs⟩ := hqs
    rw [List.map_cons, List.nodup_cons] at hstorages hnames
    rw [List.map_cons, List.zip_cons_cons, List.lookup_cons] at hlookup
    rw [Code.bindArgs, hq, Store.put?]
    rcases List.mem_cons.mp hs with rfl | hs
    · rw [Store.put_same]
      simpa using hlookup
    · have hname : s.name ≠ s'.name := fun heq => hnames.1 (heq ▸ List.mem_map_of_mem hs)
      have hstorage : s.storage ≠ s'.storage := fun heq => hstorages.1 (heq ▸ List.mem_map_of_mem hs)
      rw [beq_eq_false_iff_ne.mpr hname] at hlookup
      rw [Store.put_ne _ _ (by simpa using hstorage)]
      exact bindArgs_of_lookup junk hqs hstorages.2 hnames.2 hs hlookup

variable {address : Bytes → Word} {frees : Func → Nat → Bool} {prog : Tree.Program} {p : Code.Program} {n : Nat}

variable {h : Header} {body : Expr}

/-- Where the body of a function is lowered: its only scope has the parameters and what the body
    declares in the same scope, and each parameter holds its argument when the code starts. -/
theorem exists_setting {sigs : Signatures} {f : Func} {pool : Array Code.Const}
    {c₁ c₂ : Context} {result : Code.Temp}
    (hparams : lowerParams h.params { pool, scopes := ScopeTable.enter {} } = .ok (f.params, c₁))
    (hbody : lowerExpr sigs body c₁ = .ok (result, c₂)) (hcode : c₂.code.toList <+: f.code) :
    ∃ full, Setting f full c₁ c₂ ∧ c₁.scopes.names = [(h.params.map (·.name)).reverse] ∧
      namesOf full = [body.declared ++ (h.params.map (·.name)).reverse] ∧
        ∀ args junk heap, Stands full c₁ [fun x => ((h.params.map (·.name)).zip args).lookup x]
          (f.start args junk heap) := by
  obtain ⟨added, hdeclared, hnames, hoperands, hkept⟩ := lowerParams_grows hparams
  obtain ⟨added', hadded', hscopes⟩ := (lowered_of_lowerExpr body hbody).expr_grows.1.scopes
  have hall := hdeclared.trans hscopes
  have htidy : (ScopeTable.enter {}).Tidy := ⟨by simp [ScopeTable.enter], by simp [ScopeTable.enter]⟩
  have hfirst : c₁.scopes.scopes = [added] := by simp [hdeclared.scopes, ScopeTable.enter, ScopeTable.extend]
  have hfull : c₂.scopes.scopes = [added' ++ added] := by rw [hscopes.scopes, hfirst]; rfl
  have hempty : c₁.code = #[] := by rw [hkept]
  have hdistinct : ((added' ++ added).map Symbol.name).Nodup := (hall.tidy htidy).names _ (by simp [hfull])
  rw [List.map_append, List.nodup_append] at hdistinct
  obtain ⟨_, hdistinct, hother⟩ := hdistinct
  have hparams : added.map Symbol.name = (h.params.map (·.name)).reverse := by
    rw [← hnames, List.map_reverse, List.reverse_reverse]
  have hown : ∀ (args : List Word) x, (((h.params.map (·.name)).zip args).lookup x).isSome = true →
      x ∈ (added' ++ added).map Symbol.name := by
    intro args x hx
    obtain ⟨w, hw⟩ := Option.isSome_iff_exists.mp hx
    rw [List.map_append, hparams, List.mem_append, List.mem_reverse]
    exact .inr (List.of_mem_zip (mem_of_lookup hw)).1
  have hagrees : ∀ args junk, ∀ s ∈ added' ++ added, ∀ w,
      ((h.params.map (·.name)).zip args).lookup s.name = some w →
        Code.bindArgs junk f.params args (.var s.storage) = w := by
    intro args junk s hs w hw
    rcases List.mem_append.mp hs with hs | hs
    · -- What the body declares is no parameter.
      have hparam := (List.of_mem_zip (mem_of_lookup hw)).1
      rw [← List.mem_reverse, ← hparams] at hparam
      exact absurd rfl (hother _ (List.mem_map_of_mem hs) _ hparam)
    · refine bindArgs_of_lookup junk hoperands ?_ ?_ (List.mem_reverse.mpr hs) (hnames ▸ hw)
      · simpa using hdeclared.storages
      · simpa using hdistinct
  refine ⟨[added' ++ added], ⟨hcode, fun k _ x hx => by simp [hempty] at hx,
    hdeclared.tidy htidy, ?_, ?_, ?_⟩, ?_, ?_,
    fun args junk heap => ⟨by rw [hempty]; rfl, rfl, ⟨hagrees args junk, trivial⟩, ?_⟩⟩
  · rw [hfull]
    exact ⟨⟨[], rfl, by simp⟩, trivial⟩
  · exact fun scope hscope => (hall.tidy htidy).names scope (by rwa [hfull])
  · simpa using hall.storages
  · rw [ScopeTable.names, hfirst, ← hparams]
    rfl
  · rw [← hparams, ← hadded', ← List.map_append]
    rfl
  · rw [ScopeTable.names, hfirst]
    exact ⟨hown args, by simp, trivial⟩

/-- A function ends as its call ends if the code of its body follows the evaluation of the body. -/
theorem Lowers.must {sigs : Signatures} {f : Func} {args : List Word}
    {r : Except Tree.Ending (Option Word × Env)} (ih : FollowsExprs address frees prog p n)
    (hlowers : Lowers sigs h body f) (hinternal : h.isExternal = false)
    (hsteady : body.steady [body.declared ++ (h.params.map (·.name)).reverse] = true)
    (heval : (eval prog n body).run?
      [fun x => ((h.params.map (·.name)).zip args).lookup x] = some r) (junk : Store) (heap : Code.Heap) :
    Must address frees p f (f.start args junk heap) (fun _ => False) fun o _ =>
      match r with
      | .ok (v, _) => Shows o (.returned v)
      | .error e => Shows o e := by
  obtain ⟨_, c₁, c₂, result, hparams, hbody, hcode⟩ := hlowers.body_ok hinternal
  obtain ⟨full, hset, _, hfull, hstands⟩ := exists_setting hparams hbody (hcode ▸ List.prefix_append _ _)
  rw [← hfull] at hsteady
  refine (ih (lowered_of_lowerExpr body hbody) hset hsteady (hstands args junk heap) r heval).bind ?_ ?_
  · rintro a' ⟨v, ρ', rfl, hdone⟩
    have hret : f.code[a'.index]? = some ⟨.ret, none, some (.temp result), none⟩ := by
      rw [hdone.stands.index, hcode]
      simp
    refine .ret (Activation.Does.next? hret .ret) fun w hw => ⟨w, rfl, fun x hx => ?_⟩
    exact (hw _ rfl).trans (hdone.value x hx)
  · rintro o heap ⟨e, rfl, hshows⟩
    exact hshows

theorem mem_of_func? {name : String} (hitem : prog.func? name = some (h, body)) :
    (h, body) ∈ funcItems prog.body ∧ h.name = name := by
  obtain ⟨e, he, heq⟩ := List.exists_of_findSome?_eq_some hitem
  split at heq
  · split at heq
    · next hname =>
      cases heq
      exact ⟨mem_funcItems.mpr he, hname⟩
    · cases heq
  · cases heq

theorem steady_of_func? {name : String} (hsteady : prog.steady = true)
    (hitem : prog.func? name = some (h, body)) :
    body.steady [body.declared ++ (h.params.map (·.name)).reverse] = true :=
  List.all_eq_true.mp hsteady _ (mem_funcItems.mp (mem_of_func? hitem).1)

theorem follows_calls (hlower : lowerProgram prog = .ok p) (hsteady : prog.steady = true)
    (ih : FollowsExprs address frees prog p n) :
    FollowsCalls address frees prog p (n + 1) := by
  intro name args ending hrun
  rw [Tree.run] at hrun
  cases hitem : prog.func? name with
  | none =>
    rw [hitem] at hrun
    cases hrun
  | some item =>
    obtain ⟨h, body⟩ := item
    simp only [hitem] at hrun
    split at hrun
    · cases hrun
    next hcall =>
    obtain ⟨hinternal, hcount⟩ := not_or.mp hcall
    have hbody := steady_of_func? hsteady hitem
    obtain ⟨hmem, rfl⟩ := mem_of_func? hitem
    obtain ⟨sigs, hcollect, hlowers⟩ := lowerProgram_funcs hlower
    obtain ⟨f, hf, hlowered⟩ := exists_of_mem_left hlowers hmem
    obtain ⟨hname, hparams, hexternal, _⟩ := hlowered.shaped
    have hfunc : p.func? f.name = some f :=
      Code.Program.func?_of_mem (names_of_lowers hlowers ▸ collect_nodup hcollect) hf
    rw [hname] at hfunc
    refine ⟨f, hfunc, by simpa [hexternal] using hinternal, by simpa [hparams] using hcount, fun junk heap => ?_⟩
    split at hrun
    · next heval =>
      cases hrun
      exact hlowered.must ih (by simpa using hinternal) hbody heval junk heap
    · next heval =>
      cases hrun
      exact hlowered.must ih (by simpa using hinternal) hbody heval junk heap
    · cases hrun

/-- The code of a steady program does what the program does, whatever the number of steps. -/
theorem follows_all (address : Bytes → Word) (frees : Func → Nat → Bool) (hlower : lowerProgram prog = .ok p)
    (hsteady : prog.steady = true) (n : Nat) :
    FollowsExprs address frees prog p n ∧ FollowsStmts address frees prog p n ∧
      FollowsItems address frees prog p n ∧ FollowsCalls address frees prog p n := by
  induction n with
  | zero =>
    refine ⟨?_, ?_, ?_, ?_⟩
    · intro sigs e f full c c' t ρ a _ _ _ _
      rw [Tree.eval_zero]
      exact .stuck
    · intro sigs es f full c c' ts last v ρ a _ _ _ _ _
      rw [Tree.evalStmts]
      exact .stuck
    · intro sigs es f full c c' ts ρ a _ _ _ _
      rw [Tree.evalItems]
      exact .stuck
    · intro name args ending hrun
      rw [Tree.run] at hrun
      cases hrun
  | succ n ih =>
    obtain ⟨ihexprs, ihstmts, ihitems, ihcalls⟩ := ih
    exact ⟨follows_exprs ihexprs ihstmts ihitems ihcalls, follows_stmts ihexprs ihstmts,
      follows_items ihexprs ihitems, follows_calls hlower hsteady ihexprs⟩

/-- Counts the steps that numbers up to a limit take to reach one. -/
def hailstones : Tree.Program :=
  ⟨[.func ⟨"steps", [⟨"n", .number⟩], .number, false, false⟩ (.block [
      .define "k" .number (.literal (.number 0)),
      .loop (.binary "!=" (.var "n") (.literal (.number 1))) (.block [
        .cond (.binary "==" (.binary "%" (.var "n") (.literal (.number 2))) (.literal (.number 0)))
          (.assign "n" (.binary "/" (.var "n") (.literal (.number 2))))
          (.assign "n" (.binary "+" (.binary "*" (.literal (.number 3)) (.var "n")) (.literal (.number 1)))),
        .unary "++" (.var "k")]),
      .var "k"]),
    .func ⟨"main", [⟨"n", .number⟩], .number, true, false⟩ (.block [
      .define "sum" .number (.literal (.number 0)),
      .loop (.binary "&&" (.binary ">" (.var "n") (.literal (.number 0)))
          (.binary "<" (.var "sum") (.literal (.number 100)))) (.block [
        .define "next" .number (.binary "-" (.var "n") (.literal (.number 1))),
        .block [
          .define "n" .number (.call "steps" [.var "n"]),
          .assign "sum" (.binary "+" (.var "sum") (.var "n"))],
        .assign "n" (.var "next")]),
      .ret (.var "sum")])]⟩

/-- The declaration of `x` in the only arm of the condition hides the parameter `x`. -/
def overlooked : Tree.Program :=
  ⟨[.func ⟨"f", [⟨"x", .number⟩, ⟨"c", .number⟩], .number, true, false⟩
    (.block [.cond (.var "c") (.define "x" .number (.literal (.number 1))) .missing, .ret (.var "x")])]⟩

end TreeCompiler.Lower
