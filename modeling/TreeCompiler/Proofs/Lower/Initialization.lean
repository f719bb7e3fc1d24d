import TreeCompiler.Proofs.Lower.Preservation
import TreeCompiler.Proofs.Lower.Unsettled

/-!
What lowered functions read has a value, whichever way control takes through them. This holds of all
temporaries, and of the variables exactly in functions whose variables are settled: a declaration in a
part of the tree that may be passed over is in scope behind that part.
-/

namespace TreeCompiler.Lower

open Code
open TreeCompiler.Tree (Expr Header GotoFree)

variable {sigs : Signatures} {h : Header} {body : Expr} {f : Func}

/-- A function of a program is what its item is lowered to. -/
theorem exists_lowers {prog : Tree.Program} {p : Code.Program} (hlower : lowerProgram prog = .ok p)
    (hitem : .func h body ∈ prog.body) (hf : f ∈ p.funcs) (hname : f.name = h.name) :
    ∃ sigs, Lowers sigs h body f := by
  obtain ⟨sigs, hcollect, hlowers⟩ := lowerProgram_funcs hlower
  obtain ⟨⟨h', body'⟩, hitem', hf'⟩ := exists_of_mem_right hlowers hf
  have hsame : (h', body') = (h, body) :=
    List.inj_on_of_nodup_map (collect_nodup hcollect) hitem' (mem_funcItems.mpr hitem)
      (hf'.shaped.1.symm.trans hname)
  cases hsame
  exact ⟨sigs, hf'⟩

/-- How the body of a function is lowered: from no code on, where exactly the variables of the
    arguments have a value. -/
structure Body (sigs : Signatures) (h : Header) (body : Expr) (f : Func) (full : List (List Symbol)) (c c' : Context)
    (result : Temp) : Prop where
  lowers : lowerExpr sigs body c = .ok (result, c')
  setting : Setting f full c c'
  empty : c.code = #[]
  code : f.code = c'.code.toList ++ [⟨.ret, none, some (.temp result), none⟩]
  names : c.scopes.names = [(h.params.map (·.name)).reverse]
  args : ∀ v, Has full (some (h.params.map fun p => (0, p.name))) v ↔ v ∈ f.argVars

theorem Lowers.exists_body (hlowers : Lowers sigs h body f) (hinternal : h.isExternal = false) :
    ∃ full c c' result, Body sigs h body f full c c' result := by
  obtain ⟨_, c₁, c₂, result, hparams, hbody, hcode⟩ := hlowers.body_ok hinternal
  obtain ⟨full, hset, hnames, _, _⟩ := exists_setting hparams hbody (hcode ▸ List.prefix_append _ _)
  obtain ⟨added, hdeclared, hadded, hoperands, hkept⟩ := lowerParams_grows hparams
  have hscopes : c₁.scopes.scopes = [added] := by simp [hdeclared.scopes, ScopeTable.enter, ScopeTable.extend]
  have hcovers := (hset.before (lowered_of_lowerExpr body hbody).expr_grows.1).covers
  rw [hscopes] at hcovers
  refine ⟨full, c₁, c₂, result, hbody, hset, by rw [hkept], hcode, hnames, fun v => ?_⟩
  -- The parameters are the first symbols of the only scope, and others in it have other names.
  obtain ⟨all, rfl⟩ := List.length_eq_one_iff.mp hcovers.length_eq
  obtain ⟨⟨later, hall, _⟩, _⟩ := hcovers
  have hapart := hset.apart
  have hmem : v ∈ f.argVars ↔ ∃ a ∈ added, a.storage = v := by
    change some (.var v) ∈ f.params.map (·.operand) ↔ _
    rw [hoperands]
    simp
  rw [hmem, Has.some_iff]
  constructor
  · rintro ⟨x, hx, ⟨_, s, hs, hname, hv⟩ | hnone⟩
    · obtain ⟨q, hq, rfl⟩ := List.mem_map.mp hx
      have hq' : q.name ∈ added.reverse.map Symbol.name := hadded ▸ List.mem_map_of_mem hq
      obtain ⟨a, ha, haname⟩ := List.mem_map.mp hq'
      rw [List.mem_reverse] at ha
      have hsame : s = a := List.inj_on_of_nodup_map (hapart.names all (by simp)) hs (by simp [hall, ha])
        (hname.trans haname.symm)
      exact ⟨a, ha, hsame ▸ hv⟩
    · exact hnone.elim
  · rintro ⟨a, ha, hv⟩
    have haname : a.name ∈ h.params.map (·.name) := hadded ▸ List.mem_map_of_mem (List.mem_reverse.mpr ha)
    obtain ⟨q, hq, hname⟩ := List.mem_map.mp haname
    exact ⟨(0, q.name), List.mem_map_of_mem hq, .inl ⟨rfl, a, by simp [hall, ha], hname.symm, hv⟩⟩

section Body

variable {full : List (List Symbol)} {c c' : Context} {result : Temp} {s : Tree.Sure} {known known' : Set Operand}

section Body

variable (hbody : Body sigs h body f full c c' result)
include hbody

/-- The code of a whole function knows what it uses. -/
theorem Body.exists_checked (hlaid : Laid full s c known c' [result] known') :
    ∃ marks known'', Checked marks known f.code known'' := by
  obtain ⟨_, code, own, hcode, hchecked⟩ := hlaid.lays
  have hempty : f.code = code ++ [⟨.ret, none, some (.temp result), none⟩] := by
    rw [hbody.code, hcode, hbody.empty]
    rfl
  refine ⟨Marks own, Set.univ, hempty ▸ (hchecked own (by simp) fun _ _ _ => rfl).append
    ⟨_, .leave (.inl rfl) ?_, subset_rfl⟩⟩
  exact Instr.uses_known (by simp) (by simpa [Instr.sources] using hlaid.live)

/-- Nothing but temporaries is looked at if all variables are taken to have a value. -/
theorem Body.exists_checked_temps (hfree : GotoFree body.nodes) :
    ∃ marks known', Checked marks {o | ∃ v, o = .var v} f.code known' := by
  have hstart : Settles full none {o | ∃ v, o = .var v} := fun v _ => ⟨v, rfl⟩
  obtain ⟨known', hlaid⟩ := (lowered_of_lowerExpr body hbody.lowers).laid (Tree.nodesAll_singleton body ▸ hfree)
    hbody.setting (Tree.settledAll_singleton body .. ▸ body.settled_none c.scopes.names) hstart
  exact hbody.exists_checked hlaid

theorem Body.exists_checked_vars (hfree : GotoFree body.nodes) (hsettles : h.settles body = true) :
    ∃ marks known', Checked marks {o | ∃ v ∈ f.argVars, o = .var v} f.code known' := by
  rw [Header.settles, ← hbody.names] at hsettles
  have hstart : Settles full (some (h.params.map fun p => (0, p.name))) {o | ∃ v ∈ f.argVars, o = .var v} :=
    fun v hv => ⟨v, (hbody.args v).mp hv, rfl⟩
  obtain ⟨known', hlaid⟩ := (lowered_of_lowerExpr body hbody.lowers).laid (Tree.nodesAll_singleton body ▸ hfree)
    hbody.setting (Tree.settledAll_singleton body .. ▸ hsettles) hstart
  exact hbody.exists_checked hlaid

theorem Body.settles (hfree : GotoFree body.nodes) (hfirst : StoresFirst f.argVars f.code) : h.settles body = true := by
  have hopens : Opens f.argVars f full (some (h.params.map fun p => (0, p.name))) c := by
    intro v _ hnot
    refine ⟨fun harg => hnot ((hbody.args v).mpr harg), [], ?_, fun ⟨j, hj, _⟩ => by cases hj⟩
    rw [hbody.empty]
    exact .start
  rw [Header.settles, ← hbody.names, ← Tree.settledAll_singleton]
  exact ((lowered_of_lowerExpr body hbody.lowers).settled hfirst (Tree.nodesAll_singleton body ▸ hfree) hbody.setting
    hopens).1

end Body

end Body

/-- Temporaries are written before they are read: on every path through a function without jumps of
    its own, what an instruction reads from a temporary was put there by an instruction before it,
    unless the temporary is of the type without values. -/
theorem temporaries_written_first {prog : Tree.Program} {p : Code.Program} (hlower : lowerProgram prog = .ok p)
    (hitem : .func h body ∈ prog.body) (hf : f ∈ p.funcs) (hname : f.name = h.name)
    (hgotos : ∀ name, .goto name ∉ body.nodes) :
    ∀ passed i x t, Path f.code passed i → f.code[i]? = some x → some (.temp t) ∈ x.sources →
      t.ty ≠ .void →
      ∃ j ∈ passed, ∃ y, f.code[j]? = some y ∧ y.op ≠ .setIndex ∧ y.dst = some (.temp t) := by
  intro passed i x t hpath hx hreads hty
  obtain ⟨sigs, hlowers⟩ := exists_lowers hlower hitem hf hname
  cases hinternal : h.isExternal with
  | true => simp [hlowers.code_of_external hinternal] at hx
  | false =>
    obtain ⟨full, c, c', result, hbody⟩ := hlowers.exists_body hinternal
    obtain ⟨marks, known', hchecked⟩ := hbody.exists_checked_temps hgotos
    rcases hchecked.uses (o := .temp t) hpath hx ⟨hty, hreads⟩ with ⟨_, hvar⟩ | ⟨j, hj, y, hy, hgives⟩
    · cases hvar
    · exact ⟨j, hj, y, hy, Instr.gives?_eq_temp_iff.mp hgives⟩

/-- A function that gives a variable its value in one arm of a condition and in the other, has a
    variable of the same name in a loop, and returns the first. -/
def pickTree : Tree.Program where
  body := [.func ⟨"pick", [⟨"n", .number⟩], .number, true, false⟩
    (.block [
      .cond (.binary "||" (.var "n") (.exit .missing)) (.define "x" .number (.literal (.number 1)))
        (.assign "x" (.literal (.number 2))),
      .loop (.var "n") (.block [.define "x" .number (.var "n"),
        .assign "n" (.binary "-" (.var "x") (.literal (.number 1)))]),
      .ret (.var "x")])]

def pickCode : Code.Program :=
  (lowerProgram pickTree).toOption.getD ⟨[], []⟩

/-- The truth value that the condition tests was put into its temporary, although the right side of the
    operator is passed over. -/
theorem pick_written_first : lowerProgram pickTree = .ok pickCode ∧ ∃ f ∈ pickCode.funcs,
    Path f.code [0, 1, 2, 3, 7] 8 ∧
      (∃ x, f.code[8]? = some x ∧ x.op = .jumpIfFalse ∧ x.src1 = some (.temp ⟨0, .bool⟩)) ∧
        ∃ j ∈ [0, 1, 2, 3, 7], ∃ y, f.code[j]? = some y ∧ y.op ≠ .setIndex ∧
          y.dst = some (.temp ⟨0, .bool⟩) := by
  have hlower : lowerProgram pickTree = .ok pickCode := eq_ok_of_toOption (by decide +kernel)
  have hfuncs : ∃ f ∈ pickCode.funcs, f.name = "pick" ∧ ([0, 1, 2, 3, 7] ++ [8]).IsChain (Code.Flows f.code) ∧
      f.code[8]? = some ⟨.jumpIfFalse, some (.label "L2"), some (.temp ⟨0, .bool⟩), none⟩ := by
    decide +kernel
  obtain ⟨f, hf, hname, hchain, hx⟩ := hfuncs
  have hpath : Path f.code [0, 1, 2, 3, 7] 8 := .of_isChain rfl hchain
  refine ⟨hlower, f, hf, hpath, ⟨_, hx, rfl, rfl⟩, ?_⟩
  exact temporaries_written_first hlower List.mem_cons_self hf hname (by simp [Expr.nodes, Tree.nodesAll]) _ _ _ _
    hpath hx (by simp [Instr.sources]) (by simp)

/-- Variables are set before they are read exactly where they are settled: on every path through a
    function without jumps of its own, each load from a variable that is no parameter comes after a
    store to it, if and only if each variable that the tree of the function reads has been given a
    value there, whichever arms of conditions, bodies of loops and right sides of short-circuit
    operators are passed over. -/
theorem storesFirst_iff_settles {prog : Tree.Program} {p : Code.Program} (hlower : lowerProgram prog = .ok p)
    (hitem : .func h body ∈ prog.body) (hf : f ∈ p.funcs) (hname : f.name = h.name)
    (hgotos : ∀ name, .goto name ∉ body.nodes) :
    StoresFirst f.argVars f.code ↔ h.isExternal = true ∨ h.settles body = true := by
  obtain ⟨sigs, hlowers⟩ := exists_lowers hlower hitem hf hname
  cases hinternal : h.isExternal with
  | true =>
    refine iff_of_true (fun passed i x name _ hx => ?_) (.inl rfl)
    simp [hlowers.code_of_external hinternal] at hx
  | false =>
    obtain ⟨full, c, c', result, hbody⟩ := hlowers.exists_body hinternal
    simp only [Bool.false_eq_true, false_or]
    refine ⟨hbody.settles hgotos, fun hsettles passed i x name hpath hx hop hsrc hparam => ?_⟩
    obtain ⟨marks, known', hchecked⟩ := hbody.exists_checked_vars hgotos hsettles
    rcases hchecked.uses (o := .var name) hpath hx ⟨hop, hsrc⟩ with ⟨v, hv, hvar⟩ | ⟨j, hj, y, hy, hgives⟩
    · cases hvar
      exact absurd hv hparam
    · exact ⟨j, hj, y, hy, Instr.gives?_eq_var_iff.mp hgives⟩

/-- The variable is settled although only one arm declares it, and so is the one in the loop. -/
theorem pick_storesFirst : lowerProgram pickTree = .ok pickCode ∧ ∃ f ∈ pickCode.funcs,
    StoresFirst f.argVars f.code ∧
      ∃ (i : Nat) (x : Instr), f.code[i]? = some x ∧ x.op = .load ∧ x.src1 = some (.var "x") := by
  have hlower : lowerProgram pickTree = .ok pickCode := eq_ok_of_toOption (by decide +kernel)
  have hfuncs : ∃ f ∈ pickCode.funcs, f.name = "pick" ∧
      f.code[29]? = some ⟨.load, some (.temp ⟨16, .number⟩), some (.var "x"), none⟩ := by
    decide +kernel
  obtain ⟨f, hf, hname, hx⟩ := hfuncs
  refine ⟨hlower, f, hf, ?_, 29, _, hx, rfl, rfl⟩
  exact (storesFirst_iff_settles hlower List.mem_cons_self hf hname (by simp [Expr.nodes, Tree.nodesAll])).mpr
    (.inr (by decide +kernel))

/-- A function that declares a variable in the only arm of a condition and returns it. -/
def skippedTree : Tree.Program where
  body := [.func ⟨"skipped", [⟨"n", .number⟩], .number, true, false⟩
    (.block [.cond (.var "n") (.define "x" .number (.literal (.number 1))) .missing, .ret (.var "x")])]

/-- A variable that is in scope need not have a value: the path around the arm comes to the load of the
    variable without a store to it. -/
theorem skipped_loads_unset : ∃ p f, lowerProgram skippedTree = .ok p ∧ f ∈ p.funcs ∧
    (∀ e ∈ Tree.nodesAll skippedTree.body, ∀ name, e ≠ .goto name) ∧
      Path f.code [0, 1, 4] 5 ∧
        (∃ x, f.code[5]? = some x ∧ x.op = .load ∧ x.src1 = some (.var "x")) ∧ "x" ∉ f.argVars ∧
          ¬ ∃ j ∈ [0, 1, 4], ∃ y, f.code[j]? = some y ∧ y.op = .store ∧ y.dst = some (.var "x") := by
  have hlower : ∃ p, (lowerProgram skippedTree).toOption = some p ∧ ∃ f ∈ p.funcs,
      ([0, 1, 4] ++ [5]).IsChain (Code.Flows f.code) ∧
      f.code[5]? = some ⟨.load, some (.temp ⟨4, .number⟩), some (.var "x"), none⟩ ∧
        some (.var "x") ∉ f.params.map (·.operand) ∧
          ∀ j ∈ [0, 1, 4], ∀ y ∈ f.code[j]?, y.op ≠ .store := by
    refine ⟨(lowerProgram skippedTree).toOption.getD ⟨[], []⟩, by decide +kernel, by decide +kernel⟩
  obtain ⟨p, hlower, f, hf, hchain, hx, hparam, hstores⟩ := hlower
  refine ⟨p, f, eq_ok_of_toOption hlower, hf, by simp [skippedTree, Expr.nodes, Tree.nodesAll],
    .of_isChain rfl hchain, ⟨_, hx, rfl, rfl⟩, hparam, ?_⟩
  rintro ⟨j, hj, y, hy, hop, _⟩
  exact hstores j hj y hy hop

end TreeCompiler.Lower
