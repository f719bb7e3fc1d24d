import TreeCompiler.Proofs.Lower.Settling

/-!
Where a variable need not have a value, there is a way through the lowered code on which it has none.
So code on all whose ways variables are stored to before they are loaded comes from settled expressions
only.
-/

namespace TreeCompiler.Lower

open Code
open TreeCompiler.Tree (Expr Sure GotoFree nodesAll sureAll settledAll nodesAll_singleton sureAll_singleton
  settledAll_singleton)

/-- Control can come to the end of the code without a store to a variable, for each variable of the
    scopes and each new one that need not have a value there. -/
def Opens (params : Set String) (f : Func) (full : List (List Symbol)) (s : Sure) (c : Context) : Prop :=
  ∀ v, (v ∈ full.flatten.map Symbol.storage ∨ v ∉ c.scopes.taken) → ¬ Has full s v →
    Unset params f.code c.code.size v

section Positions

variable {params : Set String} {f : Func} {c c' : Context} {m n k : Nat} {xs : List Instr} {v : String}

/-- Code that gives variables nothing is passed. -/
theorem unset_add (hcode : (c.add m n xs).code.toList <+: f.code)
    (hxs : ∀ x ∈ xs, x.GoesOn ∧ ∀ w, x.gives? ≠ some (.var w)) (hunset : Unset params f.code c.code.size v) :
    Unset params f.code (c.add m n xs).code.size v := by
  induction xs generalizing c m n with
  | nil => simpa using hunset
  | cons x xs ih =>
    rw [Context.add_cons] at hcode ⊢
    refine ih hcode (fun y hy => hxs y (by simp [hy])) ?_
    have hx : f.code[c.code.size + 0]? = some x :=
      getElem?_of_add ((Context.toList_add_code (c.add m n [x]) 0 0 xs ▸ List.prefix_append _ _ :
        (c.add m n [x]).code.toList <+: _).trans hcode) rfl
    obtain ⟨hgoes, hgives⟩ := hxs x (by simp)
    simpa using hunset.step hx (hgives v) (.next hx hgoes)

/-- A jump leads behind the label. -/
theorem unset_jump {i j : Nat} {x : Instr} (hunset : Unset params f.code i v) (hx : f.code[i]? = some x)
    (htarget : x.target? = some ("L" ++ toString k))
    (hlabel : f.code[j]? = some (labelInstr k)) :
    Unset params f.code (j + 1) v := by
  have hgives : x.gives? ≠ some (.var v) := by
    rw [Ne, Instr.gives?_eq_var_iff]
    rintro ⟨hop, _⟩
    simp [Instr.target?, hop] at htarget
  have hthere : Unset params f.code j v := hunset.step hx hgives (.jump hx htarget hlabel rfl)
  exact hthere.step hlabel (by simp [Instr.gives?]) (.next hlabel (by simp [Instr.GoesOn]))

end Positions

namespace Opens

variable {params : Set String} {f : Func} {full : List (List Symbol)} {s s' : Sure} {c c' : Context} {m n : Nat}
  {xs : List Instr}

/-- Variables that are new at the end were new before. -/
theorem move (hopens : Opens params f full s c) (htaken : ∀ v ∈ c.scopes.taken, v ∈ c'.scopes.taken)
    (hunset : ∀ v, Unset params f.code c.code.size v → Unset params f.code c'.code.size v) :
    Opens params f full s c' :=
  fun v hv hhas => hunset v (hopens v (hv.imp_right fun hnew hmem => hnew (htaken v hmem)) hhas)

theorem add (hopens : Opens params f full s c) (hcode : (c.add m n xs).code.toList <+: f.code)
    (hxs : ∀ x ∈ xs, x.GoesOn ∧ ∀ w, x.gives? ≠ some (.var w)) : Opens params f full s (c.add m n xs) :=
  hopens.move (fun _ h => h) fun _ hunset => unset_add hcode hxs hunset

/-- A store gives one variable a value. -/
theorem store {storage : String} {t : Temp} (hopens : Opens params f full s c)
    (hcode : (c.add m 0 [⟨.store, some (.var storage), some (.temp t), none⟩]).code.toList <+: f.code)
    (hhas : ∀ w, Has full s w ∨ w = storage → Has full s' w) :
    Opens params f full s' (c.add m 0 [⟨.store, some (.var storage), some (.temp t), none⟩]) := by
  intro v hv hnot
  have hunset := hopens v hv fun hv' => hnot (hhas v (.inl hv'))
  have hx : f.code[c.code.size + 0]? = some ⟨.store, some (.var storage), some (.temp t), none⟩ :=
    getElem?_of_add hcode rfl
  have hgives : Instr.gives? ⟨.store, some (.var storage), some (.temp t), none⟩ ≠ some (.var v) := by
    rintro heq
    cases heq
    exact hnot (hhas _ (.inr rfl))
  simpa using hunset.step hx hgives (.next hx (by simp [Instr.GoesOn]))

/-- Nothing is open where control never comes. -/
theorem unreached : Opens params f full none c :=
  fun _ _ hnot => absurd Has.unreached hnot

end Opens

theorem unset_truth {params : Set String} {f : Func} {i : Nat} {v : String} {t l : Temp}
    (hunset : Unset params f.code i v) (htruth : f.code[i]? = some (truthInstr t l)) :
    Unset params f.code (i + 1) v :=
  hunset.step htruth (by simp [truthInstr, Instr.gives?]) (.next htruth (by simp [truthInstr, Instr.GoesOn]))

section Branches

variable {params : Set String} {f : Func} {full : List (List Symbol)} {s s₂ s₃ : Sure} {c c₁ c₂ c₃ : Context}
  {b l r t y : Temp}

/-- The right side of a short-circuit operator is reached from the left side. -/
theorem Opens.shortCircuit_right {op : String} {n k : Nat} (hn : op = "&&" ∧ n = 0 ∨ op ≠ "&&" ∧ n = 1)
    (hopens : Opens params f full s c₁)
    (hcode : (c₁.add 0 n (decisionInstrs op t l k c₁.labels)).code.toList <+: f.code) :
    Opens params f full s (c₁.add 0 n (decisionInstrs op t l k c₁.labels)) := by
  rcases hn with ⟨hand, rfl⟩ | ⟨hor, rfl⟩
  · rw [decisionInstrs, shortCircuit, if_pos hand] at hcode ⊢
    exact hopens.add hcode (by simp [truthInstr, Instr.GoesOn, Instr.gives?])
  · rw [decisionInstrs, shortCircuit, if_neg hor] at hcode ⊢
    refine hopens.move (fun _ h => h) fun v hunset => ?_
    have hnext := unset_truth hunset (getElem?_of_add (i := 0) hcode rfl)
    have hbranch := getElem?_of_add (i := 1) hcode rfl
    have hlabel := getElem?_of_add (i := 3) hcode rfl
    simpa using unset_jump hnext hbranch rfl hlabel

/-- The end of a short-circuit operator is reached from the left side. -/
theorem Opens.shortCircuit_done {op : String} {n k : Nat} (hn : op = "&&" ∧ n = 0 ∨ op ≠ "&&" ∧ n = 1)
    (hopens : Opens params f full s c₁)
    (hcode : (c₁.add 0 n (decisionInstrs op t l k c₁.labels)).code.toList <+: f.code)
    (hcode' : (c₂.add 0 0 [truthInstr t r,
      labelInstr k]).code.toList <+: f.code)
    (htaken : ∀ v ∈ c₁.scopes.taken, v ∈ c₂.scopes.taken) :
    Opens params f full s (c₂.add 0 0 [truthInstr t r,
      labelInstr k]) := by
  refine hopens.move htaken fun v hunset => ?_
  have hnext := unset_truth hunset (getElem?_of_add (i := 0) hcode rfl)
  have hlabel := getElem?_of_add (i := 1) hcode' rfl
  rcases hn with ⟨hand, rfl⟩ | ⟨hor, rfl⟩
  · rw [decisionInstrs, shortCircuit, if_pos hand] at hcode
    have hbranch := getElem?_of_add (i := 1) hcode rfl
    simpa using unset_jump hnext hbranch rfl hlabel
  · rw [decisionInstrs, shortCircuit, if_neg hor] at hcode
    have hbranch := getElem?_of_add (i := 1) hcode rfl
    have hjump := getElem?_of_add (i := 2) hcode rfl
    have hbehind := hnext.step hbranch (by simp [Instr.gives?]) (.next hbranch (by simp [Instr.GoesOn]))
    simpa using unset_jump hbehind hjump rfl hlabel

/-- A branch leads behind its label. -/
theorem Opens.branch {k m n m' n' : Nat} (xs : List Instr) (hopens : Opens params f full s c₁)
    (hcode : (c₁.add m n [branchInstr k b]).code.toList <+: f.code)
    (hcode' : (c₂.add m' n' (xs ++ [labelInstr k])).code.toList <+: f.code)
    (htaken : ∀ v ∈ c₁.scopes.taken, v ∈ c₂.scopes.taken) :
    Opens params f full s (c₂.add m' n' (xs ++ [labelInstr k])) := by
  refine hopens.move htaken fun v hunset => ?_
  have hbranch := getElem?_of_add (i := 0) hcode rfl
  have hlabel : f.code[c₂.code.size + xs.length]? = some (labelInstr k) :=
    getElem?_of_add hcode' (by simp)
  simpa [Nat.add_assoc] using unset_jump hunset hbranch rfl hlabel

/-- The end of a condition is reached from both arms. -/
theorem Opens.meet {k k' : Nat} (hapart : ScopeTable.Apart full) (hyes : Opens params f full s₂ c₂)
    (hno : Opens params f full s₃ c₃)
    (hcode : (c₂.add 1 0 [moveInstr t (.temp y),
      jumpInstr k',
      labelInstr k]).code.toList <+: f.code)
    (hcode' : (c₃.add 0 0 [moveInstr t (.temp r),
      labelInstr k']).code.toList <+: f.code)
    (htaken : ∀ v ∈ c₂.scopes.taken, v ∈ c₃.scopes.taken) :
    Opens params f full (s₂.meet s₃) (c₃.add 0 0 [moveInstr t (.temp r),
      labelInstr k']) := by
  intro v hv hnot
  rw [Has.meet_iff hapart, not_and_or] at hnot
  rcases hnot with hnot | hnot
  · have hunset := hyes v (hv.imp_right fun hnew hmem => hnew (htaken v hmem)) hnot
    have hmove := getElem?_of_add (i := 0) hcode rfl
    have hjump := getElem?_of_add (i := 1) hcode rfl
    have hlabel := getElem?_of_add (i := 1) hcode' rfl
    have hnext := hunset.step hmove (by simp [Instr.gives?]) (.next hmove (by simp [Instr.GoesOn]))
    simpa using unset_jump hnext hjump rfl hlabel
  · exact hno.add hcode' (by simp [Instr.GoesOn, Instr.gives?]) v hv hnot

end Branches

theorem Context.Grows.taken {base : Nat} {c c' : Context} {names : List String} (hgrows : c.Grows base c' names) :
    ∀ v ∈ c.scopes.taken, v ∈ c'.scopes.taken := by
  obtain ⟨_, _, hscopes⟩ := hgrows.scopes
  exact hscopes.kept

theorem branchInstr_plain {k : Nat} {b : Temp} :
    ∀ x ∈ [branchInstr k b], x.GoesOn ∧ ∀ w, x.gives? ≠ some (.var w) := by
  simp [branchInstr, Instr.GoesOn, Instr.gives?]

/-- Arguments are handed over and what takes them gives a temporary its value. -/
theorem plain_handOver {index : Nat} {ts : List Temp} {x : Instr} (hgoes : x.GoesOn) (hop : x.op ≠ .store) :
    ∀ y ∈ argInstrs index ts ++ [x], y.GoesOn ∧ ∀ w, y.gives? ≠ some (.var w) := by
  intro y hy
  rcases List.mem_append.mp hy with hy | hy
  · induction ts generalizing index with
    | nil => cases hy
    | cons t ts ih =>
      rcases List.mem_cons.mp hy with rfl | hy
      · exact ⟨by simp [Instr.GoesOn], by simp [Instr.gives?]⟩
      · exact ih (by simp [hy]) hy
  · obtain rfl := List.mem_singleton.mp hy
    exact ⟨hgoes, fun w hgives => hop (Instr.gives?_eq_var_iff.mp hgives).1⟩

variable {params : Set String} {f : Func} {sigs : Signatures} {full : List (List Symbol)} {s : Sure} {e : Expr}
  {es : List Expr} {c c₁ c' : Context} {t : Temp} {ts : List Temp}

/-- Behind its operands, an expression stores to the variables that it gives a value, and loads no
    other ones than those that have one. -/
theorem Finishes.settled (hfinish : Finishes sigs e es ts c₁ t c') (hfirst : StoresFirst params f.code)
    (hoperands : Lowered sigs es c ts c₁) (hfree : GotoFree e.nodes) (hset : Setting f full c c')
    (hsettled : Tree.settledAll es c.scopes.names s = true)
    (hopens : Opens params f full (sureAll es c.scopes.names s) c₁) :
    e.settled c.scopes.names s = true ∧ Opens params f full (e.sure c.scopes.names s) c' := by
  have hset₁ := hset.operands hfinish
  cases hfinish with
  | void => exact ⟨by rw [Expr.settled], hopens.add hset.code (by simp)⟩
  | constant k _ =>
    have hcode : (c₁.add 1 0 [moveInstr ⟨c₁.temps, k.ty⟩ (.const k)]).code.toList
        <+: f.code :=
      hset.code
    exact ⟨by rw [Expr.settled], hopens.add hcode (by simp [Instr.GoesOn, Instr.gives?])⟩
  | var symbol hlookup =>
    cases hoperands
    rw [Expr.settled, Has.has_iff hset₁.covers hset.apart hlookup]
    refine ⟨?_, hopens.add hset.code (by simp [Instr.GoesOn, Instr.gives?])⟩
    by_contra hnot
    obtain ⟨x, _, hstored⟩ := exists_stored hset₁.covers (ScopeTable.lookup_ok hlookup)
    obtain ⟨s', hs', hstorage⟩ := hstored.mem
    have hload := getElem?_of_add (i := 0) hset.code rfl
    exact hfirst.not_unset hload rfl rfl (hopens symbol.storage (.inl (List.mem_map.mpr ⟨s', hs', hstorage⟩)) hnot)
  | define v storage scopes hdeclare =>
    have hdeclared : c₁.Grows 0 { c₁ with scopes } [_] := .declare hdeclare
    rw [Expr.settled, Expr.sure, ← hoperands.expr_grows.1.names, ← hdeclared.names, ← settledAll_singleton,
      ← sureAll_singleton]
    have hopens₂ : Opens params f full _ { c₁ with scopes } := hopens.move hdeclared.taken fun _ h => h
    exact ⟨hsettled, hopens₂.store hset.code fun w =>
      (Has.gain_iff hset.of_add.covers hset.apart (ScopeTable.lookup_of_declare hdeclare)).mpr⟩
  | assign v symbol hlookup =>
    rw [Expr.settled, Expr.sure, ← hoperands.expr_grows.1.names, ← settledAll_singleton, ← sureAll_singleton]
    exact ⟨hsettled, hopens.store hset.code fun w => (Has.gain_iff hset₁.covers hset.apart hlookup).mpr⟩
  | array | call _ _ _ =>
    rw [Expr.settled, Expr.sure]
    exact ⟨hsettled, hopens.add hset.code (plain_handOver (by simp [Instr.GoesOn]) (by simp))⟩
  | binary l r code hop hcode =>
    simp only [Tree.settledAll, Bool.and_true] at hsettled
    rw [Expr.settled, Expr.sure, if_neg hop]
    refine ⟨hsettled, hopens.add hset.code ?_⟩
    rcases cases_of_binaryOp? hcode with ⟨o, rfl⟩ | ⟨o, rfl⟩ <;> simp [Instr.GoesOn, Instr.gives?]
  | unary a code _ _ =>
    rw [Expr.settled, Expr.sure, ← settledAll_singleton, ← sureAll_singleton]
    exact ⟨hsettled, hopens.add hset.code (by simp [Instr.GoesOn, Instr.gives?])⟩
  | update a code name symbol _ hname hlookup =>
    rw [Expr.settled, Expr.sure, ← settledAll_singleton, ← sureAll_singleton]
    refine ⟨hsettled, ?_⟩
    -- What is counted up or down is read before, so that it has a value already.
    obtain rfl := updated?_eq_some hname
    have hhas : Has full s symbol.storage := by
      cases hoperands with | strict _ _ _ hnil hvar
      cases hvar with | var symbol' hlookup'
      cases hnil
      rw [settledAll_singleton, Expr.settled, Has.has_iff hset₁.of_add.covers hset.apart hlookup'] at hsettled
      cases hlookup.symm.trans hlookup'
      exact hsettled
    rw [Context.add_cons] at hset ⊢
    refine (hopens.add hset.of_add.code (by simp [Instr.GoesOn, Instr.gives?])).store hset.code fun w hw => ?_
    rw [sureAll_singleton, Expr.sure] at hw ⊢
    rcases hw with hw | rfl
    · exact hw
    · exact hhas
  | retNothing hmissing | exitNothing hmissing =>
    rw [Expr.settled, Expr.sure]
    exact ⟨Expr.settled_of_isMissing hmissing, .unreached⟩
  | ret v _ | exit v _ =>
    rw [Expr.settled, Expr.sure, ← settledAll_singleton]
    exact ⟨hsettled, .unreached⟩
  | index a i =>
    simp only [Tree.settledAll, Bool.and_true] at hsettled
    rw [Expr.settled, Expr.sure]
    exact ⟨hsettled, hopens.add hset.code (by simp [Instr.GoesOn, Instr.gives?])⟩
  | setIndex a i v =>
    simp only [Tree.settledAll, Bool.and_true, ← Bool.and_assoc] at hsettled
    rw [Expr.settled, Expr.sure]
    exact ⟨hsettled, hopens.add hset.code (by simp [Instr.GoesOn, Instr.gives?])⟩
  | label =>
    rw [Expr.settled, Expr.sure]
    exact ⟨rfl, hopens.add hset.code (by simp [Instr.GoesOn, Instr.gives?, userLabel])⟩
  | goto => exact absurd List.mem_cons_self (hfree _)

/-- Expressions whose code stores to variables before it loads them are settled. -/
theorem Lowered.settled (hfirst : StoresFirst params f.code) (hlowered : Lowered sigs es c ts c')
    (hfree : GotoFree (nodesAll es)) (hset : Setting f full c c') (hopens : Opens params f full s c) :
    settledAll es c.scopes.names s = true ∧ Opens params f full (sureAll es c.scopes.names s) c' := by
  induction hlowered generalizing full s with
    try simp only [nodesAll_singleton, settledAll_singleton, sureAll_singleton] at *
  | nil =>
    rw [settledAll, sureAll]
    exact ⟨rfl, hopens⟩
  | cons hhead hrest ihhead ihrest =>
    have hgrows := hhead.expr_grows.1
    obtain ⟨hsettled, hopens₁⟩ := ihhead hfree.part (hset.before hrest.grows.1) hopens
    obtain ⟨hsettled', hopens₂⟩ := ihrest (hfree.part fun _ => List.mem_append_right _)
        (hset.behind hgrows) hopens₁
    rw [settledAll, sureAll, ← hgrows.names, hsettled, hsettled']
    exact ⟨rfl, hopens₂⟩
  | strict _ _ _ hoperands hfinish ih =>
    obtain ⟨hsettled, hopens₁⟩ := ih (hfree.part fun x hx => by simp [hfinish.nodes, hx])
        (hset.operands hfinish) hopens
    exact hfinish.settled hfirst hoperands hfree hset hsettled hopens₁
  | block ts c c₁ scopes n hbody hleave hlast ih =>
    have hlength := (hset.before (Lowered.block ts c c₁ scopes n hbody hleave hlast).grows.1).covers.length_eq
    obtain ⟨added, _, hset', hadded⟩ := hset.of_add.block hbody.grows.1 hleave
    have hinside : Opens params f (added :: full) (s.inside c.scopes.names) { c with scopes := c.scopes.enter } := by
      intro v hv hnot
      rw [Has.inside_iff (by simp [ScopeTable.names, hlength])] at hnot
      refine hopens v ?_ hnot
      rcases hv with hv | hv
      · rw [List.flatten_cons, List.map_append] at hv
        rcases List.mem_append.mp hv with hv | hv
        · obtain ⟨a, ha, rfl⟩ := List.mem_map.mp hv
          exact .inr (hadded a ha).1
        · exact .inl hv
      · exact .inr hv
    obtain ⟨hsettled, hopens₁⟩ := ih hfree.part hset' hinside
    rw [Expr.settled, Expr.sure]
    refine ⟨hsettled, fun v hv hnot => ?_⟩
    have hother : ∀ a ∈ added, a.storage ≠ v := by
      rintro a ha rfl
      rcases hv with hv | hv
      · obtain ⟨a', ha', heq⟩ := List.mem_map.mp hv
        exact hset'.apart.ne ha ha' heq.symm
      · exact hv (hadded a ha).2
    have htaken : c₁.scopes.taken = scopes.taken := by
      obtain ⟨_, _, _, rfl⟩ := ScopeTable.leave_ok hleave
      rfl
    have hv' : v ∈ (added :: full).flatten.map Symbol.storage ∨ v ∉ c₁.scopes.taken := by
      rw [htaken, List.flatten_cons, List.map_append]
      exact hv.imp_left (List.mem_append_right _)
    simpa using hopens₁ v hv' fun hhas => hnot (hhas.of_cons hother)
  | shortCircuit l r c c₁ c₂ n hop hn hleft hright ihleft ihright =>
    have hgrows := hleft.expr_grows.1
    have hstart : c.Grows 0 (c.add 1 1 []) [] := .addPlain (by simp)
    obtain ⟨hset₁, hcode, hset₂⟩ := (hset.of_add.behind hstart).split (hgrows.of_le (Nat.zero_le _))
      (.shortCircuit hn (Nat.zero_le _)) hright
    obtain ⟨hsettled, hopens₁⟩ := ihleft hfree.part hset₁
      (hopens.move hstart.taken fun v hunset => by simpa using hunset)
    obtain ⟨hsettled', _⟩ := ihright hfree.part hset₂ (hopens₁.shortCircuit_right hn hcode)
    rw [Context.add_scopes, hgrows.names] at hsettled'
    rw [Expr.settled, Expr.sure, if_pos hop, Bool.and_eq_true]
    exact ⟨⟨hsettled, hsettled'⟩, hopens₁.shortCircuit_done hn hcode hset.code hright.grows.1.taken⟩
  | when b y c c₁ c₂ hno htest hyes ihtest ihyes =>
    have hgrows := htest.expr_grows.1
    obtain ⟨hset₁, hcode, hset₂⟩ := hset.of_add.split hgrows (.addPlain (by simp)) hyes
    obtain ⟨hsettled, hopens₁⟩ := ihtest hfree.part hset₁ hopens
    obtain ⟨hsettled', _⟩ := ihyes hfree.part hset₂
      (hopens₁.add hcode branchInstr_plain)
    rw [Context.add_scopes, hgrows.names] at hsettled'
    rw [Expr.settled, Expr.sure, if_pos hno, hsettled, hsettled', Expr.settled_of_isMissing hno]
    exact ⟨rfl, hopens₁.branch [] hcode hset.code hyes.grows.1.taken⟩
  | cond b y z c c₁ c₂ c₃ hno htest hyes hother ihtest ihyes ihother =>
    have hgrows := htest.expr_grows.1
    have hgrows' := hyes.expr_grows.1
    obtain ⟨⟨hset₁, hcode, hset₂⟩, hcode', hset₃⟩ := hset.of_add.arms htest hyes hother
    obtain ⟨hsettled, hopens₁⟩ := ihtest hfree.part hset₁ hopens
    obtain ⟨hsettled', hopens₂⟩ := ihyes hfree.part hset₂
      (hopens₁.add hcode branchInstr_plain)
    obtain ⟨hsettled'', hopens₃⟩ := ihother hfree.part hset₃
      (hopens₁.branch [_, _] hcode hcode' hgrows'.taken)
    rw [Context.add_scopes, hgrows'.names, Context.add_scopes] at hsettled'' hopens₃
    rw [Context.add_scopes] at hsettled' hopens₂
    rw [Expr.settled, Expr.sure, if_neg (by simp [hno]), ← hgrows.names, hsettled, hsettled', hsettled'']
    exact ⟨rfl, hopens₂.meet hset.apart hopens₃ hcode' hset.code hother.grows.1.taken⟩
  | loop b r c c₁ c₂ htest hbody ihtest ihbody =>
    have hgrows := htest.expr_grows.1
    have hstart : c.Grows 0 (c.add 0 2 [labelInstr c.labels]) [] :=
      .addLabel (by simp [Places]) (Nat.zero_le c.labels) (by omega)
    obtain ⟨hset₁, hcode, hset₂⟩ := (hset.of_add.behind hstart).split hgrows (.addPlain (by simp)) hbody
    obtain ⟨hsettled, hopens₁⟩ := ihtest hfree.part hset₁
      (hopens.add (hset₁.before hgrows).code (by simp [Instr.GoesOn, Instr.gives?]))
    obtain ⟨hsettled', _⟩ := ihbody hfree.part hset₂ (hopens₁.add hcode branchInstr_plain)
    rw [Context.add_scopes, hgrows.names] at hsettled'
    rw [Expr.settled, Expr.sure, Bool.and_eq_true]
    exact ⟨⟨hsettled, hsettled'⟩, hopens₁.branch [_] hcode hset.code hbody.grows.1.taken⟩

end TreeCompiler.Lower
