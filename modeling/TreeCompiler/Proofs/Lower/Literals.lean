import TreeCompiler.Proofs.Lower.Program

/-!
The pool of a lowered program holds the literals of the tree, from left to right and as often as they
stand there. Texts come into the code as values of literals only.
-/

namespace TreeCompiler

namespace Tree

/-- The value of a node that is a number, a truth value or a text. -/
def Expr.constant? : Expr → Option Code.Const
  | .literal (.number v) => some (.int v)
  | .literal (.bool b) => some (.bool b)
  | .literal (.str s) => some (.str s)
  | _ => none

/-- The values among some nodes. -/
def constants (es : List Expr) : List Code.Const :=
  es.filterMap Expr.constant?

@[simp] theorem constants_append (xs ys : List Expr) : constants (xs ++ ys) = constants xs ++ constants ys :=
  List.filterMap_append

theorem constants_cons_of_none {e : Expr} (he : e.constant? = none) (xs : List Expr) :
    constants (e :: xs) = constants xs :=
  List.filterMap_cons_none he

/-- The values that an item of a program asks for. -/
def Expr.pooled : Expr → List Code.Const
  | .func h body => if h.isExternal then [] else constants body.nodes
  | e => constants e.nodes

/-- The literals of a program, from left to right. -/
def Program.constants (p : Program) : List Code.Const :=
  p.body.flatMap Expr.pooled

end Tree

namespace Lower

open Code
open TreeCompiler.Tree (Expr Header nodesAll constants constants_cons_of_none)

/-- A text is used by an instruction as the value that it moves, and is among some values. -/
def TextsIn (ks : List Const) (x : Instr) : Prop :=
  ∀ s, some (.const (.str s)) ∈ x.operands →
    x.op = .move ∧ x.src1 = some (.const (.str s)) ∧ .str s ∈ ks

theorem TextsIn.mono {ks ks' : List Const} {x : Instr} (hx : TextsIn ks x) (hks : ks ⊆ ks') : TextsIn ks' x :=
  fun s hs => (hx s hs).imp_right (And.imp_right fun hmem => hks hmem)

/-- A context comes from another one by adding values to the pool, and code that uses texts among them
    only. -/
def Context.Pools (c c' : Context) (ks : List Const) : Prop :=
  c'.pool.toList = c.pool.toList ++ ks ∧ ∃ xs, c'.code.toList = c.code.toList ++ xs ∧ ∀ x ∈ xs, TextsIn ks x

namespace Context.Pools

variable {c c' c'' : Context} {ks ks' : List Const}

theorem refl (c : Context) : c.Pools c [] :=
  ⟨(List.append_nil _).symm, [], (List.append_nil _).symm, by simp⟩

theorem trans (hpools : c.Pools c' ks) (hpools' : c'.Pools c'' ks') : c.Pools c'' (ks ++ ks') := by
  obtain ⟨hpool, xs, hcode, hxs⟩ := hpools
  obtain ⟨hpool', ys, hcode', hys⟩ := hpools'
  refine ⟨by rw [hpool', hpool, List.append_assoc], xs ++ ys, by rw [hcode', hcode, List.append_assoc], ?_⟩
  intro x hx
  rcases List.mem_append.mp hx with hx | hx
  · exact (hxs x hx).mono (List.subset_append_left ks ks')
  · exact (hys x hx).mono (List.subset_append_right ks ks')

/-- Whatever is added elsewhere than for a literal uses no text. -/
theorem add {m n : Nat} {xs : List Instr} (hpools : c.Pools c' ks)
    (hplain : ∀ x ∈ xs, ∀ s, some (.const (.str s)) ∉ x.operands) : c.Pools (c'.add m n xs) ks := by
  have hadd : c'.Pools (c'.add m n xs) [] :=
    ⟨(List.append_nil _).symm, xs, c'.toList_add_code m n xs, fun x hx s hs => absurd hs (hplain x hx s)⟩
  simpa using hpools.trans hadd

end Context.Pools

theorem plain_args {index : Nat} {ts : List Temp} {y : Instr} (hy : ∀ s, some (.const (.str s)) ∉ y.operands) :
    ∀ x ∈ argInstrs index ts ++ [y], ∀ s, some (.const (.str s)) ∉ x.operands := by
  induction ts generalizing index with
  | nil => simpa [argInstrs] using hy
  | cons t ts ih =>
    intro x hx
    rcases List.mem_cons.mp hx with rfl | hx
    · simp [Instr.operands]
    · exact ih x hx

theorem const?_eq (l : Tree.Literal) : const? l = (Expr.literal l).constant? := by
  cases l <;> rfl

variable {sigs : Signatures} {e : Expr} {es : List Expr} {c c₁ c' : Context} {t : Temp} {ts : List Temp}

/-- Behind its operands, an expression pools nothing but a literal. -/
theorem Finishes.pools (hfinish : Finishes sigs e es ts c₁ t c') (hpools : c.Pools c₁ (constants (nodesAll es))) :
    c.Pools c' (constants e.nodes) := by
  rw [hfinish.nodes]
  cases hfinish with
  | constant k hconst =>
    rw [const?_eq] at hconst
    rw [constants, List.filterMap_cons_some hconst]
    refine hpools.trans (?_ : Context.Pools _ _ [k])
    refine ⟨Array.toList_push, _, Context.toList_add_code c₁ 1 0 _, ?_⟩
    intro x hx s hs
    obtain rfl := List.mem_singleton.mp hx
    simp only [Instr.operands, List.mem_cons, Option.some.injEq, reduceCtorEq, Operand.const.injEq, false_or,
      List.not_mem_nil, or_false] at hs
    subst hs
    exact ⟨rfl, rfl, List.mem_singleton_self _⟩
  | array | call _ _ _ => exact hpools.add (plain_args (by simp [Instr.operands]))
  | define v storage scopes _ =>
    have hadd : c.Pools (c₁.add 1 0 [⟨.store, some (.var storage), some (.temp v), none⟩]) _ :=
      hpools.add (by simp [Instr.operands])
    exact hadd
  | _ => exact hpools.add (by simp [Instr.operands, userLabel])

/-- Lowering expressions pools their literals from left to right. -/
theorem Lowered.pools (hlowered : Lowered sigs es c ts c') : c.Pools c' (constants (nodesAll es)) := by
  induction hlowered with
  | nil => exact .refl _
  | cons _ _ ihfirst ihrest =>
    rw [nodesAll, Tree.constants_append]
    exact (Tree.nodesAll_singleton _ ▸ ihfirst).trans ihrest
  | strict _ _ _ _ hfinish ih =>
    rw [Tree.nodesAll_singleton]
    exact hfinish.pools ih
  | block ts c c₁ scopes n _ _ _ ih =>
    rw [Tree.nodesAll_singleton, Expr.nodes, constants_cons_of_none rfl]
    have hbody : c.Pools { c₁ with scopes } _ := ih
    exact hbody.add (by simp)
  | @shortCircuit op left right l r c c₁ c₂ n _ _ _ _ ihleft ihright =>
    simp only [Tree.nodesAll_singleton, Expr.nodes] at ihleft ihright ⊢
    rw [constants_cons_of_none rfl, Tree.constants_append]
    have hleft : c.Pools c₁ (constants left.nodes) := ((Context.Pools.refl c).add (by simp)).trans ihleft
    have hdecide : c.Pools (c₁.add 0 n (decisionInstrs op ⟨c.temps, .bool⟩ l c.labels c₁.labels))
        (constants left.nodes) := by
      refine hleft.add ?_
      unfold decisionInstrs Lower.shortCircuit
      split <;> simp [Instr.operands, truthInstr]
    exact (hdecide.trans ihright).add (by simp [Instr.operands, truthInstr])
  | when _ _ _ _ _ hno _ _ ihtest ihyes =>
    simp only [Tree.nodesAll_singleton, Expr.nodes, Expr.nodes_of_isMissing hno, List.append_nil] at ihtest ihyes ⊢
    rw [constants_cons_of_none rfl, Tree.constants_append]
    exact ((ihtest.add (by simp [Instr.operands])).trans ihyes).add (by simp [Instr.operands])
  | cond _ _ _ _ _ _ _ _ _ _ _ ihtest ihyes ihother =>
    simp only [Tree.nodesAll_singleton, Expr.nodes] at ihtest ihyes ihother ⊢
    rw [constants_cons_of_none rfl, Tree.constants_append, Tree.constants_append]
    exact ((((ihtest.add (by simp [Instr.operands])).trans ihyes).add (by simp [Instr.operands])).trans ihother).add
      (by simp [Instr.operands])
  | @loop test _ b _ c c₁ _ _ _ ihtest ihbody =>
    simp only [Tree.nodesAll_singleton, Expr.nodes] at ihtest ihbody ⊢
    rw [constants_cons_of_none rfl, Tree.constants_append]
    have htest : c.Pools c₁ (constants test.nodes) :=
      ((Context.Pools.refl c).add (by simp [Instr.operands])).trans ihtest
    exact ((htest.add (by simp [Instr.operands])).trans ihbody).add (by simp [Instr.operands])

theorem lowerParams_pool {ps : List Tree.Param} {qs : List Code.Param} (hlower : lowerParams ps c = .ok (qs, c')) :
    c'.pool = c.pool := by
  induction ps generalizing c qs with
  | nil =>
    obtain ⟨_, rfl⟩ := LowerM.pure_eq_ok_iff.mp hlower
    rfl
  | cons p ps ih =>
    obtain ⟨_, _, _, _, hrest, _⟩ := lowerParams_cons_ok hlower
    have hpool := ih hrest
    exact hpool

/-- A function pools the literals of its body, and its code uses texts among them only. -/
theorem lowerFunc_pools {h : Header} {body : Expr} {pool : Array Const} {f : Code.Func}
    (hlower : lowerFunc sigs h body { pool } = .ok (f, c)) :
    c.pool.toList = pool.toList ++ (Expr.func h body).pooled ∧
      ∀ x ∈ f.code, TextsIn (Expr.func h body).pooled x := by
  simp only [lowerFunc, LowerM.bind_eq_ok_iff, LowerM.enter_eq_ok_iff] at hlower
  obtain ⟨_, _, rfl, params, c₁, hparams, hlower⟩ := hlower
  have hpool := lowerParams_pool hparams
  obtain ⟨_, hempty, _⟩ := lowerParams_ok hparams
  cases hexternal : h.isExternal with
  | true =>
    simp only [hexternal, if_true, LowerM.bind_eq_ok_iff, LowerM.pure_eq_ok_iff, LowerM.within_eq_ok_iff,
      LowerM.leave_eq_ok_iff] at hlower
    obtain ⟨_, _, ⟨rfl, rfl⟩, _, _, ⟨_, _, rfl⟩, rfl, rfl⟩ := hlower
    simpa [Expr.pooled, hexternal] using hpool
  | false =>
    simp only [hexternal, Bool.false_eq_true, if_false] at hlower
    split at hlower
    · obtain ⟨_, _, hfail, _⟩ := LowerM.bind_eq_ok_iff.mp hlower
      exact (LowerM.fail_ne_ok c₁ hfail).elim
    · simp only [LowerM.bind_eq_ok_iff, LowerM.within_eq_ok_iff, LowerM.emit_eq_ok_iff, LowerM.get_eq_ok_iff,
        LowerM.pure_eq_ok_iff, LowerM.leave_eq_ok_iff] at hlower
      obtain ⟨result, c₂, hbody, _, _, rfl, _, _, ⟨rfl, rfl⟩, _, _, ⟨rfl, rfl⟩, _, _, ⟨_, _, rfl⟩, rfl,
          rfl⟩ := hlower
      obtain ⟨hpool', xs, hxs, htexts⟩ := (lowered_of_lowerExpr body hbody).pools
      rw [hempty, Array.toList_empty, List.nil_append] at hxs
      simp only [Tree.nodesAll_singleton] at hpool' htexts
      simp only [Expr.pooled, hexternal, Bool.false_eq_true, if_false]
      refine ⟨by rw [hpool', hpool], fun x hx => ?_⟩
      rw [Array.toList_push, hxs, List.mem_append, List.mem_singleton] at hx
      rcases hx with hx | rfl
      · exact htexts x hx
      · simp [TextsIn, Instr.operands]

namespace Session

variable {s s' : Session} {index : Nat}

theorem item_pools (hitem : s.item index e = .ok s') :
    s'.pool.toList = s.pool.toList ++ e.pooled ∧
      ∀ f ∈ s'.funcs, f ∈ s.funcs ∨ ∀ x ∈ f.code, TextsIn e.pooled x := by
  cases e with
  | func h body =>
    simp only [item] at hitem
    obtain ⟨⟨f, c⟩, hf, hitem⟩ := bind_eq_ok_iff.mp hitem
    obtain ⟨hpool, htexts⟩ := lowerFunc_pools (mapError_eq_ok_iff.mp hf)
    cases hitem
    refine ⟨hpool, fun f' hf' => ?_⟩
    rcases Array.mem_push.mp hf' with hf' | rfl
    · exact .inl hf'
    · exact .inr htexts
  | literal l =>
    simp only [item] at hitem
    split at hitem
    · next k hk =>
      cases hitem
      rw [const?_eq] at hk
      refine ⟨?_, fun f hf => .inl hf⟩
      simp only [Expr.pooled, Expr.nodes, constants, List.filterMap_cons_some hk]
      exact Array.toList_push
    · cases hitem
  | _ => cases hitem

theorem items_pools (hitems : s.items index es = (.ok (), s')) :
    s'.pool.toList = s.pool.toList ++ es.flatMap Expr.pooled ∧
      ∀ f ∈ s'.funcs, f ∈ s.funcs ∨ ∀ x ∈ f.code, TextsIn (es.flatMap Expr.pooled) x := by
  induction es generalizing s index with
  | nil =>
    cases hitems
    exact ⟨(List.append_nil _).symm, fun f hf => .inl hf⟩
  | cons e es ih =>
    obtain ⟨s₁, hitem, hrest⟩ := items_cons_ok hitems
    obtain ⟨hpool, hfuncs⟩ := item_pools hitem
    obtain ⟨hpool', hfuncs'⟩ := ih hrest
    rw [List.flatMap_cons]
    refine ⟨by rw [hpool', hpool, List.append_assoc], fun f hf => ?_⟩
    rcases hfuncs' f hf with hf | htexts
    · exact (hfuncs f hf).imp_right fun htexts x hx => (htexts x hx).mono (List.subset_append_left _ _)
    · exact .inr fun x hx => (htexts x hx).mono (List.subset_append_right _ _)

end Session

/-- The pool of a lowered program holds its literals, and its code uses texts among them only. -/
theorem lowerProgram_pools {prog : Tree.Program} {p : Code.Program} (hlower : lowerProgram prog = .ok p) :
    p.consts = prog.constants ∧ ∀ f ∈ p.funcs, ∀ x ∈ f.code, TextsIn p.consts x := by
  obtain ⟨sigs, s, _, hitems, rfl⟩ := lowerProgram_eq_ok_iff.mp hlower
  obtain ⟨hpool, hfuncs⟩ := Session.items_pools hitems
  rw [Array.toList_empty, List.nil_append] at hpool
  refine ⟨hpool, fun f hf => ?_⟩
  rw [hpool]
  exact (hfuncs f (Array.mem_toList_iff.mp hf)).resolve_left (Array.not_mem_empty f)

end Lower

end TreeCompiler
