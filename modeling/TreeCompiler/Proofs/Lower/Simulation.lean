import TreeCompiler.Proofs.Lower.Following

namespace TreeCompiler.Lower

open Code
open Code.Activation (Does)
open ScopeTable (namesOf)
open TreeCompiler.Tree (Expr Ending Env EvalM eval evalStmts evalItems steadyAll)

-- The equations of the evaluator are generated here, once for all the forms of expressions.
attribute [local simp] eval evalStmts evalItems

variable {op : String} {x w : Word} {c₁ : Context} {a₁ : Activation} {m k j i : Nat} {v : Option Word}
  {l : Temp} {xs : List Instr}

variable {code : Code.UnaryOp} {z : Word} {base : Nat} {name : String}

/-- The code of an operator computes the value of the operator. -/
theorem value_of_binaryOp? {code : Op} {y : Word} (hop : binaryOp? op = some code)
    (hvalue : Tree.binaryValue? op x y = some z) :
    (∃ o, code = .binary o ∧ o.eval x y = some z) ∨ ∃ o, code = .compare o ∧ truth (o.holds x y) = z := by
  have hmem := mem_of_lookup hop
  simp only [List.mem_cons, List.not_mem_nil, or_false, Prod.mk.injEq] at hmem
  rcases hmem with ⟨rfl, rfl⟩ | ⟨rfl, rfl⟩ | ⟨rfl, rfl⟩ | ⟨rfl, rfl⟩ | ⟨rfl, rfl⟩ | ⟨rfl, rfl⟩ |
      ⟨rfl, rfl⟩ |
    ⟨rfl, rfl⟩ | ⟨rfl, rfl⟩ | ⟨rfl, rfl⟩ | ⟨rfl, rfl⟩ | ⟨rfl, rfl⟩ | ⟨rfl, rfl⟩ |
    ⟨rfl, rfl⟩ | ⟨rfl, rfl⟩ |
    ⟨rfl, rfl⟩
  iterate 10 exact .inl ⟨_, rfl, hvalue⟩
  all_goals exact .inr ⟨_, rfl, Option.some.inj hvalue⟩

theorem value_of_unaryOp? (heap : Heap)
    (hop : unaryOp? op = some code) (hvalue : Tree.unaryValue? op x = some z) :
    code.eval heap x = some z ∧ ((op = "++" ∨ op = "--") ↔ code = .inc ∨ code = .dec) := by
  have hmem := mem_of_lookup hop
  simp only [List.mem_cons, List.not_mem_nil, or_false, Prod.mk.injEq] at hmem
  rcases hmem with ⟨rfl, rfl⟩ | ⟨rfl, rfl⟩ | ⟨rfl, rfl⟩ | ⟨rfl, rfl⟩ | ⟨rfl, rfl⟩ | ⟨rfl, rfl⟩
  case inr.inr.inl | inr.inr.inr.inl => cases hvalue
  all_goals exact ⟨hvalue, by decide⟩

/-- Counting a variable up or down stores the new value. -/
theorem storeBack_eq {arg : Expr}
    (hcounts : (op = "++" ∨ op = "--") ↔ code = .inc ∨ code = .dec) :
    Tree.storeBack op arg w =
      match updated? code arg with
      | some name => EvalM.update (·.set? name w)
      | none => pure () := by
  unfold Tree.storeBack
  cases arg with
  | var name =>
    by_cases hop : op = "++" ∨ op = "--"
    · rcases hcounts.mp hop with rfl | rfl <;> simp only [hop, if_true, updated?]
    · have hcode := mt hcounts.mpr hop
      simp only [hop, if_false]
      cases code <;> first | rfl | simp at hcode
  | _ => cases code <;> rfl

theorem Context.Grows.names {c c' : Context} {names : List String} (hgrows : c.Grows base c' names) :
    c'.scopes.names = c.scopes.names.with names := by
  obtain ⟨_, rfl, hscopes⟩ := hgrows.scopes
  exact hscopes.names

/-- Names that hide nothing may be declared or not. -/
theorem Context.Grows.matches_iff {c c' : Context} {names : List String} {full : List (List Symbol)}
    {ρ : Env} (hgrows : c.Grows base c' names) (hspares : (namesOf full).spares names = true) :
    ρ.Matches (namesOf full) c'.scopes.names ↔ ρ.Matches (namesOf full) c.scopes.names := by
  rw [hgrows.names, Env.Matches.with_iff hspares]

section

variable (address : Bytes → Word) (frees : Func → Nat → Bool) (prog : Tree.Program) (p : Code.Program) (n : Nat)

/-- The code of a steady expression does what its evaluation in a number of steps does. -/
def FollowsExpr (e : Expr) : Prop :=
  ∀ {sigs : Signatures} {f : Func} {full : List (List Symbol)} {c c' : Context} {t : Temp} {ρ : Env}
    {a : Activation},
    Lowered sigs [e] c [t] c' → Setting f full c c' → e.steady (namesOf full) = true → Stands full c ρ a →
      Follows address frees p f a (eval prog n e) ρ (Done full c c' t a)

/-- This is so for every expression. -/
def FollowsExprs : Prop :=
  ∀ {e : Expr}, FollowsExpr address frees prog p n e

/-- The value of the last statement, if it has one, is in its temporary. -/
def HoldsLast (last : Option Temp) (v : Option Word) (a : Activation) : Prop :=
  ∀ w, v = some w → ∃ t, last = some t ∧ a.store (.temp t) = w

/-- The code of steady statements does what their evaluation does. -/
def FollowsStmts : Prop :=
  ∀ {sigs : Signatures} {es : List Expr} {f : Func} {full : List (List Symbol)} {c c' : Context} {ts : List Temp}
    {last : Option Temp} {v : Option Word} {ρ : Env} {a : Activation}, Lowered sigs es c ts c' →
      Setting f full c c' → steadyAll es (namesOf full) = true → Stands full c ρ a → HoldsLast last v a →
        Follows address frees p f a (evalStmts prog n v es) ρ fun v' ρ' a' =>
          Stands full c' ρ' a' ∧ Keeps c.temps a a' ∧ HoldsLast (ts.getLast?.or last) v' a'

/-- The code of steady arguments does what their evaluation does. -/
def FollowsItems : Prop :=
  ∀ {sigs : Signatures} {es : List Expr} {f : Func} {full : List (List Symbol)} {c c' : Context}
    {ts : List Temp} {ρ : Env} {a : Activation}, Lowered sigs es c ts c' → Setting f full c c' →
      steadyAll es (namesOf full) = true → Stands full c ρ a →
      Follows address frees p f a (evalItems prog n es) ρ fun ws ρ' a' =>
        Stands full c' ρ' a' ∧ Keeps c.temps a a' ∧ ts.map (fun t => a'.store (.temp t)) = ws

/-- The functions of the code end as the calls of the functions of the program end. -/
def FollowsCalls : Prop :=
  ∀ {name : String} {args : List Word} {ending : Ending}, Tree.run prog n name args = some ending →
    ∃ g, p.func? name = some g ∧ g.isExternal = false ∧ args.length = g.params.length ∧
      ∀ junk heap, Must address frees p g (g.start args junk heap) (fun _ => False) fun o _ => Shows o ending

end

variable {address : Bytes → Word} {frees : Func → Nat → Bool} {prog : Tree.Program} {p : Code.Program} {n : Nat}
  {sigs : Signatures} {f : Func} {full : List (List Symbol)} {c c' : Context} {t : Temp} {ρ : Env}
  {a : Activation}

/-- Storing a value in a variable leaves the temporaries as they are. -/
theorem Done.store {c₂ : Context} {ρ' : Env} {x : Instr} {storage : String}
    (hdone : Done full c c₁ t a v ρ a₁) (hcode : c₂.code = c₁.code)
    (hagrees : Agrees (a₁.store.put (.var storage) w) full ρ')
    (hnames : ρ'.Matches (namesOf full) c₂.scopes.names) :
    Done full c (c₂.add m k [x]) t a v ρ' (a₁.stepPut (some (.var storage)) w) where
  stands := ⟨by simp [Activation.stepPut, hdone.stands.index, hcode], hdone.stands.args, hagrees, hnames⟩
  value v hv := by
    rw [Activation.stepPut_store, Store.put_ne _ _ (by simp), hdone.value v hv]
  keeps := hdone.keeps.stepPut_var

/-- What gives no value leaves any temporary. -/
theorem Done.none_of {t' : Temp}
    (hdone : Done full c c₁ t a v ρ a₁) : Done full c c₁ t' a none ρ a₁ :=
  ⟨hdone.stands, nofun, hdone.keeps⟩

/-- A word becomes a truth value. -/
theorem next?_truthInstr
    (hstands : Stands full c₁ ρ a) (hx : a.store (.temp l) = x)
    (hcode : (c₁.add m k (truthInstr t l :: xs)).code.toList <+: f.code) :
    a.next? address f = some (.goto (a.stepPut (some (.temp t)) (truth (x ≠ 0)))) := by
  rw [Does.next? (hstands.fetch hcode) .compare]
  subst hx
  rfl

/-- A jump to a label at the end of the code goes on behind it. -/
theorem exists_landing (address : Bytes → Word) (xs : List Instr)
    (hcode : (c.add m k (xs ++ [labelInstr j])).code.toList <+: f.code)
    (hlacks : c.Lacks j) (hxs : ∀ x ∈ xs, ¬ Places j x) (hargs : a.args = []) (hagrees : Agrees a.store full ρ)
    (hnames : ρ.Matches (namesOf full) c.scopes.names) :
    ∃ i, f.labelIndex? ("L" ++ toString j) = some i ∧
      Activation.next? address f { a with index := i } = some (.goto { a with index := i + 1 }) ∧
        Stands full (c.add m k (xs ++ [labelInstr j])) ρ
          { a with index := i + 1 } := by
  obtain ⟨hindex, hlabel⟩ := label_of_add hcode hlacks hxs
  exact ⟨_, hindex, Does.next? hlabel .label, by simp [Nat.add_assoc], hargs, hagrees, hnames⟩

theorem shortCircuit_truth_lacks {done : Nat} (hlacks : c.Lacks k) (hne : k ≠ j) :
    (c.add m i (decisionInstrs op t l done j)).Lacks k := by
  refine hlacks.addOther hne fun x hx hlabel => ?_
  rcases List.mem_cons.mp hx with rfl | hx
  · cases hlabel
  · exact ⟨hlabel, (shortCircuit_placed hx hlabel).2⟩

/-- What follows the left side of a short-circuit operator: its truth value is the result if it
    decides, and otherwise the code of the right side comes next. -/
theorem follows_decision {m : EvalM (Option Word)}
    {post : Option Word → Env → Activation → Prop} (hop : op = "&&" ∧ i = 0 ∨ op = "||" ∧ i = 1)
    (hcode : (c.add 0 i (decisionInstrs op t l j k)).code.toList <+: f.code) (hlacks : c.Lacks k)
    (hstands : Stands full c ρ a) (hx : a.store (.temp l) = x)
    (hdone : ∃ i, f.labelIndex? ("L" ++ toString j) = some i ∧
      Follows address frees p f { a.stepPut (some (.temp t)) (truth (x ≠ 0)) with index := i }
        (pure (some (truth (x ≠ 0)))) ρ post)
    (hright : ∀ a', Stands full (c.add 0 i (decisionInstrs op t l j k)) ρ a' →
      a'.store = (a.stepPut (some (.temp t)) (truth (x ≠ 0))).store → Follows address frees p f a' m ρ post) :
    Follows address frees p f a
      (if op = "&&" ∧ x = 0 then pure (some 0) else if op = "||" ∧ x ≠ 0 then pure (some 1) else m) ρ post := by
  refine .goto (next?_truthInstr hstands hx hcode) ?_
  obtain ⟨i', hi', hdone⟩ := hdone
  have hput : Stands full (c.add 0 i [truthInstr t l]) ρ (a.stepPut (some (.temp t)) (truth (x ≠ 0))) :=
    hstands.stepPut_temp
  have hword : (a.stepPut (some (.temp t)) (truth (x ≠ 0))).word address (.temp t) = truth (x ≠ 0) :=
    Store.put_same ..
  have hone : x ≠ 0 → truth (x ≠ 0) = 1 := fun hne => by
    rw [decide_eq_true hne]
    rfl
  have hlacks' : (c.add 0 i [truthInstr t l]).Lacks k :=
    hlacks.add fun y hy => not_places (by obtain rfl := List.mem_singleton.mp hy; simp [truthInstr])
  rw [Context.add_cons] at hcode hright
  rcases hop with ⟨rfl, rfl⟩ | ⟨rfl, rfl⟩
  · by_cases hzero : x = 0
    · rw [if_pos ⟨rfl, hzero⟩]
      subst hzero
      exact .goto (Does.next? (hput.fetch hcode) (.taken hword hi')) hdone
    · rw [if_neg (fun h => hzero h.2), if_neg (by simp)]
      exact .goto (Does.next? (hput.fetch hcode) (.passed ((hword.trans (hone hzero)).trans_ne (by decide))))
        (hright _ hput.step rfl)
  · by_cases hzero : x = 0
    · rw [if_neg (by simp), if_neg fun h => h.2 hzero]
      obtain ⟨i, hi, hnext, hstands'⟩ := exists_landing address [_, _] hcode hlacks' (by simp [Places]) hput.args
        hput.agrees hput.names
      exact .goto (Does.next? (hput.fetch hcode) (.taken (hword.trans (by simp [truth, hzero])) hi))
        (.goto hnext (hright _ hstands' rfl))
    · rw [if_neg (by simp), if_pos ⟨rfl, hzero⟩]
      have hcode' := hcode
      rw [shortCircuit, if_neg (by simp), Context.add_cons] at hcode'
      refine .goto (Does.next? (hput.fetch hcode) (.passed ((hword.trans (hone hzero)).trans_ne (by decide))))
        (.goto (Does.next? (hput.step.fetch hcode') (.jump hi')) ?_)
      rw [hone hzero] at hdone ⊢
      exact hdone

theorem argInstrs_length (index : Nat) (ts : List Temp) : (argInstrs index ts).length = ts.length := by
  induction ts generalizing index with
  | nil => rfl
  | cons t ts ih => simp [argInstrs, ih]

/-- Values are handed over one by one. -/
theorem Follows.args {α : Type} {m : EvalM α} {post : α → Env → Activation → Prop} {ts : List Temp}
    (hcode : (c.add k i (argInstrs a.args.length ts ++ xs)).code.toList <+: f.code)
    (hindex : a.index = c.code.size)
    (hm : Follows address frees p f { a with
      index := a.index + ts.length, args := a.args ++ ts.map fun t => a.store (.temp t) } m ρ post) :
    Follows address frees p f a m ρ post := by
  induction ts generalizing c a k i with
  | nil => simpa using hm
  | cons t ts ih =>
    have hcode' := hcode
    rw [argInstrs, List.cons_append, Context.add_cons] at hcode'
    have hx : f.code[c.code.size + 0]? = some _ := getElem?_of_add hcode rfl
    rw [← hindex] at hx
    refine .goto (Does.next? hx (.arg (by simp [Operand.isLength])))
      (ih (a := { a.step with args := a.args ++ [a.word address (.temp t)] })
      (k := 0) (i := 0) (c := c.add k i [⟨.arg, none, some (.temp t),
        some (.const (.int (Int64.ofNat a.args.length)))⟩])
      (by simpa using hcode') (by simp [Activation.step, hindex]) ?_)
    have hcount : a.index + 1 + ts.length = a.index + (t :: ts).length := by simp; omega
    simpa [Activation.step, Activation.word, Store.word, hcount] using hm

/-- Behind a call its value is in the temporary for it. -/
theorem Done.resume {b : Bool} {heap : Heap}
    (hindex : a₁.index + 1 = c₁.code.size + xs.length) (hagrees : Agrees a₁.store full ρ)
    (hnames : ρ.Matches (namesOf full) c₁.scopes.names)
    (hkeeps : Keeps c.temps a a₁) (ht : (c.temps : Int) ≤ t.id) (hv : ∀ x, v = some x → w = x) :
    Done full c (c₁.add k i xs) t a v ρ ((a₁.release b).resume (some (.temp t)) w heap) := by
  have hfields : (a₁.release b).index = a₁.index ∧
      (a₁.release b).store = a₁.store := by cases b <;> exact ⟨rfl, rfl⟩
  obtain ⟨hindex', hstore⟩ := hfields
  have hstore' : ((a₁.release b).resume (some (.temp t)) w heap).store = a₁.store.put (.temp t) w := by
    rw [← hstore]
    rfl
  refine ⟨⟨?_, rfl, hagrees.of_keeps fun s _ => ?_, hnames⟩, fun x hx => ?_, fun s hs => ?_⟩
  · rw [Context.size_add_code, ← hindex, ← hindex']
    rfl
  · rw [hstore', Store.put_ne _ _ (by simp)]
  · rw [hstore', Store.put_same, hv x hx]
  · rw [hstore']
    exact hkeeps.stepPut_temp ht s hs

theorem follows_literal {l : Tree.Literal} : FollowsExpr address frees prog p (n + 1) (.literal l) := by
  intro sigs f full c c' t ρ a hlowered hset _ hstands
  have hvalue : ∀ k, const? l = some k → Done full c c' t a (some (k.word address)) ρ
      (a.stepPut (some (.temp t)) (k.word address)) ∧
        a.next? address f = some (.goto (a.stepPut (some (.temp t)) (k.word address))) := by
    intro k hk
    cases hlowered with | strict _ _ _ hnil hfinish
    cases hfinish with
    | void => cases hk
    | constant k' hk' =>
      cases hnil
      cases hk.symm.trans hk'
      have hdone : Done full c (c.add 1 0 [moveInstr ⟨c.temps, k.ty⟩ (.const k)])
          ⟨c.temps, k.ty⟩ a (some (k.word address)) ρ
          (a.stepPut (some (.temp ⟨c.temps, k.ty⟩)) (k.word address)) :=
        .put hstands (.refl c.temps a) (Int.le_refl _)
      have hcode : (c.add 1 0 [moveInstr ⟨c.temps, k.ty⟩ (.const k)]).code.toList
          <+: f.code :=
        hset.code
      exact ⟨⟨hdone.stands.of_code rfl rfl, hdone.value, hdone.keeps⟩, Does.next? (hstands.fetch hcode) .move⟩
  cases l with
  | number v =>
    rw [eval]
    obtain ⟨hdone, hnext⟩ := hvalue (.int v) rfl
    exact .goto hnext (.pure hdone)
  | bool b =>
    rw [eval]
    obtain ⟨hdone, hnext⟩ := hvalue (.bool b) rfl
    exact .goto hnext (.pure hdone)
  | _ => exact .stuck

theorem follows_var : FollowsExpr address frees prog p (n + 1) (.var name) := by
  intro sigs f full c c' t ρ a hlowered hset _ hstands
  cases hlowered with | strict _ _ _ hnil hfinish
  cases hfinish with | var s hs
  cases hnil
  rw [eval]
  refine .goto (Does.next? (hstands.fetch hset.code) .load) (.bind (.lookup fun w hw => ?_) fun _ _ _ => .pure)
  have hword : a.word address (.var s.storage) = w :=
    hstands.agrees.get? hset.covers hstands.names (ScopeTable.lookup_ok hs) hw
  rw [hword]
  exact .put hstands (.refl _ a) (Int.le_refl _)

theorem follows_block {body : List Expr} (ih : FollowsStmts address frees prog p n) :
    FollowsExpr address frees prog p (n + 1) (.block body) := by
  intro sigs f full c c' t ρ a hlowered hset hsteady hstands
  cases hlowered with
  | strict _ _ _ _ hfinish => cases hfinish
  | block ts _ c₁ scopes k hstmts hleave hlast
  obtain ⟨added, hadded, hset', _⟩ := hset.of_add.block hstmts.grows.1 hleave
  have hsteady' : steadyAll body (namesOf (added :: full)) = true := by
    rw [Expr.steady, ← hadded] at hsteady
    exact hsteady
  have hstands' : Stands (added :: full) { c with scopes := c.scopes.enter } ((fun _ => none) :: ρ) a :=
    ⟨hstands.index, hstands.args, ⟨by simp, hstands.agrees⟩, hstands.names.enter⟩
  have hnone : HoldsLast none none a := by
    intro w hw
    cases hw
  have hbody := ih hstmts hset' hsteady' hstands' hnone
  rw [eval, EvalM.inScope]
  refine .bindUpdate fun ρ' hρ' => ?_
  cases hρ'
  refine .bind hbody fun v ρ₁ a₁ hpost => ?_
  obtain ⟨hstands₁, hkeeps, hvalue⟩ := hpost
  refine .bindUpdate fun ρ' hρ' => .pure ?_
  cases hρ'
  refine ⟨⟨?_, hstands₁.args, hstands₁.agrees.tail, ?_⟩, fun w hw => ?_, hkeeps⟩
  · simpa using hstands₁.index
  · obtain ⟨scope, outer, hscopes, rfl⟩ := ScopeTable.leave_ok hleave
    have hnames := hstands₁.names
    rw [ScopeTable.names, hscopes] at hnames
    exact hnames.tail
  · obtain ⟨t', hlast', hw⟩ := hvalue w hw
    rw [Option.or_none] at hlast'
    rcases hlast with ⟨_, hlast⟩ | ⟨_, hnone, _⟩
    · cases hlast.symm.trans hlast'
      exact hw
    · cases hnone.symm.trans hlast'

theorem follows_call {args : List Expr} (ih : FollowsItems address frees prog p n)
    (ihcalls : FollowsCalls address frees prog p n) : FollowsExpr address frees prog p (n + 1) (.call name args) := by
  intro sigs f full c c' t ρ a hlowered hset hsteady hstands
  cases hlowered with | strict _ ts c₁ hts hfinish
  cases hfinish with | call h _ _
  have hgrows := hts.grows.1
  have htemps : (c.temps : Int) ≤ c₁.temps := by exact_mod_cast hgrows.temps
  rw [eval]
  rw [Expr.steady] at hsteady
  refine .bind (ih hts hset.of_add hsteady hstands) fun ws ρ₁ a₁ hpost => ?_
  obtain ⟨hstands₁, hkeeps, rfl⟩ := hpost
  refine .args (by rw [hstands₁.args]; exact hset.code) hstands₁.index ?_
  rw [hstands₁.args, List.nil_append]
  have hcall : f.code[a₁.index + ts.length]? =
      some ⟨.call, some (.temp ⟨c₁.temps, lowerTy h.ret⟩), some (.func name),
      some (.const (.int (Int64.ofNat (ts.map fun t => a₁.store (.temp t)).length)))⟩ := by
    rw [hstands₁.index, List.length_map]
    exact getElem?_of_add hset.code (by simp [argInstrs_length])
  intro r hr
  cases hrun : Tree.run prog n name (ts.map fun t => a₁.store (.temp t)) with
  | none =>
    rw [hrun] at hr
    cases hr
  | some ending =>
    obtain ⟨g, hfunc, hinternal, hlength, hcallee⟩ := ihcalls hrun
    rw [hrun] at hr
    refine .call (Does.next? hcall (.call (by simp [Operand.isLength]))) hfunc hinternal hlength
      (fun junk => hcallee junk _) (fun v heap hshows => ?_) fun o heap hhalt hshows => ?_
    · cases ending with
      | exited code => cases hshows
      | returned v' =>
        obtain ⟨_, hv, hvalue⟩ := hshows
        cases hv
        cases hr
        refine .here ⟨v', ρ₁, rfl, .resume ?_ hstands₁.agrees hstands₁.names hkeeps htemps hvalue⟩
        simp [hstands₁.index, argInstrs_length, Nat.add_assoc]
    · cases ending with
      | returned v' =>
        obtain ⟨_, rfl, _⟩ := hshows
        cases hhalt
      | exited code =>
        cases hr
        exact ⟨_, rfl, hshows⟩

section Parts

variable (ih : FollowsExprs address frees prog p n)
include ih

variable {value test : Expr} {op : String}

variable {name : String} {left right yes no : Expr}

theorem follows_define {ty : Tree.Ty} :
    FollowsExpr address frees prog p (n + 1) (.define name ty value) := by
  intro sigs f full c c' t ρ a hlowered hset hsteady hstands
  cases hlowered with | strict _ _ c₁ hv hfinish
  cases hfinish with | define v storage scopes hdeclare
  have hdeclared : c₁.Grows c₁.labels { c₁ with scopes } [name] := .declare hdeclare
  rw [Expr.steady] at hsteady
  rw [eval]
  refine .bind (.word (ih hv (hset.of_add.before hdeclared) hsteady hstands)) fun w ρ₁ a₁ hdone => ?_
  have hcode : (c₁.add 0 0 [⟨.store, some (.var storage), some (.temp v), none⟩]).code.toList <+: f.code
      := hset.code
  refine .goto (Does.next? (hdone.stands.fetch hcode) .store)
    (.bindUpdate fun ρ' hρ' => .pure ?_)
  have hword : a₁.word address (.temp v) = w := hdone.value w rfl
  rw [hword]
  have hsame : ({ c₁ with scopes } : Context).code = c₁.code := rfl
  exact (hdone.store hsame (hdone.stands.agrees.bind? hdeclare hset.covers hset.apart hρ')
    (hset.covers.matches_bind? hdeclare hdone.stands.names hρ')).none_of

theorem follows_assign :
    FollowsExpr address frees prog p (n + 1) (.assign name value) := by
  intro sigs f full c c' t ρ a hlowered hset hsteady hstands
  cases hlowered with | strict _ _ c₁ hv hfinish
  cases hfinish with | assign v s hs
  rw [Expr.steady] at hsteady
  rw [eval]
  refine .bind (.word (ih hv hset.of_add hsteady hstands)) fun w ρ₁ a₁ hdone => ?_
  refine .goto (Does.next? (hdone.stands.fetch hset.code) .store)
    (.bindUpdate fun ρ' hρ' => .pure ?_)
  have hword : a₁.word address (.temp v) = w := hdone.value w rfl
  rw [hword]
  have hagrees := hdone.stands.agrees.set? hset.covers hdone.stands.names hset.apart (ScopeTable.lookup_ok hs) hρ'
  exact (hdone.store rfl hagrees.2 (hdone.stands.names.set? hρ')).none_of

theorem follows_unary {arg : Expr} : FollowsExpr address frees prog p (n + 1) (.unary op arg) := by
  intro sigs f full c c' t ρ a hlowered hset hsteady hstands
  cases hlowered with | strict _ _ c₁ hv hfinish
  have hset₁ := hset.operands hfinish
  rw [Expr.steady] at hsteady
  rw [eval]
  cases hfinish with
  | unary v code hcode hnone =>
    refine .bind (.word (ih hv hset₁ hsteady hstands)) fun x ρ₁ a₁ hdone => .bindOption fun w hw => ?_
    obtain ⟨heval, hcounts⟩ := value_of_unaryOp? a₁.heap hcode hw
    rw [← hdone.value x rfl] at heval
    rw [storeBack_eq hcounts, hnone]
    have htemps : (c.temps : Int) ≤ c₁.temps := by exact_mod_cast hv.expr_grows.1.temps
    exact .goto (Does.next? (hdone.stands.fetch hset.code) (.unary heval))
      (.pure (.put hdone.stands hdone.keeps htemps))
  | update v code name s hcode hname hs =>
    obtain rfl := updated?_eq_some hname
    refine .bind (.word (ih hv hset₁ hsteady hstands)) fun x ρ₁ a₁ hdone => .bindOption fun w hw => ?_
    obtain ⟨heval, hcounts⟩ := value_of_unaryOp? a₁.heap hcode hw
    rw [← hdone.value x rfl] at heval
    rw [storeBack_eq hcounts, hname]
    have htemps : (c.temps : Int) ≤ c₁.temps := by exact_mod_cast hv.expr_grows.1.temps
    refine .goto (Does.next? (hdone.stands.fetch hset.code) (.unary heval)) ?_
    rw [Context.add_cons] at hset ⊢
    have hput : Done full c (c₁.add 1 0 [⟨.unary code, some (.temp ⟨c₁.temps, resultTy (.unary code)⟩),
        some (.temp v),
        none⟩]) ⟨c₁.temps, resultTy (.unary code)⟩ a (some w) ρ₁
          (a₁.stepPut (some (.temp ⟨c₁.temps, resultTy (.unary code)⟩)) w) :=
      .put hdone.stands hdone.keeps htemps
    refine .goto (Does.next? (hput.stands.fetch hset.code) .store) (.bindUpdate fun ρ' hρ' => .pure ?_)
    have hword : Activation.word address (a₁.stepPut (some (.temp ⟨c₁.temps, resultTy (.unary code)⟩)) w)
        (.temp ⟨c₁.temps, resultTy (.unary code)⟩) = w := hput.value w rfl
    rw [hword]
    -- The operand is the variable itself, so nothing was declared in between.
    cases hv with | strict _ _ _ hnil hvar
    cases hvar with | var
    cases hnil
    have hagrees := hput.stands.agrees.set? hset.covers hput.stands.names hset.apart (ScopeTable.lookup_ok hs) hρ'
    exact hput.store rfl hagrees.2 (hput.stands.names.set? hρ')

theorem follows_binary (hop : ¬ (op = "&&" ∨ op = "||")) :
    FollowsExpr address frees prog p (n + 1) (.binary op left right) := by
  intro sigs f full c c' t ρ a hlowered hset hsteady hstands
  cases hlowered with
  | shortCircuit _ _ _ _ _ _ hshort => exact absurd hshort hop
  | strict _ _ c₂ hoperands hfinish
  cases hfinish with | binary l r code _ hcode
  cases hoperands with | @cons _ _ _ _ _ _ c₁ _ hl hr
  obtain ⟨hleft, hid⟩ := hl.expr_grows
  have hright := hr.expr_grows.1
  obtain ⟨hsteadyLeft, hsteadyRight, _⟩ := Expr.steady_binary.mp hsteady
  rw [eval]
  refine .bind (.word (ih hl (hset.of_add.before hright) hsteadyLeft hstands)) fun x ρ₁ a₁ hdone => ?_
  rw [if_neg fun h => hop (.inl h.1), if_neg fun h => hop (.inr h.1)]
  refine .bind (.word (ih hr (hset.of_add.behind hleft) hsteadyRight hdone.stands)) fun y ρ₂ a₂ hdone' => ?_
  rw [if_neg hop]
  refine .bindOption fun z hz => ?_
  -- The left value is still in its temporary behind the code of the right side.
  have hx : a₂.word address (.temp l) = x := (hdone'.keeps l hid).trans (hdone.value x rfl)
  have hy : a₂.word address (.temp r) = y := hdone'.value y rfl
  have htemps : (c.temps : Int) ≤ c₂.temps := by exact_mod_cast Nat.le_trans hleft.temps hright.temps
  have hput : Done full c (c₂.add 1 0 [⟨code, some (.temp ⟨c₂.temps, resultTy code⟩), some (.temp l),
      some (.temp r)⟩]) ⟨c₂.temps, resultTy code⟩ a (some z) ρ₂
        (a₂.stepPut (some (.temp ⟨c₂.temps, resultTy code⟩)) z) :=
    .put hdone'.stands (hdone.keeps.trans hdone'.keeps hleft.temps) htemps
  rcases value_of_binaryOp? hcode hz with ⟨o, rfl, hvalue⟩ | ⟨o, rfl, hvalue⟩
  · rw [← hx, ← hy] at hvalue
    exact .goto (Does.next? (hdone'.stands.fetch hset.code) (.binary hvalue)) (.pure hput)
  · refine .goto (Does.next? (hdone'.stands.fetch hset.code) .compare) ?_
    rw [hx, hy, hvalue]
    exact .pure hput

/-- The test decides between the label behind the loop and a round, which leads back to its start. -/
theorem follows_loop {body : Expr} : FollowsExpr address frees prog p (n + 1) (.loop test body) := by
  intro sigs f full c c' t ρ a hlowered hset hsteady hstands
  have hagain := hlowered
  cases hlowered with
  | strict _ _ _ _ hfinish => cases hfinish
  | loop b r _ c₁ c₂ hb hr
  have htest := hb.expr_grows.1
  have hbody := hr.expr_grows.1
  have hsteadyLoop := hsteady
  rw [Expr.steady, Bool.and_eq_true, Bool.and_eq_true, Tree.Names.spares_append] at hsteady
  obtain ⟨⟨hsteadyTest, hsteadyBody⟩, hspares, hsparesTest⟩ := hsteady
  have hlabels := htest.labels
  have htemps := htest.temps
  have htemps' := hbody.temps
  simp only [Context.add_labels, Context.add_temps] at hlabels htemps htemps'
  have htop : c.Grows c.labels (c.add 0 2 [labelInstr c.labels]) [] :=
    .addLabel (k := c.labels) (by simp [Places]) (Nat.le_refl _) (by omega)
  obtain ⟨hset₁, hbranch, hset₂⟩ := (hset.of_add.behind htop).split htest (.addPlain (by simp)) hr
  have hcode := (hset₁.before htest).code
  have hlacks : c₂.Lacks (c.labels + 1) := by
    have hlacks₀ := hset.neat (c.labels + 1) (by omega)
    have hlacks₁ : c₁.Lacks (c.labels + 1) :=
      (hlacks₀.addOther (j := c.labels) (by omega) (by simp [Places])).of_grows htest (.inl (by simp))
    exact (hlacks₁.addOther (j := c.labels) (by omega) (by simp)).of_grows hbody (.inl (by simp; omega))
  rw [eval]
  refine .goto (Does.next? (hstands.fetch hcode) .label) ?_
  have hfirst := ih hb hset₁ hsteadyTest hstands.step
  refine .bind (.word hfirst) fun x ρ₁ a₁ hdone => ?_
  have hx : a₁.word address (.temp b) = x := hdone.value x rfl
  split
  · next hzero =>
    obtain ⟨i, hi, hnext, hstands'⟩ := exists_landing address [_] hset.code hlacks
      (fun x hx => not_places (by obtain rfl := List.mem_singleton.mp hx; simp)) hdone.stands.args hdone.stands.agrees
      ((hbody.matches_iff hspares).mpr hdone.stands.names)
    exact .goto (Does.next? (hdone.stands.fetch hbranch) (.taken (hx.trans hzero) hi))
      (.goto hnext (.pure ⟨hstands', by simp, hdone.keeps⟩))
  · next hne =>
    refine .goto (Does.next? (hdone.stands.fetch hbranch) (.passed (hx.trans_ne hne))) ?_
    have hsecond := ih hr hset₂ hsteadyBody hdone.stands.step
    refine .bind hsecond fun v ρ₂ a₂ hdone' => ?_
    -- The jump back leads to where the loop started, with one step of evaluation less.
    have htopIndex : f.labelIndex? ("L" ++ toString c.labels) = some (c.code.size + 0) :=
      labelIndex?_of_add hcode (hset.neat c.labels (Nat.le_refl _)) rfl ⟨rfl, rfl⟩ (by simp)
    refine .goto (Does.next? (hdone'.stands.fetch hset.code) (.jump htopIndex)) ?_
    have hstart : Stands full c ρ₂ { a₂ with index := c.code.size + 0 } :=
      ⟨rfl, hdone'.stands.args, hdone'.stands.agrees,
        (htest.matches_iff hsparesTest).mp ((hbody.matches_iff hspares).mp hdone'.stands.names)⟩
    refine (ih hagain hset hsteadyLoop hstart).mono fun w ρ₃ a₃ hdone'' => ?_
    have hkeeps : Keeps c.temps a a₂ := hdone.keeps.trans hdone'.keeps htemps
    exact ⟨hdone''.stands, hdone''.value, hkeeps.trans hdone''.keeps (Nat.le_refl _)⟩

theorem follows_when (hno : no.isMissing = true) :
    FollowsExpr address frees prog p (n + 1) (.cond test yes no) := by
  intro sigs f full c c' t ρ a hlowered hset hsteady hstands
  cases hlowered with
  | strict _ _ _ _ hfinish => cases hfinish
  | cond _ _ _ _ _ _ _ hfalse => cases hfalse.symm.trans hno
  | when b y _ c₁ c₂ _ hb hy
  have htest := hb.expr_grows.1
  have hyes := hy.expr_grows.1
  obtain ⟨hset₁, hbranch, hset₂⟩ := hset.of_add.split htest (.addPlain (by simp)) hy
  have hlacks : c₂.Lacks c₁.labels :=
    (((hset.neat.of_grows htest) c₁.labels (Nat.le_refl _)).addOther (j := c₁.labels + 1) (by omega)
      (by simp)).of_grows hyes (.inl (by simp))
  obtain ⟨hsteadyTest, hsteadyYes, _, _, hspares⟩ := Expr.steady_cond.mp hsteady
  rw [eval]
  refine .bind (.word (ih hb hset₁ hsteadyTest hstands)) fun x ρ₁ a₁ hdone => ?_
  have hx : a₁.word address (.temp b) = x := hdone.value x rfl
  split
  · next hne =>
    refine .goto (Does.next? (hdone.stands.fetch hbranch) (.passed (hx.trans_ne hne))) ?_
    have hsecond := ih hy hset₂ hsteadyYes hdone.stands.step
    refine .bind hsecond fun v ρ₂ a₂ hdone' => ?_
    refine .goto (Does.next? (hdone'.stands.fetch hset.code) .label) (.pure ⟨hdone'.stands.step, nofun, ?_⟩)
    exact hdone.keeps.trans hdone'.keeps htest.temps
  · next hzero =>
    obtain ⟨i, hi, hnext, hstands'⟩ := exists_landing address [] hset.code hlacks (by simp)
      hdone.stands.args hdone.stands.agrees ((hyes.matches_iff hspares).mpr hdone.stands.names)
    exact .goto (Does.next? (hdone.stands.fetch hbranch) (.taken (hx.trans (Decidable.not_not.mp hzero)) hi))
      (.goto hnext (.pure ⟨hstands', nofun, hdone.keeps⟩))

/-- Whichever branch runs, its value is moved to the one temporary that both are joined in. -/
theorem follows_cond (hno : no.isMissing = false) :
    FollowsExpr address frees prog p (n + 1) (.cond test yes no) := by
  intro sigs f full c c' t ρ a hlowered hset hsteady hstands
  cases hlowered with
  | strict _ _ _ _ hfinish => cases hfinish
  | when _ _ _ _ _ htrue => cases htrue.symm.trans hno
  | cond b y z _ c₁ c₂ c₃ _ hb hy hz
  have htest := hb.expr_grows.1
  have hyes := hy.expr_grows.1
  have hno' := hz.expr_grows.1
  obtain ⟨hsteadyTest, hsteadyYes, hsteadyNo, hsparesNo, hsparesYes⟩ := Expr.steady_cond.mp hsteady
  have hlabels := htest.labels
  have hlabels' := hyes.labels
  have htemps := htest.temps
  have htemps' := hyes.temps
  simp only [Context.add_labels, Context.add_temps] at hlabels' htemps'
  have hresult : (c.temps : Int) ≤ c₂.temps := by exact_mod_cast Nat.le_trans htemps htemps'
  obtain ⟨⟨hset₁, hbranch, hset₂⟩, hswitch, hset₃⟩ := hset.of_add.arms hb hy hz
  have hneat := hset.neat.of_grows htest
  have hlacks : c₂.Lacks c₁.labels :=
    ((hneat c₁.labels (Nat.le_refl _)).addOther (j := c₁.labels + 1) (by omega) (by simp)).of_grows hyes
      (.inl (by simp))
  have hlacks' : c₃.Lacks (c₁.labels + 1) := by
    have hlacks₂ : c₂.Lacks (c₁.labels + 1) :=
      ((hneat (c₁.labels + 1) (by omega)).addOther (j := c₁.labels) (by omega) (by simp)).of_grows hyes
        (.inl (by simp))
    exact (hlacks₂.addOther (j := c₁.labels) (by omega) (by simp [Places])).of_grows hno' (.inl (by simp; omega))
  rw [eval]
  refine .bind (.word (ih hb hset₁ hsteadyTest hstands)) fun x ρ₁ a₁ hdone => ?_
  have hx : a₁.word address (.temp b) = x := hdone.value x rfl
  split
  · next hne =>
    refine .goto (Does.next? (hdone.stands.fetch hbranch) (.passed (hx.trans_ne hne))) ?_
    have hsecond := ih hy hset₂ hsteadyYes hdone.stands.step
    refine .bind hsecond fun v ρ₂ a₂ hdone' => ?_
    rw [if_neg (by simp [hno])]
    have hcode := hswitch
    rw [Context.add_cons] at hcode
    refine .goto (Does.next? (hdone'.stands.fetch hswitch) .move) ?_
    have hput : Stands full (c₂.add 1 0 [moveInstr ⟨c₂.temps, y.ty⟩ (.temp y)]) ρ₂
        (a₂.stepPut (some (.temp ⟨c₂.temps, y.ty⟩)) (a₂.word address (.temp y))) := hdone'.stands.stepPut_temp
    obtain ⟨i, hi, hnext, hstands'⟩ := exists_landing address [_] hset.code hlacks'
      (fun x hx => not_places (by obtain rfl := List.mem_singleton.mp hx; simp)) hput.args hput.agrees
      ((hno'.matches_iff hsparesNo).mpr hput.names)
    refine .goto (Does.next? (hput.fetch hcode) (.jump hi)) (.goto hnext (.pure ⟨hstands', fun w hw => ?_, ?_⟩))
    · exact (Store.put_same ..).trans (hdone'.value w hw)
    · exact (hdone.keeps.trans hdone'.keeps htemps).stepPut_temp hresult
  · next hzero =>
    rw [if_neg (by simp [hno])]
    obtain ⟨i, hi, hnext, hstands'⟩ := exists_landing address [_, _] hswitch hlacks
      (by simp [Places]) hdone.stands.args hdone.stands.agrees
      ((hyes.matches_iff hsparesYes).mpr hdone.stands.names)
    refine .goto (Does.next? (hdone.stands.fetch hbranch) (.taken (hx.trans (Decidable.not_not.mp hzero)) hi))
      (.goto hnext ?_)
    have hthird := ih hz hset₃ hsteadyNo hstands'
    refine Follows.andThen hthird fun v ρ₂ a₂ hdone' => ?_
    refine .goto (Does.next? (hdone'.stands.fetch hset.code) .move) ?_
    have hcode := hset.code
    rw [Context.add_cons] at hcode ⊢
    have hput : Stands full (c₃.add 0 0 [moveInstr ⟨c₂.temps, y.ty⟩ (.temp z)]) ρ₂
        (a₂.stepPut (some (.temp ⟨c₂.temps, y.ty⟩)) (a₂.word address (.temp z))) := hdone'.stands.stepPut_temp
    refine .goto (Does.next? (hput.fetch hcode) .label) (.pure ⟨hput.step, fun w hw => ?_, ?_⟩)
    · exact (Store.put_same ..).trans (hdone'.value w hw)
    · have hkeeps : Keeps c.temps a a₂ := hdone.keeps.trans hdone'.keeps (by simp; omega)
      exact hkeeps.stepPut_temp hresult

/-- The right operand runs only if the left one has not decided the result. -/
theorem follows_shortCircuit (hop : op = "&&" ∨ op = "||") :
    FollowsExpr address frees prog p (n + 1) (.binary op left right) := by
  intro sigs f full c c' t ρ a hlowered hset hsteady hstands
  cases hlowered with
  | strict _ _ _ _ hfinish =>
    cases hfinish with | binary _ _ _ hstrict
    exact absurd hop hstrict
  | shortCircuit l r _ c₁ c₂ i _ hi hl hr
  have hleft := hl.expr_grows.1
  have hright := hr.expr_grows.1
  obtain ⟨hsteadyLeft, hsteadyRight, hspares⟩ := Expr.steady_binary.mp hsteady
  have hspares := hspares hop
  have hlabels := hleft.labels
  have htemps := hleft.temps
  simp only [Context.add_labels, Context.add_temps] at hlabels htemps
  have hstart : c.Grows c.labels (c.add 1 1 []) [] := .addPlain (by simp)
  obtain ⟨hset₁, hmiddle, hset₂⟩ := (hset.of_add.behind hstart).split hleft
      (.shortCircuit hi (by simp; omega)) hr
  have hlacks : c₂.Lacks c.labels := by
    have hlacks₁ : c₁.Lacks c.labels :=
      ((hset.neat c.labels (Nat.le_refl _)).add (by simp)).of_grows hleft (.inl (by simp))
    exact (shortCircuit_truth_lacks hlacks₁ (by omega)).of_grows hright (.inl (by simp; omega))
  have hfirst := ih hl hset₁ hsteadyLeft (hstands.of_code (by simp [Context.add]) rfl)
  rw [eval]
  refine .bind (.word hfirst) fun x ρ₁ a₁ hdone => ?_
  have hkeeps : Keeps c.temps a a₁ := fun s hs => hdone.keeps s (by simp; omega)
  refine follows_decision (by tauto) hmiddle ?_ hdone.stands (hdone.value x rfl) ?_ fun a₂ hstands₂ hstore => ?_
  · exact ((hset.behind hstart).behind hleft).neat _ (Nat.le_refl _)
  · have hput : Stands full (c₁.add 0 0 [truthInstr ⟨c.temps, .bool⟩ l]) ρ₁
        (a₁.stepPut (some (.temp ⟨c.temps, .bool⟩)) (truth (x ≠ 0))) := hdone.stands.stepPut_temp
    obtain ⟨i, hi, hnext, hstands'⟩ := exists_landing address [_] hset.code hlacks
      (fun x hx => not_places (by obtain rfl := List.mem_singleton.mp hx; simp [truthInstr])) hput.args hput.agrees
      ((hright.matches_iff hspares).mpr hput.names)
    refine ⟨i, hi, .goto hnext (.pure ⟨hstands', fun w hw => ?_, hkeeps.stepPut_temp (Int.le_refl _)⟩)⟩
    cases hw
    exact Store.put_same ..
  · have hsecond := ih hr hset₂ hsteadyRight hstands₂
    refine .bind (.word hsecond) fun y ρ₂ a₃ hdone' => ?_
    rw [if_pos hop]
    have hkeeps₂ : Keeps c.temps a a₂ := fun s hs => by
      rw [hstore]
      exact hkeeps.stepPut_temp (Int.le_refl _) s hs
    have hkeeps₃ : Keeps c.temps a a₃ := hkeeps₂.trans hdone'.keeps (by simp; omega)
    refine .goto (next?_truthInstr hdone'.stands (hdone'.value y rfl) hset.code) ?_
    have hput : Done full c (c₂.add 0 0 [truthInstr ⟨c.temps, .bool⟩ r]) ⟨c.temps, .bool⟩ a
        (some (truth (y ≠ 0))) ρ₂
        (a₃.stepPut (some (.temp ⟨c.temps, .bool⟩)) (truth (y ≠ 0))) :=
      .put hdone'.stands hkeeps₃ (Int.le_refl _)
    have hcode := hset.code
    rw [Context.add_cons] at hcode ⊢
    exact .goto (Does.next? (hput.stands.fetch hcode) .label) (.pure ⟨hput.stands.step, hput.value, hput.keeps⟩)

theorem follows_ret : FollowsExpr address frees prog p (n + 1) (.ret value) := by
  intro sigs f full c c' t ρ a hlowered hset hsteady hstands
  cases hlowered with | strict _ _ c₁ hv hfinish
  rw [Expr.steady] at hsteady
  rw [eval]
  cases hfinish with
  | retNothing hmissing =>
    cases hv
    rw [if_pos hmissing]
    exact .finish (.ret (Does.next? (hstands.fetch hset.code) .ret) fun w _ => ⟨w, rfl, by simp⟩)
  | ret v hpresent =>
    rw [if_neg (by simp [hpresent])]
    refine .bind (ih hv hset.of_add hsteady hstands) fun v' ρ₁ a₁ hdone => .finish ?_
    refine .ret (Does.next? (hdone.stands.fetch hset.code) .ret) fun w hw => ⟨w, rfl, fun x hx => ?_⟩
    exact (hw _ rfl).trans (hdone.value x hx)

theorem follows_exit {code : Expr} : FollowsExpr address frees prog p (n + 1) (.exit code) := by
  intro sigs f full c c' t ρ a hlowered hset hsteady hstands
  cases hlowered with | strict _ _ c₁ hv hfinish
  rw [Expr.steady] at hsteady
  rw [eval]
  cases hfinish with
  | exitNothing hmissing =>
    cases hv
    rw [if_pos hmissing]
    exact .finish (.halt (Does.next? (hstands.fetch hset.code) .exit) rfl)
  | exit v hpresent =>
    rw [if_neg (by simp [hpresent])]
    refine .bind (.word (ih hv hset.of_add hsteady hstands)) fun w ρ₁ a₁ hdone => .finish ?_
    exact .halt (Does.next? (hdone.stands.fetch hset.code) .exit) (congrArg _ (hdone.value w rfl))

theorem follows_stmts (ihstmts : FollowsStmts address frees prog p n) : FollowsStmts address frees prog p (n + 1) := by
  intro sigs es f full c c' ts last v ρ a hlowered hset hsteady hstands hlast
  cases es with
  | nil =>
    cases hlowered
    exact .pure ⟨hstands, .refl _ _, hlast⟩
  | cons e es =>
    obtain ⟨t, c₁, ts, ht, hrest, rfl⟩ := hlowered.uncons
    have hfirst := ht.expr_grows.1
    rw [steadyAll, Bool.and_eq_true] at hsteady
    rw [evalStmts]
    refine .bind (ih ht (hset.before hrest.grows.1) hsteady.1 hstands) fun v ρ₁ a₁ hdone => ?_
    have hlast' : HoldsLast (some t) v a₁ := fun w hw => ⟨t, rfl, hdone.value w hw⟩
    refine (ihstmts hrest (hset.behind hfirst) hsteady.2 hdone.stands hlast').mono ?_
    rintro v' ρ₂ a₂ ⟨hstands₂, hkeeps, hholds⟩
    refine ⟨hstands₂, hdone.keeps.trans hkeeps hfirst.temps, ?_⟩
    rw [List.getLast?_cons]
    cases hts : ts.getLast? with
    | none => simpa [hts] using hholds
    | some t' => simpa [hts] using hholds

theorem follows_items (ihitems : FollowsItems address frees prog p n) : FollowsItems address frees prog p (n + 1) := by
  intro sigs es f full c c' ts ρ a hlowered hset hsteady hstands
  cases es with
  | nil =>
    cases hlowered
    exact .pure ⟨hstands, .refl _ _, rfl⟩
  | cons e es =>
    obtain ⟨t, c₁, ts, ht, hrest, rfl⟩ := hlowered.uncons
    obtain ⟨hfirst, hid⟩ := ht.expr_grows
    rw [steadyAll, Bool.and_eq_true] at hsteady
    rw [evalItems]
    refine .bind (.word (ih ht (hset.before hrest.grows.1) hsteady.1 hstands)) fun w ρ₁ a₁ hdone => ?_
    refine .bind (ihitems hrest (hset.behind hfirst) hsteady.2 hdone.stands) fun ws ρ₂ a₂ hpost => .pure ?_
    obtain ⟨hstands₂, hkeeps, rfl⟩ := hpost
    refine ⟨hstands₂, hdone.keeps.trans hkeeps hfirst.temps, ?_⟩
    rw [List.map_cons, hkeeps t hid, hdone.value w rfl]

theorem follows_exprs (ihstmts : FollowsStmts address frees prog p n)
    (ihitems : FollowsItems address frees prog p n) (ihcalls : FollowsCalls address frees prog p n) :
    FollowsExprs address frees prog p (n + 1) := by
  intro e
  cases e with
  | literal l => exact follows_literal
  | var name => exact follows_var
  | define name ty value => exact follows_define ih
  | assign name value => exact follows_assign ih
  | binary op left right =>
    by_cases hop : op = "&&" ∨ op = "||"
    · exact follows_shortCircuit ih hop
    · exact follows_binary ih hop
  | unary op arg => exact follows_unary ih
  | cond test yes no =>
    cases hno : no.isMissing with
    | true => exact follows_when ih hno
    | false => exact follows_cond ih hno
  | loop test body => exact follows_loop ih
  | block body => exact follows_block ihstmts
  | call name args => exact follows_call ihitems ihcalls
  | ret value => exact follows_ret ih
  | exit code => exact follows_exit ih
  | _ => exact fun _ _ _ _ => .stuck

end Parts

end TreeCompiler.Lower
