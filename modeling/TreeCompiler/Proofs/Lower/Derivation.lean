import TreeCompiler.Proofs.Lower.Steps
import TreeCompiler.Proofs.Tree.Nodes

namespace TreeCompiler.Lower

open Code
open TreeCompiler.Tree (Expr Literal Header)

/-- Hands out temporaries and labels and appends code. -/
def Context.add (c : Context) (temps labels : Nat) (xs : List Instr) : Context :=
  { c with temps := c.temps + temps, labels := c.labels + labels, code := c.code ++ xs }

namespace Context

variable (c : Context) (m n m' n' : Nat) (xs ys : List Instr)

@[simp] theorem add_scopes : (c.add m n xs).scopes = c.scopes := rfl

@[simp] theorem add_temps : (c.add m n xs).temps = c.temps + m := rfl

@[simp] theorem add_labels : (c.add m n xs).labels = c.labels + n := rfl

@[simp] theorem add_pool : (c.add m n xs).pool = c.pool := rfl

@[simp] theorem toList_add_code : (c.add m n xs).code.toList = c.code.toList ++ xs := by
  simp [add]

@[simp] theorem size_add_code : (c.add m n xs).code.size = c.code.size + xs.length := by
  rw [← Array.length_toList, toList_add_code, List.length_append, Array.length_toList]

theorem add_add : (c.add m n xs).add m' n' ys = c.add (m + m') (n + n') (xs ++ ys) := by
  have hcode : c.code ++ xs ++ ys = c.code ++ (xs ++ ys) := Array.toList_inj.mp (by simp)
  simp [add, Nat.add_assoc, hcode]

theorem add_cons (x : Instr) : c.add m n (x :: xs) = (c.add m n [x]).add 0 0 xs := by
  rw [add_add]
  rfl

theorem add_code : (c.add m n xs).add 0 0 ys = c.add m n (xs ++ ys) :=
  c.add_add ..

theorem add_nothing : c.add 0 0 [] = c := by
  simp [add]

end Context

/-- Whatever a computation returns and the context that it leaves are related. -/
def LowerM.Yields {α : Type} (m : LowerM α) (c : Context) (Q : α → Context → Prop) : Prop :=
  ∀ ⦃a c'⦄, m c = .ok (a, c') → Q a c'

namespace LowerM.Yields

variable {α β : Type} {m : LowerM α} {k : α → LowerM β} {c : Context} {P Q : α → Context → Prop}
  {R : β → Context → Prop} {temps labels : Nat} {xs : List Instr}

theorem bind (hm : m.Yields c P) (hk : ∀ a c₁, P a c₁ → (k a).Yields c₁ R) : (m >>= k).Yields c R := by
  intro b c' hrun
  obtain ⟨a, c₁, ha, hb⟩ := bind_eq_ok_iff.mp hrun
  exact hk a c₁ (hm ha) hb

theorem mono (hm : m.Yields c P) (himp : ∀ a c', P a c' → Q a c') : m.Yields c Q :=
  fun a c' hrun => himp a c' (hm hrun)

theorem pure {a : α} (hQ : Q a c) : (pure a : LowerM α).Yields c Q := by
  intro b c' hrun
  obtain ⟨rfl, rfl⟩ := pure_eq_ok_iff.mp hrun
  exact hQ

theorem within {place : Place} (hm : m.Yields c Q) : (within place m).Yields c Q :=
  fun _ _ hrun => hm (within_eq_ok_iff.mp hrun)

theorem fail {cause : Cause} : (fail cause : LowerM α).Yields c Q :=
  fun _ _ hrun => (fail_ne_ok c hrun).elim

theorem lookup {name : String} {k : Symbol → LowerM β}
    (hk : ∀ s, c.scopes.lookup name = .ok s → (k s).Yields c R) : (lookup name >>= k).Yields c R := by
  refine bind (P := fun s c₁ => c.scopes.lookup name = .ok s ∧ c₁ = c)
    (fun _ _ hrun => lookup_eq_ok_iff.mp hrun) ?_
  rintro s _ ⟨hs, rfl⟩
  exact hk s hs

/-- Nothing was added yet. -/
theorem start (hm : m.Yields (c.add 0 0 []) Q) : m.Yields c Q :=
  c.add_nothing ▸ hm

theorem last {ty : Code.Ty} {Q : Temp → Context → Prop}
    (hQ : Q ⟨(c.temps + temps : Nat), ty⟩ (c.add (temps + 1) labels xs)) :
    (temp ty).Yields (c.add temps labels xs) Q := by
  intro t c' hrun
  obtain ⟨rfl, rfl⟩ := temp_eq_ok_iff.mp hrun
  exact hQ

theorem temp {ty : Code.Ty} {k : Temp → LowerM β}
    (hk : (k ⟨(c.temps + temps : Nat), ty⟩).Yields (c.add (temps + 1) labels xs) R) :
    (temp ty >>= k).Yields (c.add temps labels xs) R :=
  hk

theorem label {k : String → LowerM β}
    (hk : (k ("L" ++ toString (c.labels + labels))).Yields (c.add temps (labels + 1) xs) R) :
    (label >>= k).Yields (c.add temps labels xs) R :=
  hk

theorem emit {op : Op} {dst src1 src2 : Option Operand} {k : Unit → LowerM β}
    (hk : (k ()).Yields (c.add temps labels (xs ++ [⟨op, dst, src1, src2⟩])) R) :
    (emit op dst src1 src2 >>= k).Yields (c.add temps labels xs) R := by
  refine bind (P := fun _ c₁ => c₁ = (c.add temps labels xs).add 0 0 [⟨op, dst, src1, src2⟩])
    (fun _ _ hrun => ?_) ?_
  · rw [emit_eq_ok_iff.mp hrun]
    simp [Context.add]
  · rintro _ _ rfl
    rwa [Context.add_code]

theorem emitArgs {ts : List Temp} {k : Unit → LowerM β}
    (hk : (k ()).Yields (c.add temps labels (xs ++ argInstrs 0 ts)) R) :
    (emitArgs 0 ts >>= k).Yields (c.add temps labels xs) R := by
  refine bind (fun _ _ hrun => emitArgs_eq_ok_iff.mp hrun) ?_
  rintro _ _ rfl
  rwa [← Context.add_code] at hk

end LowerM.Yields

/-- The instruction that makes a truth value of a word. -/
def truthInstr (result t : Temp) : Instr :=
  ⟨.compare .ne, some (.temp result), some (.temp t), some (.const (.int 0))⟩

/-- The instruction that gives a temporary a value. -/
abbrev moveInstr (t : Temp) (o : Operand) : Instr :=
  ⟨.move, some (.temp t), some o, none⟩

/-- The instruction that places a generated label. -/
abbrev labelInstr (k : Nat) : Instr :=
  ⟨.label, some (.label ("L" ++ toString k)), none, none⟩

/-- The instruction that goes to a generated label. -/
abbrev jumpInstr (k : Nat) : Instr :=
  ⟨.jump, some (.label ("L" ++ toString k)), none, none⟩

/-- The instruction that leads around code if a condition does not hold. -/
abbrev branchInstr (k : Nat) (b : Temp) : Instr :=
  ⟨.jumpIfFalse, some (.label ("L" ++ toString k)), some (.temp b), none⟩

/-- How a short-circuit operator goes on behind its left side: `done` is the label behind the right
    side, and `other` is free. -/
def shortCircuit (op : String) (result : Temp) (done other : String) : List Instr :=
  if op = "&&" then [⟨.jumpIfFalse, some (.label done), some (.temp result), none⟩]
  else [⟨.jumpIfFalse, some (.label other), some (.temp result), none⟩,
    ⟨.jump, some (.label done), none, none⟩, ⟨.label, some (.label other), none, none⟩]

/-- The code between the sides of a short-circuit operator. -/
abbrev decisionInstrs (op : String) (result l : Temp) (done other : Nat) : List Instr :=
  truthInstr result l :: shortCircuit op result ("L" ++ toString done) ("L" ++ toString other)

theorem mem_of_lookup {α : Type} {table : List (String × α)} {key : String} {a : α}
    (hlookup : table.lookup key = some a) : (key, a) ∈ table := by
  obtain ⟨before, behind, rfl, _⟩ := List.lookup_eq_some_iff.mp hlookup
  simp

theorem cases_of_binaryOp? {op : String} {code : Op} (hop : binaryOp? op = some code) :
    (∃ o, code = .binary o) ∨ ∃ o, code = .compare o := by
  have hmem := mem_of_lookup hop
  cases code <;> simp at hmem ⊢

theorem updated?_eq_some {code : Code.UnaryOp} {arg : Expr} {name : String}
    (hname : updated? code arg = some name) : arg = .var name := by
  unfold updated? at hname
  split at hname
  · cases hname
    rfl
  · cases hname
    rfl
  · cases hname

variable {sigs : Signatures} {c c' : Context} {t : Temp}

section Derivations

variable (sigs)

/-- How the code of an expression goes on behind the code of its operands, whose values are in some
    temporaries. -/
inductive Finishes : Expr → List Expr → List Temp → Context → Temp → Context → Prop
  | void {c : Context} : Finishes (.literal .void) [] [] c ⟨c.temps, .void⟩ (c.add 1 0 [])
  | constant {l : Literal} {c : Context} (k : Const) (hconst : const? l = some k) :
    Finishes (.literal l) [] [] c ⟨c.temps, k.ty⟩
      { c.add 1 0 [moveInstr ⟨c.temps, k.ty⟩ (.const k)] with pool := c.pool.push k }
  | var {name : String} {c : Context} (s : Symbol) (hlookup : c.scopes.lookup name = .ok s) :
    Finishes (.var name) [] [] c ⟨c.temps, s.ty⟩
      (c.add 1 0 [⟨.load, some (.temp ⟨c.temps, s.ty⟩), some (.var s.storage), none⟩])
  | define {name : String} {ty : Tree.Ty} {value : Expr} {c : Context} (v : Temp) (storage : String)
    (scopes : ScopeTable) (hdeclare : c.scopes.declare name (lowerTy ty) = .ok (storage, scopes)) :
    Finishes (.define name ty value) [value] [v] c ⟨c.temps, .void⟩
      ({ c with scopes }.add 1 0 [⟨.store, some (.var storage), some (.temp v), none⟩])
  | assign {name : String} {value : Expr} {c : Context} (v : Temp) (s : Symbol)
    (hlookup : c.scopes.lookup name = .ok s) :
    Finishes (.assign name value) [value] [v] c ⟨c.temps, .void⟩
      (c.add 1 0 [⟨.store, some (.var s.storage), some (.temp v), none⟩])
  | array {elems : List Expr} {ts : List Temp} {c : Context} :
    Finishes (.array elems) elems ts c ⟨c.temps, .array⟩ (c.add 1 0 (argInstrs 0 ts ++
      [⟨.array, some (.temp ⟨c.temps, .array⟩), some (.const (.int (Int64.ofNat ts.length))), none⟩]))
  | call {name : String} {args : List Expr} {ts : List Temp} {c : Context} (h : Header)
    (hheader : sigs.lookup name = some h) (hcount : args.length = h.params.length) :
    Finishes (.call name args) args ts c ⟨c.temps, lowerTy h.ret⟩ (c.add 1 0 (argInstrs 0 ts ++
      [⟨.call, some (.temp ⟨c.temps, lowerTy h.ret⟩), some (.func name),
        some (.const (.int (Int64.ofNat ts.length)))⟩]))
  | binary {op : String} {left right : Expr} {c : Context} (l r : Temp) (code : Op)
    (hop : ¬ (op = "&&" ∨ op = "||")) (hcode : binaryOp? op = some code) :
    Finishes (.binary op left right) [left, right] [l, r] c ⟨c.temps, resultTy code⟩
      (c.add 1 0 [⟨code, some (.temp ⟨c.temps, resultTy code⟩), some (.temp l), some (.temp r)⟩])
  | unary {op : String} {arg : Expr} {c : Context} (a : Temp) (code : Code.UnaryOp)
    (hcode : unaryOp? op = some code) (hnone : updated? code arg = none) :
    Finishes (.unary op arg) [arg] [a] c ⟨c.temps, resultTy (.unary code)⟩
      (c.add 1 0 [⟨.unary code, some (.temp ⟨c.temps, resultTy (.unary code)⟩), some (.temp a), none⟩])
  | update {op : String} {arg : Expr} {c : Context} (a : Temp) (code : Code.UnaryOp) (name : String) (s : Symbol)
    (hcode : unaryOp? op = some code) (hname : updated? code arg = some name)
    (hlookup : c.scopes.lookup name = .ok s) :
    Finishes (.unary op arg) [arg] [a] c ⟨c.temps, resultTy (.unary code)⟩
      (c.add 1 0 [⟨.unary code, some (.temp ⟨c.temps, resultTy (.unary code)⟩), some (.temp a), none⟩,
        ⟨.store, some (.var s.storage), some (.temp ⟨c.temps, resultTy (.unary code)⟩), none⟩])
  | retNothing {value : Expr} {c : Context} (hmissing : value.isMissing = true) :
    Finishes (.ret value) [] [] c ⟨(c.temps + 1 : Nat), .void⟩
      (c.add 2 0 [⟨.ret, none, some (.temp ⟨c.temps, .void⟩), none⟩])
  | ret {value : Expr} {c : Context} (v : Temp) (hpresent : value.isMissing = false) :
    Finishes (.ret value) [value] [v] c ⟨c.temps, .void⟩ (c.add 1 0 [⟨.ret, none, some (.temp v), none⟩])
  | exitNothing {code : Expr} {c : Context} (hmissing : code.isMissing = true) :
    Finishes (.exit code) [] [] c ⟨c.temps, .void⟩ (c.add 1 0 [⟨.exit, none, some (.const (.int 0)), none⟩])
  | exit {code : Expr} {c : Context} (v : Temp) (hpresent : code.isMissing = false) :
    Finishes (.exit code) [code] [v] c ⟨c.temps, .void⟩ (c.add 1 0 [⟨.exit, none, some (.temp v), none⟩])
  | index {target position : Expr} {c : Context} (a i : Temp) :
    Finishes (.index target position) [target, position] [a, i] c ⟨c.temps, .number⟩
      (c.add 1 0 [⟨.index, some (.temp ⟨c.temps, .number⟩), some (.temp a), some (.temp i)⟩])
  | setIndex {target position value : Expr} {c : Context} (a i v : Temp) :
    Finishes (.setIndex target position value) [target, position, value] [a, i, v] c ⟨c.temps, .void⟩
      (c.add 1 0 [⟨.setIndex, some (.temp a), some (.temp i), some (.temp v)⟩])
  | label {name : String} {c : Context} :
    Finishes (.label name) [] [] c ⟨c.temps, .void⟩ (c.add 1 0 [⟨.label, some (userLabel name), none, none⟩])
  | goto {name : String} {c : Context} :
    Finishes (.goto name) [] [] c ⟨c.temps, .void⟩ (c.add 1 0 [⟨.jump, some (userLabel name), none, none⟩])

/-- Expressions are lowered one after another, from a context to another one, and their values are
    in some temporaries. -/
inductive Lowered : List Expr → Context → List Temp → Context → Prop
  | nil {c : Context} : Lowered [] c [] c
  | cons {e e' : Expr} {es : List Expr} {t : Temp} {ts : List Temp} {c c₁ c' : Context}
    (hfirst : Lowered [e] c [t] c₁) (hrest : Lowered (e' :: es) c₁ ts c') : Lowered (e :: e' :: es) c (t :: ts) c'
  | strict {e : Expr} {t : Temp} {c c' : Context} (es : List Expr) (ts : List Temp) (c₁ : Context)
    (hoperands : Lowered es c ts c₁) (hfinish : Finishes sigs e es ts c₁ t c') : Lowered [e] c [t] c'
  | block {body : List Expr} {t : Temp} (ts : List Temp) (c c₁ : Context) (scopes : ScopeTable) (n : Nat)
    (hbody : Lowered body { c with scopes := c.scopes.enter } ts c₁) (hleave : c₁.scopes.leave = .ok scopes)
    (hlast : n = 0 ∧ ts.getLast? = some t ∨ n = 1 ∧ ts.getLast? = none ∧ t = ⟨c₁.temps, .void⟩) :
    Lowered [.block body] c [t] ({ c₁ with scopes }.add n 0 [])
  | shortCircuit {op : String} {left right : Expr} (l r : Temp) (c c₁ c₂ : Context) (n : Nat)
    (hop : op = "&&" ∨ op = "||") (hn : op = "&&" ∧ n = 0 ∨ op ≠ "&&" ∧ n = 1)
    (hleft : Lowered [left] (c.add 1 1 []) [l] c₁)
    (hright : Lowered [right] (c₁.add 0 n (decisionInstrs op ⟨c.temps, .bool⟩ l c.labels c₁.labels)) [r] c₂) :
    Lowered [.binary op left right] c [⟨c.temps, .bool⟩]
      (c₂.add 0 0 [truthInstr ⟨c.temps, .bool⟩ r, labelInstr c.labels])
  | when {test yes no : Expr} (b y : Temp) (c c₁ c₂ : Context) (hno : no.isMissing = true)
    (htest : Lowered [test] c [b] c₁) (hyes : Lowered [yes] (c₁.add 0 1 [branchInstr c₁.labels b]) [y] c₂) :
    Lowered [.cond test yes no] c [⟨c₂.temps, .void⟩] (c₂.add 1 0 [labelInstr c₁.labels])
  | cond {test yes no : Expr} (b y z : Temp) (c c₁ c₂ c₃ : Context) (hno : no.isMissing = false)
    (htest : Lowered [test] c [b] c₁) (hyes : Lowered [yes] (c₁.add 0 2 [branchInstr c₁.labels b]) [y] c₂)
    (hother : Lowered [no] (c₂.add 1 0 [moveInstr ⟨c₂.temps, y.ty⟩ (.temp y),
      jumpInstr (c₁.labels + 1), labelInstr c₁.labels]) [z] c₃) :
    Lowered [.cond test yes no] c [⟨c₂.temps, y.ty⟩]
      (c₃.add 0 0 [moveInstr ⟨c₂.temps, y.ty⟩ (.temp z),
        labelInstr (c₁.labels + 1)])
  | loop {test body : Expr} (b r : Temp) (c c₁ c₂ : Context)
    (htest : Lowered [test] (c.add 0 2 [labelInstr c.labels]) [b] c₁)
    (hbody : Lowered [body] (c₁.add 0 0 [branchInstr (c.labels + 1) b]) [r] c₂) :
    Lowered [.loop test body] c [⟨c₂.temps, .void⟩] (c₂.add 1 0 [jumpInstr c.labels, labelInstr (c.labels + 1)])

end Derivations

variable {e : Expr} {es : List Expr} {ts : List Temp}

theorem Lowered.prepend {c₁ : Context}
    (hfirst : Lowered sigs [e] c [t] c₁) (hrest : Lowered sigs es c₁ ts c') :
    Lowered sigs (e :: es) c (t :: ts) c' := by
  cases es with
  | nil =>
    cases hrest
    exact hfirst
  | cons e' es => exact .cons hfirst hrest

theorem Lowered.uncons (hlowered : Lowered sigs (e :: es) c ts c') :
    ∃ t c₁ ts', Lowered sigs [e] c [t] c₁ ∧ Lowered sigs es c₁ ts' c' ∧ ts = t :: ts' := by
  cases es with
  | nil =>
    obtain ⟨t, rfl⟩ : ∃ t, ts = [t] := by cases hlowered <;> exact ⟨_, rfl⟩
    exact ⟨t, c', [], hlowered, .nil, rfl⟩
  | cons e' es =>
    cases hlowered with | cons hfirst hrest
    exact ⟨_, _, _, hfirst, hrest, rfl⟩

theorem Finishes.nodes (hfinish : Finishes sigs e es ts c t c') :
    e.nodes = e :: Tree.nodesAll es := by
  cases hfinish with
  | retNothing hmissing | exitNothing hmissing => rw [Expr.nodes, Expr.nodes_of_isMissing hmissing, Tree.nodesAll]
  | _ => simp [Expr.nodes, Tree.nodesAll]

theorem lowerLiteral_finishes {l : Literal} :
    (lowerLiteral l).Yields c fun t c' => Finishes sigs (.literal l) [] [] c t c' := by
  unfold lowerLiteral
  cases hk : const? l with
  | some k =>
    intro t c' hlower
    simp only [LowerM.bind_eq_ok_iff, LowerM.temp_eq_ok_iff, LowerM.pool_eq_ok_iff, LowerM.emit_eq_ok_iff,
      LowerM.pure_eq_ok_iff] at hlower
    obtain ⟨_, _, ⟨rfl, rfl⟩, _, _, rfl, _, _, rfl, rfl, rfl⟩ := hlower
    have hfinish : Finishes sigs (.literal l) [] [] c _ _ := .constant k hk
    simpa [Context.add] using hfinish
  | none =>
    cases l with
    | unknown kind => exact .fail
    | void => exact .start (.last .void)
    | _ => cases hk

-- The equations of the lowering are generated here, once for all the forms of expressions.
attribute [local simp] lowerExpr lowerStmts lowerItems

mutual

/-- What is lowered has a derivation. -/
theorem lowered_of_lowerExpr : (e : Expr) → {c : Context} →
    (lowerExpr sigs e).Yields c fun t c' => Lowered sigs [e] c [t] c'
  | .missing, _ | .func _ _, _ | .out _, _ | .input _, _ => by
    rw [lowerExpr]
    exact .fail
  | .literal l, c => by
    rw [lowerExpr]
    exact lowerLiteral_finishes.mono fun t c' hfinish => .strict [] [] _ .nil hfinish
  | .var name, c => by
    rw [lowerExpr]
    exact .lookup fun s hs => .start (.temp (.emit (.pure (.strict [] [] _ .nil (.var s hs)))))
  | .define name ty value, c => by
    rw [lowerExpr]
    refine .bind (lowered_of_lowerExpr value).within fun v c₁ hv =>
      .bind (fun _ _ hdeclare => LowerM.declare_eq_ok_iff.mp hdeclare) ?_
    rintro storage _ ⟨scopes, hdeclare, rfl⟩
    exact .start (.emit (.last (.strict [_] [_] _ hv (.define v storage scopes hdeclare))))
  | .assign name value, c => by
    rw [lowerExpr]
    exact .bind (lowered_of_lowerExpr value).within fun v c₁ hv => .lookup fun s hs =>
      .start (.emit (.last (.strict [_] [_] _ hv (.assign v s hs))))
  | .block body, c => by
    rw [lowerExpr]
    refine .bind (fun _ _ henter => LowerM.enter_eq_ok_iff.mp henter) ?_
    rintro _ _ rfl
    refine .bind (lowered_of_lowerStmts body) ?_
    rintro _ c₁ ⟨ts, hbody, rfl⟩
    rw [Option.or_none]
    cases hlast : ts.getLast? with
    | none =>
      refine .start (.temp (.bind (fun _ _ hleave => LowerM.leave_eq_ok_iff.mp hleave) ?_))
      rintro _ _ ⟨scopes, hleave, rfl⟩
      exact .pure (.block ts c c₁ scopes 1 hbody hleave (.inr ⟨rfl, hlast, rfl⟩))
    | some t' =>
      refine .bind (P := fun t c => t' = t ∧ c₁ = c) (.pure ⟨rfl, rfl⟩) ?_
      rintro _ _ ⟨rfl, rfl⟩
      refine .bind (fun _ _ hleave => LowerM.leave_eq_ok_iff.mp hleave) ?_
      rintro _ _ ⟨scopes, hleave, rfl⟩
      exact .pure (Context.add_nothing { c₁ with scopes } ▸ .block ts c c₁ scopes 0 hbody hleave
        (.inl ⟨rfl, hlast⟩))
  | .array elems, c => by
    rw [lowerExpr]
    exact .bind (lowered_of_lowerItems elems).within fun ts c₁ hts =>
      .start (.emitArgs (.temp (.emit (.pure (.strict _ ts _ hts .array)))))
  | .call name args, c => by
    rw [lowerExpr]
    split
    · exact .fail
    · next h hheader =>
      split
      · exact .fail
      · next hcount =>
        exact .bind (lowered_of_lowerItems args).within fun ts c₁ hts => .start (.emitArgs (.temp (.emit (.pure
          (.strict _ ts _ hts (.call h hheader (Decidable.not_not.mp hcount)))))))
  | .binary op left right, c => by
    rw [lowerExpr]
    split
    · next hop =>
      refine .start (.temp (.label (.bind (lowered_of_lowerExpr left).within fun l c₁ hl => .start (.emit ?_))))
      split
      · next hand =>
        refine .emit (.bind (lowered_of_lowerExpr right).within fun r c₂ hr => .start (.emit (.emit (.pure ?_))))
        refine .shortCircuit l r c c₁ c₂ 0 hop (.inl ⟨hand, rfl⟩) hl ?_
        rw [decisionInstrs, shortCircuit, if_pos hand]
        exact hr
      · next hor =>
        refine .label (.emit (.emit (.emit (.bind (lowered_of_lowerExpr right).within fun r c₂ hr =>
          .start (.emit (.emit (.pure ?_)))))))
        refine .shortCircuit l r c c₁ c₂ 1 hop (.inr ⟨hor, rfl⟩) hl ?_
        rw [decisionInstrs, shortCircuit, if_neg hor]
        exact hr
    · next hop =>
      split
      · exact .fail
      · next code hcode =>
        exact .bind (lowered_of_lowerExpr left).within fun l c₁ hl => .bind (lowered_of_lowerExpr right).within
          fun r c₂ hr => .start (.temp (.emit (.pure (.strict _ _ _ (hl.prepend hr) (.binary l r code hop hcode)))))
  | .unary op arg, c => by
    rw [lowerExpr]
    split
    · exact .fail
    · next code hcode =>
      refine .bind (lowered_of_lowerExpr arg).within fun a c₁ ha => .start (.temp (.emit ?_))
      split
      · next name hname =>
        exact .lookup fun s hs => .emit (.pure (.strict [_] [_] _ ha (.update a code name s hcode hname hs)))
      · next hname => exact .pure (.strict [_] [_] _ ha (.unary a code hcode hname))
  | .cond test yes no, c => by
    rw [lowerExpr]
    refine .bind (lowered_of_lowerExpr test).within fun b c₁ hb => .start (.label (.emit ?_))
    split
    · next hno =>
      exact .bind (lowered_of_lowerExpr yes).within fun y c₂ hy =>
        .start (.emit (.last (.when b y c c₁ c₂ hno hb hy)))
    · next hno =>
      exact .label (.bind (lowered_of_lowerExpr yes).within fun y c₂ hy => .start (.temp (.emit (.emit (.emit
        (.bind (lowered_of_lowerExpr no).within fun z c₃ hz => .start (.emit (.emit (.pure
          (.cond b y z c c₁ c₂ c₃ (by simpa using hno) hb hy hz))))))))))
  | .loop test body, c => by
    rw [lowerExpr]
    exact .start (.label (.label (.emit (.bind (lowered_of_lowerExpr test).within fun b c₁ hb => .start (.emit
      (.bind (lowered_of_lowerExpr body).within fun r c₂ hr => .start (.emit (.emit (.last
        (.loop b r c c₁ c₂ hb hr))))))))))
  | .ret value, c => by
    rw [lowerExpr]
    split
    · next hmissing => exact .start (.temp (.emit (.last (.strict [] [] _ .nil (.retNothing hmissing)))))
    · next hpresent =>
      exact .bind (lowered_of_lowerExpr value).within fun v c₁ hv =>
        .start (.emit (.last (.strict [_] [_] _ hv (.ret v (by simpa using hpresent)))))
  | .exit code, c => by
    rw [lowerExpr]
    split
    · next hmissing => exact .start (.emit (.last (.strict [] [] _ .nil (.exitNothing hmissing))))
    · next hpresent =>
      exact .bind (lowered_of_lowerExpr code).within fun v c₁ hv =>
        .start (.emit (.last (.strict [_] [_] _ hv (.exit v (by simpa using hpresent)))))
  | .index target position, c => by
    rw [lowerExpr]
    exact .bind (lowered_of_lowerExpr target).within fun a c₁ ha => .bind (lowered_of_lowerExpr position).within
      fun i c₂ hi => .start (.temp (.emit (.pure (.strict _ _ _ (ha.prepend hi) (.index a i)))))
  | .setIndex target position value, c => by
    rw [lowerExpr]
    exact .bind (lowered_of_lowerExpr target).within fun a c₁ ha => .bind (lowered_of_lowerExpr position).within
      fun i c₂ hi => .bind (lowered_of_lowerExpr value).within fun v c₃ hv =>
        .start (.emit (.last (.strict _ _ _ (ha.prepend (hi.prepend hv)) (.setIndex a i v))))
  | .label name, c | .goto name, c => by
    rw [lowerExpr]
    exact .start (.emit (.last (.strict [] [] _ .nil (by constructor))))

theorem lowered_of_lowerStmts : (es : List Expr) → {index : Nat} → {last : Option Temp} → {c : Context} →
    (lowerStmts sigs index last es).Yields c fun r c' => ∃ ts, Lowered sigs es c ts c' ∧ r = ts.getLast?.or last
  | [], _, _, _ => by
    rw [lowerStmts]
    exact .pure ⟨[], .nil, rfl⟩
  | e :: es, index, last, c => by
    rw [lowerStmts]
    refine .bind (lowered_of_lowerExpr e).within fun t c₁ ht => (lowered_of_lowerStmts es).mono ?_
    rintro _ c' ⟨ts, hts, rfl⟩
    exact ⟨t :: ts, ht.prepend hts, by rw [List.getLast?_cons]; cases ts.getLast? <;> rfl⟩

theorem lowered_of_lowerItems : (es : List Expr) → {index : Nat} → {c : Context} →
    (lowerItems sigs index es).Yields c fun ts c' => Lowered sigs es c ts c'
  | [], _, _ => by
    rw [lowerItems]
    exact .pure .nil
  | e :: es, index, c => by
    rw [lowerItems]
    exact .bind (lowered_of_lowerExpr e).within fun t c₁ ht => .bind (lowered_of_lowerItems es) fun ts c' hts =>
      .pure (ht.prepend hts)

end

end TreeCompiler.Lower
