import TreeCompiler.Tree.Basic

namespace TreeCompiler.Tree

/-- Gives a parameter another name. -/
def Param.rename (r : String → String) (p : Param) : Param :=
  { p with name := r p.name }

/-- Gives the parameters of a function other names. -/
def Header.rename (r : String → String) (h : Header) : Header :=
  { h with params := h.params.map (·.rename r) }

mutual

/-- Gives the variables of an expression other names. -/
def Expr.rename (r : String → String) : Expr → Expr
  | .missing => .missing
  | .literal l => .literal l
  | .block body => .block (renameAll r body)
  | .array elems => .array (renameAll r elems)
  | .var name => .var (r name)
  | .define name ty value => .define (r name) ty (value.rename r)
  | .assign name value => .assign (r name) (value.rename r)
  | .binary op left right => .binary op (left.rename r) (right.rename r)
  | .unary op arg => .unary op (arg.rename r)
  | .cond test yes no => .cond (test.rename r) (yes.rename r) (no.rename r)
  | .loop test body => .loop (test.rename r) (body.rename r)
  | .func header body => .func (header.rename r) (body.rename r)
  | .call name args => .call name (renameAll r args)
  | .ret value => .ret (value.rename r)
  | .index target position => .index (target.rename r) (position.rename r)
  | .setIndex target position value => .setIndex (target.rename r) (position.rename r) (value.rename r)
  | .out value => .out (value.rename r)
  | .input name => .input name
  | .label name => .label name
  | .goto name => .goto name
  | .exit code => .exit (code.rename r)

/-- Gives the variables of expressions other names. -/
def renameAll (r : String → String) : List Expr → List Expr
  | [] => []
  | e :: rest => e.rename r :: renameAll r rest

end

/-- Gives the variables of a program other names. -/
def Program.rename (r : String → String) (p : Program) : Program :=
  ⟨renameAll r p.body⟩

variable {r : String → String}

@[simp] theorem Expr.isMissing_rename (e : Expr) : (e.rename r).isMissing = e.isMissing := by
  cases e <;> simp [rename, isMissing]

@[simp] theorem length_renameAll (es : List Expr) : (renameAll r es).length = es.length := by
  induction es with
  | nil => simp [renameAll]
  | cons e es ih => simp [renameAll, ih]

mutual

theorem Expr.rename_id : (e : Expr) → e.rename id = e
  | .missing | .literal _ | .var _ | .input _ | .label _ | .goto _ => by simp [Expr.rename]
  | .block es | .array es | .call _ es => by simp [Expr.rename, renameAll_id es]
  | .define _ _ x | .assign _ x | .unary _ x | .ret x | .out x | .exit x => by simp [Expr.rename, x.rename_id]
  | .func h x => by simp [Expr.rename, x.rename_id, Header.rename, Param.rename]
  | .binary _ x y | .loop x y | .index x y => by simp [Expr.rename, x.rename_id, y.rename_id]
  | .cond x y z | .setIndex x y z => by simp [Expr.rename, x.rename_id, y.rename_id, z.rename_id]

theorem renameAll_id : (es : List Expr) → renameAll id es = es
  | [] => by simp [renameAll]
  | e :: es => by simp [renameAll, e.rename_id, renameAll_id es]

end

end TreeCompiler.Tree
