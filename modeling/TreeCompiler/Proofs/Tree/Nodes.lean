import Mathlib.Algebra.Group.Nat.Defs
import TreeCompiler.Tree.Basic

namespace TreeCompiler.Tree

mutual

/-- The nodes of an expression, each before the ones below it, from left to right. -/
def Expr.nodes : Expr → List Expr
  | .missing => []
  | .literal l => [.literal l]
  | .block body => .block body :: nodesAll body
  | .array elems => .array elems :: nodesAll elems
  | .var name => [.var name]
  | .define name ty value => .define name ty value :: value.nodes
  | .assign name value => .assign name value :: value.nodes
  | .binary op left right => .binary op left right :: (left.nodes ++ right.nodes)
  | .unary op arg => .unary op arg :: arg.nodes
  | .cond test yes no => .cond test yes no :: (test.nodes ++ yes.nodes ++ no.nodes)
  | .loop test body => .loop test body :: (test.nodes ++ body.nodes)
  | .func header body => .func header body :: body.nodes
  | .call name args => .call name args :: nodesAll args
  | .ret value => .ret value :: value.nodes
  | .index target position => .index target position :: (target.nodes ++ position.nodes)
  | .setIndex target position value =>
    .setIndex target position value :: (target.nodes ++ position.nodes ++ value.nodes)
  | .out value => .out value :: value.nodes
  | .input name => [.input name]
  | .label name => [.label name]
  | .goto name => [.goto name]
  | .exit code => .exit code :: code.nodes

/-- The nodes of expressions, one expression after another. -/
def nodesAll : List Expr → List Expr
  | [] => []
  | e :: rest => e.nodes ++ nodesAll rest

end

theorem Expr.nodes_of_isMissing {e : Expr} (he : e.isMissing = true) : e.nodes = [] := by
  cases e with
  | missing => rw [nodes]
  | _ => cases he

theorem nodesAll_singleton (e : Expr) : nodesAll [e] = e.nodes := by
  rw [nodesAll, nodesAll, List.append_nil]

/-- The label that a node marks. -/
def Expr.label? : Expr → Option String
  | .label name => some name
  | _ => none

/-- The label that a node jumps to. -/
def Expr.goto? : Expr → Option String
  | .goto name => some name
  | _ => none

/-- The labels among some nodes. -/
def labels (es : List Expr) : List String :=
  es.filterMap Expr.label?

/-- The labels that some nodes jump to. -/
def gotos (es : List Expr) : List String :=
  es.filterMap Expr.goto?

section Lists

variable (e : Expr) (xs ys : List Expr)

@[simp] theorem labels_append : labels (xs ++ ys) = labels xs ++ labels ys :=
  List.filterMap_append

@[simp] theorem gotos_append : gotos (xs ++ ys) = gotos xs ++ gotos ys :=
  List.filterMap_append

theorem labels_cons_of_none (he : e.label? = none) : labels (e :: xs) = labels xs :=
  List.filterMap_cons_none he

theorem gotos_cons_of_none (he : e.goto? = none) : gotos (e :: xs) = gotos xs :=
  List.filterMap_cons_none he

end Lists

/-- A list of values is short enough for its length to be a machine word that is not negative. -/
def Expr.Countable : Expr → Prop
  | .array elems => elems.length < 2 ^ 63
  | .call _ args => args.length < 2 ^ 63
  | _ => True

/-- All lists of values in a program are short enough to be counted. -/
def Program.Countable (p : Program) : Prop :=
  ∀ e ∈ nodesAll p.body, e.Countable

/-- Nowhere does control go to a label that the program names. -/
def GotoFree (es : List Expr) : Prop :=
  ∀ name, .goto name ∉ es

theorem GotoFree.part {xs ys : List Expr} (hfree : GotoFree ys)
    (hsub : ∀ x ∈ xs, x ∈ ys := by intro x hx; simp [Expr.nodes, nodesAll, hx]) : GotoFree xs :=
  fun name hmem => hfree name (hsub _ hmem)

theorem mem_nodesAll {e n : Expr} {es : List Expr} (he : e ∈ es) (hn : n ∈ e.nodes) : n ∈ nodesAll es := by
  induction es with
  | nil => cases he
  | cons e' es ih =>
    rw [nodesAll, List.mem_append]
    rcases List.mem_cons.mp he with rfl | he
    · exact .inl hn
    · exact .inr (ih he)

end TreeCompiler.Tree
