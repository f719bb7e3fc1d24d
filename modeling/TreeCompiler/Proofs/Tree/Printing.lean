import TreeCompiler.Proofs.Tree.Nodes
import TreeCompiler.Proofs.Tree.Rendition
import TreeCompiler.Tree.Source

/-!
What a tree may leave out. A well-formed tree lacks something in four places only.
-/

namespace TreeCompiler.Tree

/-- The expressions that stand directly below an expression. -/
def Expr.children : Expr → List Expr
  | .block body => body
  | .array elems => elems
  | .define _ _ value => [value]
  | .assign _ value => [value]
  | .binary _ left right => [left, right]
  | .unary _ arg => [arg]
  | .cond test yes no => [test, yes, no]
  | .loop test body => [test, body]
  | .func _ body => [body]
  | .call _ args => args
  | .ret value => [value]
  | .index target position => [target, position]
  | .setIndex target position value => [target, position, value]
  | .out value => [value]
  | .exit code => [code]
  | _ => []

/-- An expression in which nothing stands where something may, and the parts that it has. -/
inductive Expr.Omits : Expr → List Expr → Prop where
  | ret : Omits (.ret .missing) []
  | exit : Omits (.exit .missing) []
  | cond (test yes : Expr) : Omits (.cond test yes .missing) [test, yes]
  | func {h : Header} (hexternal : h.isExternal = true) : Omits (.func h .missing) []

@[simp] theorem mem_nodesAll_iff {n : Expr} {xs : List Expr} : n ∈ nodesAll xs ↔ ∃ x ∈ xs, n ∈ x.nodes := by
  induction xs with
  | nil => simp [nodesAll]
  | cons x xs ih => simp [nodesAll, ih]

theorem mem_wellFormedAll {xs : List Expr} (hxs : WellFormedAll xs) {x : Expr} (hx : x ∈ xs) : x.WellFormed := by
  induction xs with
  | nil => cases hx
  | cons y xs ih =>
    rcases List.mem_cons.mp hx with rfl | hx
    · exact hxs.1
    · exact ih hxs.2 hx

namespace Expr

variable {x y n : Expr}

/-- The nodes of an expression are the expression and the nodes of its children. -/
theorem mem_nodes_iff (hx : x.isMissing = false) : n ∈ x.nodes ↔ n = x ∨ ∃ y ∈ x.children, n ∈ y.nodes := by
  cases x with
  | missing => cases hx
  | _ => simp [nodes, children]

theorem sizeOf_child (hy : y ∈ x.children) : sizeOf y < sizeOf x := by
  cases x with
  | block body =>
    have hsize : sizeOf y < sizeOf body := List.sizeOf_lt_of_mem hy
    simp only [block.sizeOf_spec]
    omega
  | array elems =>
    have hsize : sizeOf y < sizeOf elems := List.sizeOf_lt_of_mem hy
    simp only [array.sizeOf_spec]
    omega
  | call name args =>
    have hsize : sizeOf y < sizeOf args := List.sizeOf_lt_of_mem hy
    simp only [call.sizeOf_spec]
    omega
  | _ => grind [children]

namespace WellFormed

theorem ne_missing (hx : x.WellFormed) : x ≠ .missing := by
  rintro rfl
  cases hx.isMissing

/-- A child of a well-formed expression is well-formed. -/
theorem child (hx : x.WellFormed) (hy : y ∈ x.children) :
    y.WellFormed ∨ y = .missing ∧ ∃ parts, x.Omits parts := by
  cases x with
  | block body => exact .inl (mem_wellFormedAll hx hy)
  | array elems => exact .inl (mem_wellFormedAll hx hy)
  | call name args => exact .inl (mem_wellFormedAll hx.2 hy)
  | cond test yes no =>
    simp only [children, List.mem_cons, List.not_mem_nil, or_false] at hy
    obtain ⟨htest, hyes, hno⟩ := hx
    rcases hy with rfl | rfl | rfl
    · exact .inl htest
    · exact .inl hyes
    · rcases hno with hmissing | hno
      · obtain rfl := eq_missing hmissing
        exact .inr ⟨rfl, _, .cond test yes⟩
      · exact .inl hno
  | func h body =>
    obtain rfl := List.mem_singleton.mp hy
    obtain ⟨_, hbody⟩ := hx
    split at hbody
    · next hexternal =>
      obtain rfl := eq_missing hbody
      exact .inr ⟨rfl, _, .func hexternal⟩
    · exact .inl hbody
  | ret value =>
    obtain rfl := List.mem_singleton.mp hy
    rcases hx with hmissing | ⟨_, hvalue⟩
    · obtain rfl := eq_missing hmissing
      exact .inr ⟨rfl, _, .ret⟩
    · exact .inl hvalue
  | exit code =>
    obtain rfl := List.mem_singleton.mp hy
    rcases hx with hmissing | ⟨_, hcode⟩
    · obtain rfl := eq_missing hmissing
      exact .inr ⟨rfl, _, .exit⟩
    · exact .inl hcode
  | _ => grind [children, WellFormed]

theorem of_mem_nodes (hx : x.WellFormed) (hn : n ∈ x.nodes) : n.WellFormed := by
  induction hsize : sizeOf x using Nat.strongRecOn generalizing x with
  | ind size ih =>
    subst hsize
    rcases (mem_nodes_iff hx.isMissing).mp hn with rfl | ⟨y, hy, hn⟩
    · exact hx
    · rcases hx.child hy with hwell | ⟨rfl, _⟩
      · exact ih _ (sizeOf_child hy) hwell hn rfl
      · rw [nodes] at hn
        cases hn

end WellFormed

end Expr

/-- The source text of an expression that omits something is that of its parts. -/
theorem Expr.Omits.exists_source {x : Expr} {parts : List Expr} (homits : x.Omits parts) {depth : Nat}
    (hparts : ∀ y ∈ parts, ∃ s, y.sourceAt depth = .ok s) : ∃ s, x.sourceAt depth = .ok s := by
  cases homits with
  | ret => exact ⟨_, by rw [sourceAt, isMissing, if_pos rfl]⟩
  | exit => exact ⟨_, by rw [sourceAt, isMissing, if_pos rfl]⟩
  | cond test yes =>
    obtain ⟨t, ht⟩ := hparts test (by simp)
    obtain ⟨y, hy⟩ := hparts yes (by simp)
    rw [sourceAt, ht, hy]
    exact ⟨_, rfl⟩
  | func hexternal => exact ⟨_, by rw [sourceAt, if_pos hexternal]⟩

end TreeCompiler.Tree
