import TreeCompiler.Proofs.Tree.Declared

namespace TreeCompiler.Tree

namespace Names

/-- A name is declared in an open scope. -/
def Binds (names : Names) (name : String) : Prop :=
  ∃ scope ∈ names, name ∈ scope

/-- A name is declared in the innermost open scope. -/
def BindsInside (names : Names) (name : String) : Prop :=
  ∃ scope ∈ names.head?, name ∈ scope

theorem with_nil (names : Names) : names.with [] = names := by
  cases names <;> rfl

theorem with_with (names : Names) (xs ys : List String) : (names.with xs).with ys = names.with (ys ++ xs) := by
  cases names <;> simp [Names.with]

theorem with_ne_nil {names : Names} (hopen : names ≠ []) (xs : List String) : names.with xs ≠ [] := by
  cases names with
  | nil => exact absurd rfl hopen
  | cons scope outer => exact List.cons_ne_nil _ _

end Names

/-- The binary operators. -/
def binaryOperators : List String :=
  ["&&", "||", "+", "-", "*", "/", "%", "&", "|", "^", "<<", ">>", "==", "!=", ">", ">=", "<", "<="]

/-- The unary operators. -/
def unaryOperators : List String :=
  ["-", "!", "#", "len", "++", "--"]

mutual

/-- An expression is made of known parts, and its names are declared where it uses them, if it is
    read from left to right and some names are declared in front of it. -/
def Expr.Scoped (arity : String → Option Nat) (names : Names) : Expr → Prop
  | .missing => False
  | .literal l => ∀ kind, l ≠ .unknown kind
  | .block body => ScopedAll arity ([] :: names) body
  | .array elems => ScopedAll arity names elems
  | .var name => names.Binds name
  | .define name _ value => value.Scoped arity names ∧ ¬ (names.with value.declared).BindsInside name
  | .assign name value => value.Scoped arity names ∧ (names.with value.declared).Binds name
  | .binary op left right =>
    op ∈ binaryOperators ∧ left.Scoped arity names ∧ right.Scoped arity (names.with left.declared)
  | .unary op arg => op ∈ unaryOperators ∧ arg.Scoped arity names
  | .cond test yes no =>
    test.Scoped arity names ∧ yes.Scoped arity (names.with test.declared) ∧
      (no.isMissing = true ∨ no.Scoped arity (names.with (yes.declared ++ test.declared)))
  | .loop test body => test.Scoped arity names ∧ body.Scoped arity (names.with test.declared)
  | .call name args => arity name = some args.length ∧ ScopedAll arity names args
  | .ret value => value.isMissing = true ∨ value.Scoped arity names
  | .index target position =>
    target.Scoped arity names ∧ position.Scoped arity (names.with target.declared)
  | .setIndex target position value =>
    target.Scoped arity names ∧ position.Scoped arity (names.with target.declared) ∧
      value.Scoped arity (names.with (position.declared ++ target.declared))
  | .label _ => True
  | .goto _ => True
  | .exit code => code.isMissing = true ∨ code.Scoped arity names
  | .func .. => False
  | .out _ => False
  | .input _ => False

/-- Expressions are read one after another. -/
def ScopedAll (arity : String → Option Nat) (names : Names) : List Expr → Prop
  | [] => True
  | e :: rest => e.Scoped arity names ∧ ScopedAll arity (names.with e.declared) rest

end

namespace Program

/-- The number of parameters of a function of a program. -/
def arity (p : Program) (name : String) : Option Nat :=
  p.body.findSome? fun
    | .func h _ => if h.name = name then some h.params.length else none
    | _ => none

/-- A program is made of functions with names of their own and of literals with a value. -/
structure WellScoped (p : Program) : Prop where
  items : ∀ e ∈ p.body, (∃ h body, e = .func h body) ∨ (∃ v, e = .literal (.number v)) ∨
    (∃ b, e = .literal (.bool b)) ∨ ∃ s, e = .literal (.str s)
  funcs : (p.body.filterMap fun | .func h _ => some h.name | _ => none).Nodup
  params : ∀ h body, .func h body ∈ p.body → (h.params.map (·.name)).Nodup
  bodies : ∀ h body, .func h body ∈ p.body → h.isExternal = false →
    body.Scoped p.arity [(h.params.map (·.name)).reverse]

end Program

end TreeCompiler.Tree
