import TreeCompiler.Tree.Basic

namespace TreeCompiler.Tree

/-- The names declared so far in each open scope, innermost scope and latest name first. -/
abbrev Names := List (List String)

mutual

/-- The names that an expression declares in the scope in which it stands, latest first. -/
def Expr.declared : Expr → List String
  | .define name _ value => name :: value.declared
  | .assign _ value => value.declared
  | .array elems => declaredAll elems
  | .binary _ left right => right.declared ++ left.declared
  | .unary _ arg => arg.declared
  | .cond test yes no => no.declared ++ (yes.declared ++ test.declared)
  | .loop test body => body.declared ++ test.declared
  | .call _ args => declaredAll args
  | .ret value => value.declared
  | .index target position => position.declared ++ target.declared
  | .setIndex target position value => value.declared ++ (position.declared ++ target.declared)
  | .exit code => code.declared
  | .missing | .literal _ | .block _ | .var _ | .func .. | .out _ | .input _ | .label _ | .goto _ => []

/-- The names that expressions declare one after another. -/
def declaredAll : List Expr → List String
  | [] => []
  | e :: rest => declaredAll rest ++ e.declared

end

theorem Expr.declared_of_isMissing {e : Expr} (hmissing : e.isMissing = true) : e.declared = [] := by
  cases e <;> first | rfl | cases hmissing

/-- Declares names in the innermost scope. -/
def Names.with : Names → List String → Names
  | [], _ => []
  | scope :: outer, names => (names ++ scope) :: outer

end TreeCompiler.Tree
