namespace TreeCompiler.Yaml

/-- A document as a tree. -/
inductive Node where
  | scalar (line : Nat) (tag value : String)
  | sequence (line : Nat) (items : List Node)
  | mapping (line : Nat) (entries : List (Node × Node))
  | alias (line : Nat) (name : String)
  deriving Repr

namespace Node

/-- The line a node starts on. -/
def line : Node → Nat
  | .scalar line .. => line
  | .sequence line _ => line
  | .mapping line _ => line
  | .alias line _ => line

/-- The text of a node. -/
def value : Node → String
  | .scalar _ _ value => value
  | .sequence .. => ""
  | .mapping .. => ""
  | .alias _ name => name

end Node

end TreeCompiler.Yaml
