import TreeCompiler.Yaml.Tag

namespace TreeCompiler.Yaml

/-- The kinds of tokens. -/
inductive TokenKind where
  | streamStart
  | streamEnd
  | directive (d : Directive)
  | documentStart
  | documentEnd
  | blockSequenceStart
  | blockMappingStart
  | blockEnd
  | flowSequenceStart
  | flowSequenceEnd
  | flowMappingStart
  | flowMappingEnd
  | blockEntry
  | flowEntry
  | key
  | value
  | alias (name : String)
  | anchor (name : String)
  | tag (name : TagName)
  | scalar (isPlain : Bool) (text : String)
  deriving DecidableEq, Repr

/-- A token and the position it starts at. -/
structure Token where
  kind : TokenKind
  mark : Mark
  deriving DecidableEq, Repr

end TreeCompiler.Yaml
