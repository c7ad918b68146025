/-! Tokens of YAML. -/

namespace ThreeAddress.Yaml

inductive Token
  | streamStart
  | streamEnd
  | documentStart
  | documentEnd
  /-- Indented collections have no brackets of their own in the text. -/
  | blockSequence
  | blockMapping
  | blockEnd
  | flowSequence
  | flowSequenceEnd
  | flowMapping
  | flowMappingEnd
  /-- The dash of an item. -/
  | dash
  | comma
  | key
  | value
  | plain (text : String)
  | quoted (text : String)
deriving DecidableEq, Repr, Inhabited

end ThreeAddress.Yaml
