import ThreeAddress.Yaml.Stream

/-! Nodes of YAML, and documents of them. -/

namespace ThreeAddress.Yaml

inductive Node
  /-- A scalar without quotes. -/
  | plain (text : String)
  | quoted (text : String)
  | sequence (items : List Node)
  | mapping (pairs : List (Node × Node))
deriving Repr, Inhabited

def Node.null : Node := .plain ""

/-- Reads from a stream, or refuses what stands there. -/
abbrev Reader := StateT Stream Option

def peek : Reader Token := Stream.peek?

def advance : Reader Unit := modify Stream.advance

def refuse {α : Type} : Reader α := failure

/-- Reads a node, unless the next token ends the place where it would stand. -/
def nodeUnless (ends : List Token) (node : Reader Node) : Reader Node := do
  if ends.contains (← peek) then return .null else node

mutual

/-- A node. Only a node outside of brackets is a block collection. The items of a sequence may
stand in line with the key that it belongs to. The fuel bounds the length and the depth. -/
def readNode : (fuel : Nat) → (block inLine : Bool) → Reader Node
  | 0, _, _ => refuse
  | fuel + 1, block, inLine => do
    match ← peek with
    | .plain text => advance; return .plain text
    | .quoted text => advance; return .quoted text
    | .flowSequence => advance; return .sequence (← flowItems fuel true)
    | .flowMapping => advance; return .mapping (← flowPairs fuel true)
    | .blockSequence => if block then advance; return .sequence (← blockItems fuel) else refuse
    | .blockMapping => if block then advance; return .mapping (← blockPairs fuel) else refuse
    | .dash => if inLine then return .sequence (← inLineItems fuel) else refuse
    | _ => refuse

def blockItems : (fuel : Nat) → Reader (List Node)
  | 0 => refuse
  | fuel + 1 => do
    match ← peek with
    | .dash =>
      advance
      let item ← nodeUnless [.dash, .blockEnd] (readNode fuel true false)
      return item :: (← blockItems fuel)
    | .blockEnd => advance; return []
    | _ => refuse

def inLineItems : (fuel : Nat) → Reader (List Node)
  | 0 => refuse
  | fuel + 1 => do
    match ← peek with
    | .dash =>
      advance
      let item ← nodeUnless [.dash, .key, .value, .blockEnd] (readNode fuel true false)
      return item :: (← inLineItems fuel)
    | _ => return []

def blockPairs : (fuel : Nat) → Reader (List (Node × Node))
  | 0 => refuse
  | fuel + 1 => do
    match ← peek with
    | .key =>
      advance
      let key ← nodeUnless [.key, .value, .blockEnd] (readNode fuel true true)
      let value ← match ← peek with
        | .value => advance; nodeUnless [.key, .value, .blockEnd] (readNode fuel true true)
        | _ => pure .null
      return (key, value) :: (← blockPairs fuel)
    | .blockEnd => advance; return []
    | _ => refuse

/-- The items of a sequence in brackets, each but the first behind a comma. A pair among them is a
mapping of its own. -/
def flowItems : (fuel : Nat) → (first : Bool) → Reader (List Node)
  | 0, _ => refuse
  | fuel + 1, first => do
    if (← peek) = .flowSequenceEnd then advance; return []
    else
      if first then pure ()
      else if (← peek) = .comma then advance
      else refuse
      match ← peek with
      | .flowSequenceEnd => advance; return []
      | .key =>
        advance
        let ends := [Token.value, .comma, .flowSequenceEnd]
        let key ← if ends.contains (← peek) then advance; pure .null else readNode fuel false false
        let value ← match ← peek with
          | .value => advance; nodeUnless [.comma, .flowSequenceEnd] (readNode fuel false false)
          | _ => pure .null
        return .mapping [(key, value)] :: (← flowItems fuel false)
      | _ =>
        let item ← readNode fuel false false
        return item :: (← flowItems fuel false)

/-- The pairs of a mapping in brackets. A key may stand without a value. -/
def flowPairs : (fuel : Nat) → (first : Bool) → Reader (List (Node × Node))
  | 0, _ => refuse
  | fuel + 1, first => do
    if (← peek) = .flowMappingEnd then advance; return []
    else
      if first then pure ()
      else if (← peek) = .comma then advance
      else refuse
      match ← peek with
      | .flowMappingEnd => advance; return []
      | .key =>
        advance
        let key ← nodeUnless [.value, .comma, .flowMappingEnd] (readNode fuel false false)
        let value ← match ← peek with
          | .value => advance; nodeUnless [.comma, .flowMappingEnd] (readNode fuel false false)
          | _ => pure .null
        return (key, value) :: (← flowPairs fuel false)
      | _ =>
        let key ← readNode fuel false false
        return (key, .null) :: (← flowPairs fuel false)

end

/-- The first document of a stream; none if there is nothing in it. Of what follows the document
only the next tokens are read. -/
def document (fuel : Nat) : Reader (Option Node) := do
  let _ ← peek
  advance
  match ← peek with
  | .streamEnd => return none
  | .documentStart =>
    advance
    let node ← nodeUnless [.documentStart, .documentEnd, .streamEnd] (readNode fuel true false)
    let _ ← peek
    return some node
  | _ =>
    let node ← readNode fuel true false
    let _ ← peek
    return some node

/-- Characters that a text may hold: no controls but tabs and breaks. -/
def isReadable (c : Char) : Bool :=
  let n := c.toNat
  n = 0x09 || n = 0x0a || n = 0x0d || (0x20 ≤ n && n ≤ 0x7e) || n = 0x85 ||
    (0xa0 ≤ n && n ≤ 0xfffd) || 0x10000 ≤ n

/-- The text without the mark of its encoding. -/
def withoutMark : List Char → List Char
  | c :: rest => if c.toNat = 0xfeff then rest else c :: rest
  | [] => []

/-- The tokens of a text are at most four times its characters and some more; each token takes a
few steps. -/
def fuelFor (cs : List Char) : Nat := 16 * (cs.length + 4)

/-- Reads the first document of a text, which is null if there is none; nothing if the text is
malformed. -/
def ofText? (text : String) : Option Node := do
  let cs := withoutMark text.toList
  if !cs.all isReadable then none
  else
    let (node, _) ← (document (fuelFor cs)).run (.ofText cs)
    some (node.getD .null)

end ThreeAddress.Yaml
