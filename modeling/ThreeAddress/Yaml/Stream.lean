import ThreeAddress.Yaml.Scalar
import ThreeAddress.Yaml.Token

/-!
The tokens of a text, read on demand. A key is known as such only at its colon, so that its token
is put before tokens that were read already: a token that may start a key is handed out when it is
settled whether it does. Two further tokens are read ahead, which decides how much of the text
behind a document is looked at.
-/

namespace ThreeAddress.Yaml

/-- A token that a colon may turn into the start of a key. -/
structure Candidate where
  possible : Bool := false
  /-- Only a key may stand here: it is in line with the keys of a block mapping. -/
  required : Bool := false
  /-- The number of the token. -/
  token : Nat := 0
  place : Place := {}
deriving DecidableEq, Repr, Inhabited

/-- The characters that a key may have. -/
def keyLimit : Nat := 1024

/-- The candidate and its colon at the place would stand too far apart for a key: keys are short
and on one line. -/
def Candidate.isPast (k : Candidate) (p : Place) : Bool :=
  k.place.line < p.line || k.place.index + keyLimit < p.index

/-- The depth that brackets, or indented collections, may have. -/
def depthLimit : Nat := 10000

structure Stream where
  cursor : Cursor
  /-- The tokens read and not handed out. -/
  queue : List Token := []
  /-- How many tokens were handed out. -/
  taken : Nat := 0
  /-- The columns of the open block collections, innermost first. -/
  indents : List Nat := []
  /-- A candidate for each open bracket, innermost first, and one for the outside. -/
  candidates : List Candidate := [{}]
  /-- The tokens that wait for a candidate to be settled, with the number of brackets around it. -/
  held : List (Nat × Nat) := []
  keyAllowed : Bool := true
  /-- Bounds the tokens that may still be read. -/
  budget : Nat
deriving DecidableEq, Repr, Inhabited

namespace Stream

def ofText (cs : List Char) : Stream :=
  { cursor := { rest := cs }, queue := [.streamStart], budget := cs.length + 8 }

def place (s : Stream) : Place := s.cursor.place

/-- The number of brackets around the cursor. -/
def depth (s : Stream) : Nat := s.candidates.length - 1

/-- The cursor stands inside of brackets. -/
def inFlow (s : Stream) : Bool :=
  match s.candidates with
  | _ :: _ :: _ => true
  | _ => false

/-- The column where nodes of the innermost block collection start at least. -/
def least (s : Stream) : Nat :=
  match s.indents with
  | [] => 0
  | n :: _ => n + 1

/-- The number that the next token gets. -/
def nextNumber (s : Stream) : Nat := s.taken + s.queue.length

def push (s : Stream) (t : Token) : Stream := { s with queue := s.queue ++ [t] }

/-- Puts a token before the token with the number, if that was not handed out. -/
def insert (s : Stream) (number : Nat) (t : Token) : Stream :=
  if number < s.taken then s.push t
  else { s with queue := s.queue.insertIdx (number - s.taken) t }

def skip (s : Stream) : Stream := { s with cursor := s.cursor.skip }

def candidate (s : Stream) : Candidate := s.candidates.headD {}

def setCandidate (s : Stream) (k : Candidate) : Stream :=
  { s with candidates := k :: s.candidates.tail }

def release (s : Stream) (number : Nat) : Stream :=
  { s with held := s.held.filter (·.1 ≠ number) }

/-- Gives up the candidate, unless only a key may stand there. -/
def dropCandidate? (s : Stream) : Option Stream :=
  let k := s.candidate
  if !k.possible then some s
  else if k.required then none
  else some ((s.setCandidate { k with possible := false }).release k.token)

/-- Makes the next token a candidate, if a key is allowed. -/
def offerKey? (s : Stream) : Option Stream :=
  if !s.keyAllowed then some s
  else do
    let k : Candidate :=
      { possible := true
        required := !s.inFlow && s.indents.head? = some s.place.column
        token := s.nextNumber
        place := s.place }
    let s ← s.dropCandidate?
    let s := s.release k.token
    some { s.setCandidate k with held := (k.token, s.depth) :: s.held }

/-- Whether the candidate may still become a key; nothing if it had to and cannot. -/
def settle? (s : Stream) (k : Candidate) : Option Bool :=
  if !k.possible then some false
  else if !k.isPast s.place then some true
  else if k.required then none
  else some false

/-! Indentation. -/

/-- Opens a block collection at a column that is right of all open ones. Its token comes before
the token with the number, else last. -/
def openBlock? (s : Stream) (column : Nat) (number : Option Nat) (t : Token) : Option Stream :=
  if s.inFlow || column < s.least then some s
  else if s.indents.length ≥ depthLimit then none
  else
    let s := { s with indents := column :: s.indents }
    some (match number with
      | some n => s.insert n t
      | none => s.push t)

/-- Closes the block collections that are indented more than a column. -/
def closeBlocks (s : Stream) (column : Nat) : Stream :=
  if s.inFlow then s
  else
    let closed := s.indents.takeWhile (column < ·)
    { s with
      indents := s.indents.drop closed.length
      queue := s.queue ++ List.replicate closed.length .blockEnd }

def closeAll (s : Stream) : Stream :=
  if s.inFlow then s
  else { s with indents := [], queue := s.queue ++ List.replicate s.indents.length .blockEnd }

/-! Tokens. -/

/-- The end of the text, or a mark of a document: no collection goes on behind it. -/
def readBoundary? (s : Stream) (t : Token) (width : Nat) : Option Stream := do
  let s ← s.closeAll.dropCandidate?
  some ((Nat.repeat skip width { s with keyAllowed := false }).push t)

def readEnd? (s : Stream) : Option Stream :=
  let p := s.place
  let p := if p.column = 0 then p else { p with line := p.line + 1, column := 0 }
  { s with cursor := { s.cursor with place := p } }.readBoundary? .streamEnd 0

def readOpening? (s : Stream) (t : Token) : Option Stream := do
  let number := s.nextNumber
  let s ← s.offerKey?
  if s.depth ≥ depthLimit then none
  else
    let inner : Candidate := { token := number, place := s.place }
    some (({ s with candidates := inner :: s.candidates, keyAllowed := true }).skip.push t)

/-- A closing bracket. The candidate of the brackets goes, and with it the hold on its token. -/
def readClosing? (s : Stream) (t : Token) : Option Stream := do
  let s ← s.dropCandidate?
  let s := if s.inFlow then
      { s.release s.candidate.token with candidates := s.candidates.tail }
    else s
  some (({ s with keyAllowed := false }).skip.push t)

def readComma? (s : Stream) : Option Stream := do
  let s ← s.dropCandidate?
  some (({ s with keyAllowed := true }).skip.push .comma)

def readDash? (s : Stream) : Option Stream := do
  let s ← if s.inFlow then some s
    else if s.keyAllowed then s.openBlock? s.place.column none .blockSequence
    else none
  let s ← s.dropCandidate?
  some (({ s with keyAllowed := true }).skip.push .dash)

/-- The mark of a key that is not simple. -/
def readKey? (s : Stream) : Option Stream := do
  let s ← if s.inFlow then some s
    else if s.keyAllowed then s.openBlock? s.place.column none .blockMapping
    else none
  let s ← s.dropCandidate?
  some (({ s with keyAllowed := !s.inFlow }).skip.push .key)

/-- A colon behind a candidate makes it a key; otherwise it belongs to a key with a mark. -/
def readColon? (s : Stream) : Option Stream := do
  let k := s.candidate
  let isKey ← s.settle? k
  let s ← if isKey then do
      let s ← (s.insert k.token .key).openBlock? k.place.column (some k.token) .blockMapping
      let s := (s.setCandidate { k with possible := false }).release k.token
      some { s with keyAllowed := false }
    else do
      let s := s.setCandidate { k with possible := false }
      let s ← if s.inFlow then some s
        else if s.keyAllowed then s.openBlock? s.place.column none .blockMapping
        else none
      some { s with keyAllowed := !s.inFlow }
  some (s.skip.push .value)

def readBlock? (s : Stream) (folded : Bool) : Option Stream := do
  let s ← s.dropCandidate?
  let scalar ← block? folded s.least s.cursor.skip
  some ({ s with keyAllowed := true, cursor := scalar.next }.push (.quoted scalar.text))

/-- A scalar in quotes, read by `scan` from behind the opening quote. -/
def readQuoted? (s : Stream) (scan : Place → List Char → Option Scalar) : Option Stream := do
  let s ← s.offerKey?
  let c := s.cursor.skip
  let scalar ← scan c.place c.rest
  some ({ s with keyAllowed := false, cursor := scalar.next }.push (.quoted scalar.text))

def readPlain? (s : Stream) : Option Stream := do
  let s ← s.offerKey?
  let scalar ← plain? s.inFlow s.least [] {} s.place s.cursor.rest
  some ({ s with keyAllowed := scalar.broken, cursor := scalar.next }.push (.plain scalar.text))

/-- The token that starts with a character. Directives, anchors, aliases and tags are no tokens
here. -/
def readToken? (s : Stream) (c : Char) (rest : List Char) : Option Stream :=
  let alone := endsWord rest
  match c with
  | '[' => s.readOpening? .flowSequence
  | '\x7b' => s.readOpening? .flowMapping
  | ']' => s.readClosing? .flowSequenceEnd
  | '\x7d' => s.readClosing? .flowMappingEnd
  | ',' => s.readComma?
  | '\'' => s.readQuoted? (singleQuoted? [] {})
  | '"' => s.readQuoted? (doubleQuoted? [] {})
  | c =>
    if c = '-' && alone then s.readDash?
    else if c = '?' && (s.inFlow || alone) then s.readKey?
    else if c = ':' && (s.inFlow || alone) then s.readColon?
    else if (c = '|' || c = '>') && !s.inFlow then s.readBlock? (c = '>')
    else if startsPlain s.inFlow (c :: rest) then s.readPlain?
    else none

/-- A comment may follow the token on its line. One behind a dash is left to what comes next. -/
def passComment (s : Stream) : Stream :=
  if s.queue.getLast? = some .dash then s else { s with cursor := s.cursor.skipComment }

/-- Reads a token, and the ends of the collections before it. -/
def read? (s : Stream) : Option Stream :=
  let (keyAllowed, cursor) :=
    Between.pass { flow := s.inFlow, keyAllowed := s.keyAllowed } s.place s.cursor.rest
  let s := { s with keyAllowed := keyAllowed, cursor := cursor }.closeBlocks cursor.place.column
  match cursor.rest with
  | [] => s.readEnd?
  | c :: rest =>
    if cursor.place.column = 0 && c = '%' then none
    else if cursor.place.column = 0 && isDocumentMark (c :: rest) then
      s.readBoundary? (if c = '-' then .documentStart else .documentEnd) 3
    else (s.readToken? c rest).map passComment

/-- The first token may be handed out: two more follow it, and it is settled whether it starts a
key. -/
def isReady? (s : Stream) : Option Bool :=
  match s.queue with
  | _ :: _ :: _ :: _ =>
    match s.held.lookup s.taken with
    | none => some true
    | some depth =>
      match s.candidates.reverse[depth]? with
      | some k => (s.settle? k).map (!·)
      | none => some true
  | _ => some false

/-- Reads until the first token may be handed out. -/
def fill? : (budget : Nat) → Stream → Option Stream
  | 0, _ => none
  | budget + 1, s => do
    let ready ← s.isReady?
    if ready then some { s with budget := budget + 1 } else fill? budget (← s.read?)

/-- The next token, which stays in the stream. -/
def peek? (s : Stream) : Option (Token × Stream) := do
  let s ← fill? s.budget s
  some (← s.queue.head?, s)

/-- The stream without its next token. -/
def advance (s : Stream) : Stream := { s with queue := s.queue.tail, taken := s.taken + 1 }

end Stream

end ThreeAddress.Yaml
