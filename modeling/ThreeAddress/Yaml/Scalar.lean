import ThreeAddress.Text.Hex
import ThreeAddress.Yaml.Cursor

/-! Scalars: plain, in quotes, and in indented blocks. -/

namespace ThreeAddress.Yaml

/-- The white space and the breaks between two words of a scalar. -/
structure Gap where
  /-- The white space before the first break, last first. -/
  spaces : List Char := []
  /-- A break was passed, or one that a backslash cancels. -/
  broken : Bool := false
  first : Option Char := none
  /-- The breaks behind the first one, last first. -/
  more : List Char := []
deriving DecidableEq, Repr, Inhabited

namespace Gap

def isEmpty (g : Gap) : Bool := g.spaces.isEmpty && !g.broken

def addSpace (g : Gap) (c : Char) : Gap := if g.broken then g else { g with spaces := c :: g.spaces }

def addBreak (g : Gap) (c : Char) : Gap :=
  if g.broken then { g with more := breakText c :: g.more }
  else { g with broken := true, first := some (breakText c) }

/-- What the gap contributes to the scalar, last first. A single line feed counts as a space, the
first of several as nothing. -/
def text (g : Gap) : List Char :=
  if !g.broken then g.spaces
  else if g.first = some '\n' then (if g.more.isEmpty then [' '] else g.more)
  else g.more ++ g.first.toList

/-- Behind a break that a backslash cancels. -/
def cancelled : Gap := { broken := true }

end Gap

/-- A scalar as read. -/
structure Scalar where
  text : String
  /-- A break stands between the last word and what follows. -/
  broken : Bool := false
  next : Cursor
deriving DecidableEq, Repr, Inhabited

/-! Plain scalars. -/

def isFlowIndicator (c : Char) : Bool :=
  c = ',' || c = '?' || c = '[' || c = ']' || c = '\x7b' || c = '\x7d'

/-- Characters that mean something else at the start of a scalar. -/
def isIndicator (c : Char) : Bool := "-?:,[]\x7b\x7d#&*!|>'\"%@`".toList.contains c

def startsPlain (flow : Bool) : List Char → Bool
  | [] => false
  | c :: rest =>
    if isIndicator c then
      !endsWord rest && (c = '-' || (!flow && (c = '?' || c = ':')))
    else !isSpace c && !isBreak c

/-- A plain scalar ends before these characters, behind a gap. Outside of brackets its lines are
indented by `least` columns at least. -/
def endsPlain (flow : Bool) (least : Nat) (gap : Gap) (p : Place) : List Char → Bool
  | [] => true
  | c :: rest =>
    (!gap.isEmpty && (c = '#' || (!flow && p.column < least) ||
      (p.column = 0 && isDocumentMark (c :: rest)))) ||
    (c = ':' && endsWord rest) || (flow && isFlowIndicator c)

/-- Reads on in a plain scalar. `text` is what was read, last first, without the gap before the
place. No tab indents. -/
def plain? (flow : Bool) (least : Nat) (text : List Char) (gap : Gap) (p : Place) :
    List Char → Option Scalar
  | [] => some ⟨.ofList text.reverse, gap.broken, ⟨p, []⟩⟩
  | '\r' :: '\n' :: rest => plain? flow least text (gap.addBreak '\n') (p.nextLine 2) rest
  | c :: rest =>
    if isBreak c then plain? flow least text (gap.addBreak c) (p.nextLine 1) rest
    else if isSpace c then
      if gap.broken && c = '\t' && p.column < least then none
      else plain? flow least text (gap.addSpace c) (p.after c) rest
    else if endsPlain flow least gap p (c :: rest) then
      some ⟨.ofList text.reverse, gap.broken, ⟨p, c :: rest⟩⟩
    else plain? flow least (c :: (gap.text ++ text)) {} (p.after c) rest

/-! Quoted scalars. -/

/-- Reads on in single quotes. A quote inside is written twice. -/
def singleQuoted? (text : List Char) (gap : Gap) (p : Place) : List Char → Option Scalar
  | [] => none
  | '\'' :: '\'' :: rest =>
    singleQuoted? ('\'' :: (gap.text ++ text)) {} ((p.after '\'').after '\'') rest
  | '\r' :: '\n' :: rest => singleQuoted? text (gap.addBreak '\n') (p.nextLine 2) rest
  | c :: rest =>
    if c = '\'' then some ⟨.ofList (gap.text ++ text).reverse, false, ⟨p.after c, rest⟩⟩
    else if isBreak c then singleQuoted? text (gap.addBreak c) (p.nextLine 1) rest
    else if isSpace c then singleQuoted? text (gap.addSpace c) (p.after c) rest
    else if p.column = 0 && isDocumentMark (c :: rest) then none
    else singleQuoted? (c :: (gap.text ++ text)) {} (p.after c) rest

def simpleEscape? (c : Char) : Option Char :=
  match c with
  | '0' => some (Char.ofNat 0)
  | 'a' => some (Char.ofNat 7)
  | 'b' => some (Char.ofNat 8)
  | 't' => some '\t'
  | '\t' => some '\t'
  | 'n' => some '\n'
  | 'v' => some (Char.ofNat 11)
  | 'f' => some (Char.ofNat 12)
  | 'r' => some '\r'
  | 'e' => some (Char.ofNat 27)
  | ' ' => some ' '
  | '"' => some '"'
  | '\'' => some '\''
  | '\\' => some '\\'
  | 'N' => some (Char.ofNat 0x85)
  | '_' => some (Char.ofNat 0xa0)
  | 'L' => some (Char.ofNat 0x2028)
  | 'P' => some (Char.ofNat 0x2029)
  | _ => none

/-- Behind so many characters of the line. -/
def Place.ahead (p : Place) (n : Nat) : Place :=
  { p with index := p.index + n, column := p.column + n, breaks := 0 }

/-- Reads on in double quotes, with escapes. A backslash before a break cancels the break. -/
def doubleQuoted? (text : List Char) (gap : Gap) (p : Place) : List Char → Option Scalar
  | [] => none
  | '\\' :: '\r' :: '\n' :: rest =>
    doubleQuoted? (gap.text ++ text) .cancelled ((p.after '\\').nextLine 2) rest
  | '\\' :: 'x' :: a :: b :: rest => do
    let x ← Text.hexChar? [a, b]
    doubleQuoted? (x :: (gap.text ++ text)) {} (p.ahead 4) rest
  | '\\' :: 'u' :: a :: b :: c :: d :: rest => do
    let x ← Text.hexChar? [a, b, c, d]
    doubleQuoted? (x :: (gap.text ++ text)) {} (p.ahead 6) rest
  | '\\' :: 'U' :: a :: b :: c :: d :: e :: f :: g :: h :: rest => do
    let x ← Text.hexChar? [a, b, c, d, e, f, g, h]
    doubleQuoted? (x :: (gap.text ++ text)) {} (p.ahead 10) rest
  | '\\' :: c :: rest =>
    if isBreak c then doubleQuoted? (gap.text ++ text) .cancelled ((p.after '\\').nextLine 1) rest
    else do
      let x ← simpleEscape? c
      doubleQuoted? (x :: (gap.text ++ text)) {} (p.ahead 2) rest
  | '\r' :: '\n' :: rest => doubleQuoted? text (gap.addBreak '\n') (p.nextLine 2) rest
  | c :: rest =>
    if c = '"' then some ⟨.ofList (gap.text ++ text).reverse, false, ⟨p.after c, rest⟩⟩
    else if isBreak c then doubleQuoted? text (gap.addBreak c) (p.nextLine 1) rest
    else if isSpace c then doubleQuoted? text (gap.addSpace c) (p.after c) rest
    else if c = '\\' || (p.column = 0 && isDocumentMark (c :: rest)) then none
    else doubleQuoted? (c :: (gap.text ++ text)) {} (p.after c) rest

/-! Block scalars. -/

/-- What becomes of the breaks at the end of a block. -/
inductive Chomping
  | strip
  | clip
  | keep
deriving DecidableEq, Repr, Inhabited

/-- The marks behind the indicator of a block: the chomping and the indentation, zero if the text
of the block tells it. -/
structure BlockMarks where
  chomping : Chomping := .clip
  indent : Nat := 0
deriving DecidableEq, Repr, Inhabited

def chomping? (c : Char) : Option Chomping :=
  if c = '+' then some .keep else if c = '-' then some .strip else none

/-- A digit from one to nine. -/
def indentMark? (c : Char) : Option Nat :=
  if '1' ≤ c && c ≤ '9' then some (c.toNat - '0'.toNat) else none

/-- The marks in either order, and how many they are. -/
def BlockMarks.of : List Char → BlockMarks × Nat
  | a :: b :: _ =>
    match chomping? a, indentMark? a, chomping? b, indentMark? b with
    | some k, _, _, some n => (⟨k, n⟩, 2)
    | some k, _, _, none => (⟨k, 0⟩, 1)
    | none, some n, some k, _ => (⟨k, n⟩, 2)
    | none, some n, none, _ => (⟨.clip, n⟩, 1)
    | none, none, _, _ => ({}, 0)
  | [a] =>
    match chomping? a, indentMark? a with
    | some k, _ => (⟨k, 0⟩, 1)
    | none, some n => (⟨.clip, n⟩, 1)
    | none, none => ({}, 0)
  | [] => ({}, 0)

/-- A block as far as it was read. Texts stand last first. -/
structure Block where
  /-- Breaks between lines are folded. -/
  folded : Bool
  /-- The column of the lines, zero as long as it is not known. -/
  indent : Nat
  /-- The rightmost column where a blank line ended. -/
  deepest : Nat := 0
  text : List Char := []
  /-- The break of the last line. -/
  lineBreak : Option Char := none
  /-- The blank lines behind it. -/
  blanks : List Char := []
  /-- The last line started with white space. -/
  spaced : Bool := false
deriving DecidableEq, Repr, Inhabited

namespace Block

/-- White space here is indentation. -/
def indents (b : Block) (p : Place) : Bool := b.indent = 0 || p.column < b.indent

/-- The column of the lines, told by the first one: not left of `least`. -/
def column (b : Block) (least : Nat) (p : Place) : Nat :=
  if b.indent = 0 then max (max b.deepest p.column) (max least 1) else b.indent

def addBlank (b : Block) (p : Place) (c : Char) : Block :=
  { b with deepest := max b.deepest p.column, blanks := breakText c :: b.blanks }

/-- Starts a line with its first character. A folded break between two lines of text is a space,
or nothing before blank lines. -/
def startLine (b : Block) (indent : Nat) (c : Char) : Block :=
  let between :=
    if b.folded && !b.spaced && !isSpace c && b.lineBreak = some '\n' then
      (if b.blanks.isEmpty then [' '] else [])
    else b.lineBreak.toList
  { b with
    indent := indent
    text := c :: (b.blanks ++ between ++ b.text)
    lineBreak := none
    blanks := []
    spaced := isSpace c }

def addChar (b : Block) (c : Char) : Block := { b with text := c :: b.text }

def endLine (b : Block) (c : Char) : Block := { b with lineBreak := some (breakText c) }

/-- The text of the block. -/
def chomped (b : Block) (k : Chomping) : String :=
  let text := match k with
    | .strip => b.text
    | .clip => b.lineBreak.toList ++ b.text
    | .keep => b.blanks ++ b.lineBreak.toList ++ b.text
  .ofList text.reverse

/-- Reads the lines of a block up to the first line that is indented less. No tab indents. -/
def lines? (b : Block) (least : Nat) (inLine : Bool) (p : Place) : List Char → Option (Block × Cursor)
  | [] => some (b, ⟨p, []⟩)
  | '\r' :: '\n' :: rest =>
    (if inLine then b.endLine '\n' else b.addBlank p '\n').lines? least false (p.nextLine 2) rest
  | c :: rest =>
    if isBreak c then
      (if inLine then b.endLine c else b.addBlank p c).lines? least false (p.nextLine 1) rest
    else if inLine then (b.addChar c).lines? least true (p.after c) rest
    else if b.indents p && isSpace c then
      if c = '\t' then none else b.lines? least false (p.after c) rest
    else
      let indent := b.column least p
      if p.column = indent then (b.startLine indent c).lines? least true (p.after c) rest
      else some (b, ⟨p, c :: rest⟩)

end Block

/-- Reads a block scalar from behind its indicator, inside of a collection whose nodes are indented
by `least` columns at least. -/
def block? (folded : Bool) (least : Nat) (c : Cursor) : Option Scalar := do
  let (marks, count) := BlockMarks.of c.rest
  let c := (Nat.repeat Cursor.skip count c).skipSpaces
  let c := match c.rest with
    | '#' :: _ => c.skipLine
    | _ => c
  if !endsLine c.rest then none
  else
    let c := c.skipBreak
    let indent := if marks.indent = 0 then 0 else least - 1 + marks.indent
    let (b, next) ← Block.lines? { folded := folded, indent := indent } least false c.place c.rest
    some ⟨b.chomped marks.chomping, false, next⟩

end ThreeAddress.Yaml
