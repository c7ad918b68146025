/-! Where a reader of YAML stands in its text. -/

namespace ThreeAddress.Yaml

def isSpace (c : Char) : Bool := c = ' ' || c = '\t'

/-- Line feed, carriage return, next line, and the separators of lines and paragraphs. -/
def isBreak (c : Char) : Bool :=
  c = '\n' || c = '\r' || c.toNat = 0x85 || c.toNat = 0x2028 || c.toNat = 0x2029

/-- What a break stands for in a scalar: the two separators for themselves, the others for a
line feed. -/
def breakText (c : Char) : Char := if c.toNat = 0x2028 || c.toNat = 0x2029 then c else '\n'

/-- Nothing, white space or a break follows. -/
def endsWord : List Char → Bool
  | [] => true
  | c :: _ => isSpace c || isBreak c

/-- Nothing or a break follows. -/
def endsLine : List Char → Bool
  | [] => true
  | c :: _ => isBreak c

/-- The marks that start and end documents. -/
def isDocumentMark : List Char → Bool
  | '-' :: '-' :: '-' :: rest => endsWord rest
  | '.' :: '.' :: '.' :: rest => endsWord rest
  | _ => false

structure Place where
  /-- Characters passed. -/
  index : Nat := 0
  line : Nat := 0
  column : Nat := 0
  /-- Breaks passed since the last character that is not white space. -/
  breaks : Nat := 0
deriving DecidableEq, Repr, Inhabited

namespace Place

/-- Behind a character of the line. -/
def after (p : Place) (c : Char) : Place :=
  { p with
    index := p.index + 1
    column := p.column + 1
    breaks := if isSpace c then p.breaks else 0 }

/-- Behind a break of so many characters. -/
def nextLine (p : Place) (width : Nat) : Place :=
  { index := p.index + width, line := p.line + 1, column := 0, breaks := p.breaks + 1 }

end Place

/-- A place and the text from there on. -/
structure Cursor where
  place : Place := {}
  rest : List Char
deriving DecidableEq, Repr, Inhabited

namespace Cursor

/-- Behind the next character, if there is one. -/
def skip (c : Cursor) : Cursor :=
  match c.rest with
  | [] => c
  | x :: rest => ⟨c.place.after x, rest⟩

def skipWhile (keep : Char → Bool) (p : Place) : List Char → Cursor
  | [] => ⟨p, []⟩
  | c :: rest => if keep c then skipWhile keep (p.after c) rest else ⟨p, c :: rest⟩

def skipSpaces (c : Cursor) : Cursor := skipWhile isSpace c.place c.rest

/-- To the end of the line. -/
def skipLine (c : Cursor) : Cursor := skipWhile (fun x => !isBreak x) c.place c.rest

/-- Behind the break that follows, if one does. -/
def skipBreak (c : Cursor) : Cursor :=
  match c.rest with
  | '\r' :: '\n' :: rest => ⟨c.place.nextLine 2, rest⟩
  | x :: rest => if isBreak x then ⟨c.place.nextLine 1, rest⟩ else c
  | [] => c

/-- Past a comment on the line where the last token ended. -/
def skipComment (c : Cursor) : Cursor :=
  let behind := c.skipSpaces
  match behind.rest with
  | '#' :: _ => if c.place.breaks = 0 then behind.skipLine else c
  | _ => c

end Cursor

/-- Only white space and breaks stand before a comment. -/
def leadsToComment (cs : List Char) : Bool :=
  match cs.dropWhile fun c => isSpace c || isBreak c with
  | '#' :: _ => true
  | _ => false

/-- What is known between two tokens. -/
structure Between where
  /-- Inside of brackets, where indentation has no meaning. -/
  flow : Bool
  /-- A key may come next. Outside of brackets a new line permits one. -/
  keyAllowed : Bool
  /-- Inside of a comment. -/
  inComment : Bool := false
  /-- A comment was passed. -/
  commented : Bool := false
deriving DecidableEq, Repr, Inhabited

/-- A tab does not indent: where a key may come next it stands only before further comments. -/
def Between.takesTab (b : Between) (rest : List Char) : Bool :=
  b.flow || !b.keyAllowed || (b.commented && leadsToComment rest)

def Between.afterBreak (b : Between) : Between :=
  { b with
    keyAllowed := b.keyAllowed || !b.flow
    inComment := false
    commented := b.commented || b.inComment }

/-- Goes to the next token over white space, comments and breaks, and tells whether the token may
be a key. -/
def Between.pass (b : Between) (p : Place) : List Char → Bool × Cursor
  | [] => (b.keyAllowed, ⟨p, []⟩)
  | '\r' :: '\n' :: rest => b.afterBreak.pass (p.nextLine 2) rest
  | c :: rest =>
    if isBreak c then b.afterBreak.pass (p.nextLine 1) rest
    else if b.inComment || c = ' ' || (c = '\t' && b.takesTab rest) then b.pass (p.after c) rest
    else if c = '#' then { b with inComment := true }.pass (p.after c) rest
    else (b.keyAllowed, ⟨p, c :: rest⟩)

end ThreeAddress.Yaml
