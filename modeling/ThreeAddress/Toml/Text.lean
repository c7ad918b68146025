import ThreeAddress.Text.Hex

/-! White space, comments and strings of TOML. -/

namespace ThreeAddress.Toml

def isSpace (c : Char) : Bool := c = ' ' || c = '\t'

def skipSpaces (cs : List Char) : List Char := cs.dropWhile isSpace

/-- Control characters stand neither in strings nor in comments. -/
def isTextChar (c : Char) : Bool := c = '\t' || (0x20 ≤ c.toNat && c.toNat ≠ 0x7f)

/-- What follows a line break, which has to be there. -/
def newline? : List Char → Option (List Char)
  | '\n' :: rest => some rest
  | '\r' :: '\n' :: rest => some rest
  | _ => none

/-- What follows the text of a comment: the end of its line. -/
def comment? : List Char → Option (List Char)
  | [] => some []
  | '\n' :: rest => some ('\n' :: rest)
  | '\r' :: '\n' :: rest => some ('\n' :: rest)
  | c :: rest => if isTextChar c then comment? rest else none

/-- What follows white space and a comment. -/
def skipComment? (cs : List Char) : Option (List Char) :=
  match skipSpaces cs with
  | '#' :: rest => comment? rest
  | rest => some rest

/-- What follows white space, line breaks and comments. -/
def skipLines? (inComment : Bool) : List Char → Option (List Char)
  | [] => some []
  | '\n' :: rest => skipLines? false rest
  | '\r' :: '\n' :: rest => skipLines? false rest
  | c :: rest =>
    if inComment then (if isTextChar c then skipLines? true rest else none)
    else if isSpace c then skipLines? false rest
    else if c = '#' then skipLines? true rest
    else if c = '\r' then none
    else some (c :: rest)

def simpleEscape? (c : Char) : Option Char :=
  match c with
  | 'b' => some (Char.ofNat 8)
  | 't' => some '\t'
  | 'n' => some '\n'
  | 'f' => some (Char.ofNat 12)
  | 'r' => some '\r'
  | 'e' => some (Char.ofNat 27)
  | '"' => some '"'
  | '\\' => some '\\'
  | _ => none

/-- The character of an escape, from behind its backslash, and how many characters it takes. -/
def escape? : List Char → Option (Char × Nat)
  | 'u' :: a :: b :: c :: d :: _ => (Text.hexChar? [a, b, c, d]).map (·, 5)
  | 'U' :: a :: b :: c :: d :: e :: f :: g :: h :: _ =>
    (Text.hexChar? [a, b, c, d, e, f, g, h]).map (·, 9)
  | c :: _ => (simpleEscape? c).map (·, 1)
  | [] => none

/-- A string as read, and what follows it. -/
structure Quoted where
  text : List Char
  rest : List Char
deriving DecidableEq, Repr, Inhabited

def Quoted.cons (c : Char) (q : Quoted) : Quoted := { q with text := c :: q.text }

/-- A string of one line, up to its closing quote. With `escapes` a backslash starts an escape. The
number counts characters of an escape that was read. -/
def line? (quote : Char) (escapes : Bool) : (escaped : Nat) → List Char → Option Quoted
  | _, [] => none
  | escaped + 1, _ :: rest => line? quote escapes escaped rest
  | 0, c :: rest =>
    if c = quote then some ⟨[], rest⟩
    else if c = '\\' && escapes then do
      let (x, count) ← escape? rest
      (line? quote escapes count rest).map (.cons x)
    else if isTextChar c then (line? quote escapes 0 rest).map (.cons c)
    else none

/-- How many characters of white space and breaks come next. -/
def countHidden : List Char → Nat
  | [] => 0
  | '\r' :: '\n' :: rest => countHidden rest + 2
  | c :: rest => if isSpace c || c = '\n' then countHidden rest + 1 else 0

/-- What follows a backslash hides a break if nothing else is left of the line: then all white space
up to the next text, so many characters, does not count. -/
def hiddenBreak? (rest : List Char) : Option Nat :=
  if (newline? (skipSpaces rest)).isSome then some (countHidden rest) else none

/-- A string of several lines, up to three quotes. One or two quotes before them belong to the
text. -/
def lines? (quote : Char) (escapes : Bool) : (escaped : Nat) → List Char → Option Quoted
  | _, [] => none
  | escaped + 1, _ :: rest => lines? quote escapes escaped rest
  | 0, c :: rest =>
    if c = quote && rest.take 2 = [quote, quote] then
      match rest.drop 2 with
      | a :: b :: d :: after =>
        if a ≠ quote then some ⟨[], a :: b :: d :: after⟩
        else if b ≠ quote then some ⟨[quote], b :: d :: after⟩
        else if d ≠ quote then some ⟨[quote, quote], d :: after⟩
        else none
      | [a, b] =>
        if a ≠ quote then some ⟨[], [a, b]⟩
        else if b ≠ quote then some ⟨[quote], [b]⟩
        else some ⟨[quote, quote], []⟩
      | [a] => if a ≠ quote then some ⟨[], [a]⟩ else some ⟨[quote], []⟩
      | [] => some ⟨[], []⟩
    else if c = '\\' && escapes then
      match hiddenBreak? rest with
      | some count => lines? quote escapes count rest
      | none => do
        let (x, count) ← escape? rest
        (lines? quote escapes count rest).map (.cons x)
    else if c = '\r' then
      match rest with
      | '\n' :: _ => (lines? quote escapes 0 rest).map (.cons c)
      | _ => none
    else if c = '\n' || isTextChar c then (lines? quote escapes 0 rest).map (.cons c)
    else none

/-- The break right behind the opening quotes does not count. -/
def skipNewline (cs : List Char) : List Char := (newline? cs).getD cs

/-- A string from behind its first quote. -/
def string? (quote : Char) (rest : List Char) : Option Quoted :=
  let escapes := quote = '"'
  match rest with
  | a :: b :: inner =>
    if a = quote && b = quote then lines? quote escapes 0 (skipNewline inner)
    else line? quote escapes 0 rest
  | rest => line? quote escapes 0 rest

end ThreeAddress.Toml
