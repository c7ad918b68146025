import ThreeAddress.Text.Integer
import ThreeAddress.Toml.Text

/-! Keys and values of TOML. -/

namespace ThreeAddress.Toml

/-- The names of a dotted key, from the outermost table in. -/
abbrev Path := List String

inductive Value
  | text (s : String)
  | truth (b : Bool)
  /-- An integer as written. -/
  | integer (written : String)
  /-- A number with a fraction, a date or a time: known by its form only. -/
  | other
  | array (items : List Value)
  | table (pairs : List (Path × Value))
deriving Repr, Inhabited

/-! Keys. -/

def isBareKeyChar (c : Char) : Bool :=
  Text.isDigit c || ('a' ≤ c && c ≤ 'z') || ('A' ≤ c && c ≤ 'Z') || c = '_' || c = '-'

/-- A part of a key and what follows it. -/
def keyPart? (cs : List Char) : Option (String × List Char) :=
  let quoted (q : Quoted) : String × List Char := (.ofList q.text, q.rest)
  match cs with
  | '"' :: rest => (line? '"' true 0 rest).map quoted
  | '\'' :: rest => (line? '\'' false 0 rest).map quoted
  | cs =>
    let word := cs.takeWhile isBareKeyChar
    if word.isEmpty then none else some (.ofList word, cs.drop word.length)

/-- A dotted key and what follows it and the white space behind it. The fuel bounds the number of
parts. -/
def key? : (fuel : Nat) → List Char → Option (Path × List Char)
  | 0, _ => none
  | fuel + 1, cs => do
    let (part, rest) ← keyPart? (skipSpaces cs)
    match skipSpaces rest with
    | '.' :: rest => do
      let (path, rest) ← key? fuel rest
      some (part :: path, rest)
    | rest => some ([part], rest)

/-! Numbers, dates and times. -/

/-- Characters of an integer in the base with this letter. -/
def baseChars? (letter : Char) : Option (Char → Bool) :=
  let below (base : Nat) (c : Char) : Bool :=
    c = '_' || (match Text.hexValue? c with
      | some n => n < base
      | none => false)
  if letter = 'x' then some (below 16)
  else if letter = 'o' then some (below 8)
  else if letter = 'b' then some (below 2)
  else none

def isInteger (c : Char) : Bool := Text.isDigit c || c = '+' || c = '-' || c = '_'

def isFractional (c : Char) : Bool := c = '.' || c = 'e' || c = 'E'

/-- A number in decimal notation. It may end in a word for what is infinite or no number. -/
def decimal? (cs : List Char) : Option (Value × List Char) :=
  let word := cs.takeWhile fun c => isInteger c || isFractional c
  match cs.drop word.length with
  | 'i' :: 'n' :: 'f' :: rest => some (.other, rest)
  | 'n' :: 'a' :: 'n' :: rest => some (.other, rest)
  | 'i' :: _ => none
  | 'n' :: _ => none
  | rest =>
    if word.isEmpty then none
    else some (if word.any isFractional then .other else .integer (.ofList word), rest)

/-- An integer or a number with a fraction. A zero stands alone, or before the letter of a base. -/
def number? (cs : List Char) : Option (Value × List Char) :=
  match cs with
  | '0' :: c :: d :: rest =>
    if isFractional c then decimal? cs
    else match baseChars? c with
      | some isChar =>
        let word := (d :: rest).takeWhile isChar
        some (.integer (.ofList ('0' :: c :: word)), (d :: rest).drop word.length)
      | none => some (.integer "0", c :: d :: rest)
  | cs => decimal? cs

def isDateChar (c : Char) : Bool := Text.isDigit c || "-TtZz:.+".toList.contains c

/-- What follows a date or a time. One space may divide the two. -/
def skipDate (cs : List Char) : List Char :=
  match cs.dropWhile isDateChar with
  | ' ' :: d :: rest =>
    if Text.isDigit d then (rest.drop 1).dropWhile isDateChar else ' ' :: d :: rest
  | rest => rest

/-- Four digits and a dash start a date, two digits and a colon a time. -/
def startsDate (cs : List Char) : Bool :=
  let digits := (cs.take 5).takeWhile Text.isDigit
  match digits.length, cs.drop digits.length with
  | 4, '-' :: _ => true
  | 2, ':' :: _ => true
  | _, _ => false

/-! Values. -/

mutual

/-- A value and what follows it. The fuel bounds the depth and the length. -/
def value? : (fuel : Nat) → List Char → Option (Value × List Char)
  | 0, _ => none
  | fuel + 1, cs =>
    match cs with
    | [] => none
    | '"' :: rest => (string? '"' rest).map fun q => (.text (.ofList q.text), q.rest)
    | '\'' :: rest => (string? '\'' rest).map fun q => (.text (.ofList q.text), q.rest)
    | 't' :: 'r' :: 'u' :: 'e' :: rest => some (.truth true, rest)
    | 'f' :: 'a' :: 'l' :: 's' :: 'e' :: rest => some (.truth false, rest)
    | '[' :: rest => (items? fuel true rest).map fun (items, rest) => (.array items, rest)
    | '\x7b' :: rest => (pairs? fuel true rest).map fun (pairs, rest) => (.table pairs, rest)
    | cs => if startsDate cs then some (.other, skipDate cs) else number? cs

/-- The items of an array up to its closing bracket, over several lines. A comma may follow the
last one. -/
def items? : (fuel : Nat) → (first : Bool) → List Char → Option (List Value × List Char)
  | 0, _, _ => none
  | fuel + 1, first, cs => do
    let item (cs : List Char) : Option (List Value × List Char) := do
      let (v, rest) ← value? fuel cs
      let (items, rest) ← items? fuel false rest
      some (v :: items, rest)
    match ← skipLines? false cs with
    | [] => none
    | ']' :: rest => some ([], rest)
    | ',' :: rest =>
      if first then none
      else match ← skipLines? false rest with
        | ']' :: rest => some ([], rest)
        | rest => item rest
    | rest => if first then item rest else none

/-- The pairs of a table in braces, on one line. -/
def pairs? : (fuel : Nat) → (first : Bool) → List Char → Option (List (Path × Value) × List Char)
  | 0, _, _ => none
  | fuel + 1, first, cs =>
    let pairsFrom (cs : List Char) : Option (List (Path × Value) × List Char) := do
      let (p, rest) ← pair? fuel cs
      let (pairs, rest) ← pairs? fuel false rest
      some (p :: pairs, rest)
    match skipSpaces cs with
    | '\x7d' :: rest => some ([], rest)
    | ',' :: rest => if first then none else pairsFrom (skipSpaces rest)
    | rest => if first then pairsFrom rest else none

/-- A key, an equals sign and a value. -/
def pair? : (fuel : Nat) → List Char → Option ((Path × Value) × List Char)
  | 0, _ => none
  | fuel + 1, cs => do
    let (path, rest) ← key? fuel cs
    match rest with
    | '=' :: rest =>
      let (v, rest) ← value? fuel (skipSpaces rest)
      some ((path, v), rest)
    | _ => none

end

/-! Integers as words. -/

/-- Groups of digits with single underscores between them. -/
def ungrouped? (ds : List Char) : Option (List Char) :=
  let isEnd (c : Option Char) : Bool := c = some '_' || c = none
  let rec joined : List Char → Bool
    | '_' :: '_' :: _ => false
    | _ :: rest => joined rest
    | [] => true
  if isEnd ds.head? || isEnd ds.getLast? || !joined ds then none else some (ds.filter (· ≠ '_'))

def inBase? (base : Nat) (ds : List Char) : Option Nat := do
  let ds ← ungrouped? ds
  ds.foldlM (fun n c => do
    let d ← Text.hexValue? c
    if d < base then some (base * n + d) else none) 0

/-- A word of 64 bits: in another base, or decimal with a sign and without leading zeros. -/
def word? (written : String) : Option Int :=
  let value : Option Int := match written.toList with
    | '0' :: 'x' :: d :: ds => (inBase? 16 (d :: ds)).map (↑·)
    | '0' :: 'o' :: d :: ds => (inBase? 8 (d :: ds)).map (↑·)
    | '0' :: 'b' :: d :: ds => (inBase? 2 (d :: ds)).map (↑·)
    | cs => do
      let (negative, ds) := match cs with
        | '-' :: ds => (true, ds)
        | '+' :: ds => (false, ds)
        | ds => (false, ds)
      let ds ← ungrouped? ds
      if ds.length > 1 && ds.head? = some '0' then none
      else (Text.natural? ds).map fun n => if negative then -(n : Int) else n
  value.filter Text.fitsWord

end ThreeAddress.Toml
