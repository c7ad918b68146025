import ThreeAddress.Toml.Names

/-! TOML documents as lists of statements. -/

namespace ThreeAddress.Toml

inductive Statement
  | table (path : Path)
  /-- A further table of an array. -/
  | arrayTable (path : Path)
  | pair (path : Path) (value : Value)
deriving Repr, Inhabited

/-- The statements up to the first place that is malformed, if there is one. -/
structure Document where
  statements : List Statement := []
  malformed : Bool := false
deriving Repr, Inhabited

/-- The header of a table and what follows it. -/
def header? (fuel : Nat) (cs : List Char) : Option (Statement × List Char) := do
  match cs with
  | '[' :: rest =>
    let (path, rest) ← key? fuel rest
    match rest with
    | ']' :: ']' :: rest => some (.arrayTable path, rest)
    | _ => none
  | rest =>
    let (path, rest) ← key? fuel rest
    match rest with
    | ']' :: rest => some (.table path, rest)
    | _ => none

/-- The statement of a line, if it holds one, and what follows it and its comment. -/
def statement? (fuel : Nat) (cs : List Char) : Option (Option Statement × List Char) :=
  match skipSpaces cs with
  | [] => some (none, [])
  | '#' :: rest => (comment? rest).map (none, ·)
  | '\n' :: rest => some (none, '\n' :: rest)
  | '\r' :: rest => some (none, '\r' :: rest)
  | '[' :: rest => do
    let (s, rest) ← header? fuel rest
    some (some s, ← skipComment? rest)
  | rest => do
    let ((path, v), rest) ← pair? fuel rest
    some (some (.pair path v), ← skipComment? rest)

def Document.cons (s : Option Statement) (d : Document) : Document :=
  { d with statements := s.toList ++ d.statements }

/-- Reads the lines of a document, with breaks between them. The fuel bounds their number. -/
def Document.ofLines : (fuel : Nat) → (first : Bool) → List Char → Document
  | 0, _, _ => { malformed := true }
  | fuel + 1, first, cs =>
    if cs.isEmpty then {}
    else match if first then some cs else newline? cs with
      | none => { malformed := true }
      | some [] => {}
      | some cs =>
        match statement? (fuel + 1) cs with
        | none => { malformed := true }
        | some (s, rest) => (ofLines fuel false rest).cons s

def Document.ofText (text : String) : Document :=
  let cs := text.toList
  ofLines (4 * cs.length + 16) true cs

end ThreeAddress.Toml
