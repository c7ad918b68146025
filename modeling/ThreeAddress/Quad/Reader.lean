import ThreeAddress.Error
import ThreeAddress.Text.Blank

/-!
Reading three-address code. A quad is four fields between parentheses with commas between
them. Code has one quad on a line; empty lines and lines that start with `#` are skipped. The
reader works on bytes, since nothing says that what it reads is text.
-/

namespace ThreeAddress

open Text (Bytes)

namespace Quad

/-- A quad as it is read: the fields are the bytes that were written. -/
structure Raw where
  op : Bytes
  arg1 : Bytes := []
  arg2 : Bytes := []
  res : Bytes := []
  index : Int := 0
deriving DecidableEq, Repr

/-- The bytes `(`, `)`, `,`, `#`, newline and carriage return. -/
def opening : UInt8 := 0x28
def closing : UInt8 := 0x29
def comma : UInt8 := 0x2c
def hash : UInt8 := 0x23
def newline : UInt8 := 0x0a
def carriage : UInt8 := 0x0d

namespace Raw

def bytes (q : Raw) : Bytes :=
  opening :: (q.op ++ comma :: (q.arg1 ++ comma :: (q.arg2 ++ comma :: (q.res ++ [closing]))))

def quad (q : Raw) : Quad :=
  { op := Text.textOf q.op, arg1 := Text.textOf q.arg1, arg2 := Text.textOf q.arg2, res := Text.textOf q.res,
    index := q.index }

end Raw

/-- What stands between an opening and a closing parenthesis. -/
def insideParentheses? : Bytes → Option Bytes
  | [] => none
  | b :: rest => if b = opening ∧ rest.getLast? = some closing then some rest.dropLast else none

/-- The quad of four fields. -/
def ofFields (text : Bytes) : List Bytes → Except Error Raw
  | [op, arg1, arg2, res] =>
    if op = [] then fail (.emptyOpcode text) else .ok ⟨op, arg1, arg2, res, 0⟩
  | fields => fail (.wantFourFields text fields.length)

/-- Reads a quad. Blanks around it and around its fields are ignored. -/
def ofBytes (s : Bytes) : Except Error Raw :=
  let s := Text.trim s
  match insideParentheses? s with
  | none => fail (.wantParentheses s)
  | some inner => ofFields s ((inner.splitOn comma).map Text.trim)

def ofText (s : String) : Except Error Quad := (ofBytes (Text.bytesOf s)).map Raw.quad

/-- Lines have fewer bytes than this. -/
def lineLimit : Nat := 65536

/-- The line without a carriage return at its end. -/
def withoutReturn (line : Bytes) : Bytes :=
  if line.getLast? = some carriage then line.dropLast else line

/-- Whether a trimmed line holds no quad. -/
def isSkipped : Bytes → Bool
  | [] => true
  | b :: _ => b = hash

/-- The quads of the lines, the first of which has the given number. -/
def ofLines (number : Nat) : List Bytes → Except Error (List Raw)
  | [] => .ok []
  | line :: rest =>
    if lineLimit ≤ line.length then inContext .scan (fail .lineTooLong)
    else
      let line := Text.trim (withoutReturn line)
      if isSkipped line then ofLines (number + 1) rest
      else do
        let q ← inContext (.line number) (ofBytes line)
        return q :: (← ofLines (number + 1) rest)

/-- The code with the position of each quad as its index. -/
def numbered (code : List Raw) : List Raw := code.mapIdx fun position q => { q with index := position }

/-- Reads code and numbers its quads. -/
def codeOfBytes (s : Bytes) : Except Error (List Raw) := do
  return numbered (← ofLines 1 (s.splitOn newline))

def codeOfText (s : String) : Except Error (List Quad) :=
  (codeOfBytes (Text.bytesOf s)).map (·.map Raw.quad)

end Quad

end ThreeAddress
