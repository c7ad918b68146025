/-!
Three-address code: a quad has an opcode, two arguments and a result, all text. A label whose
name starts with `func_` opens a procedure and one that starts with `end_` closes it.
-/

namespace ThreeAddress

/-- Unused fields are empty. -/
structure Quad where
  op : String
  arg1 : String := ""
  arg2 : String := ""
  res : String := ""
  index : Int := 0
deriving DecidableEq, Repr, Inhabited

namespace Quad

def text (q : Quad) : String :=
  "(" ++ q.op ++ "," ++ q.arg1 ++ "," ++ q.arg2 ++ "," ++ q.res ++ ")"

/-- Whether an operand of the quad names the variable. Jump targets and callees are no
variables. -/
def refers (q : Quad) (name : String) : Bool :=
  if name = "" then false
  else if q.op = "label" ∨ q.op = "goto" then false
  else if q.op = "ifFalseGoto" ∨ q.op = "ifGoto" then q.arg1 == name
  else if q.op = "call" then q.res == name
  else q.arg1 == name || q.arg2 == name || q.res == name

/-- The code with the position of each quad as its index, counted from `start`. -/
def numberedFrom (start : Nat) : List Quad → List Quad
  | [] => []
  | q :: rest => { q with index := start } :: numberedFrom (start + 1) rest

end Quad

/-- What a label says about procedures. -/
inductive Boundary
  | plain
  | entry (function : String)
  | exit (function : String)
deriving DecidableEq, Repr, Inhabited

structure Label where
  name : String
  boundary : Boundary
deriving DecidableEq, Repr, Inhabited

/-- The rest of the text behind a given start. -/
def textAfter? (start s : String) : Option String :=
  if start.toList.isPrefixOf s.toList then some (String.ofList (s.toList.drop start.toList.length))
  else none

def Label.ofName (name : String) : Label :=
  match textAfter? "func_" name, textAfter? "end_" name with
  | some f, _ => ⟨name, .entry f⟩
  | none, some f => ⟨name, .exit f⟩
  | none, none => ⟨name, .plain⟩

/-- The label that a quad sets, if it sets one. -/
def Quad.label? (q : Quad) : Option Label :=
  if q.op = "label" then some (.ofName q.arg1) else none

/-- Whether the quad opens or closes a procedure. -/
def Quad.isBoundary (q : Quad) : Bool :=
  match q.label? with
  | some l => l.boundary ≠ .plain
  | none => false

/-- Whether the quad opens a procedure. -/
def Quad.isEntry (q : Quad) : Bool :=
  match q.label? with
  | some ⟨_, .entry _⟩ => true
  | _ => false

end ThreeAddress
