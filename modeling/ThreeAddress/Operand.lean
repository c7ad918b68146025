import ThreeAddress.Text.Integer

/-! Operands of instructions: integer literals and variables. -/

namespace ThreeAddress

inductive Operand
  | literal (value : Int)
  | variable (name : String)
deriving DecidableEq, Repr, Inhabited

namespace Operand

/-- Text that is no 64-bit integer literal names a variable. -/
def ofText (s : String) : Operand :=
  match Text.integer? s.toList with
  | some n => .literal n
  | none => .variable s

def text : Operand → String
  | .literal n => Text.integerText n
  | .variable name => name

def name? : Operand → Option String
  | .literal _ => none
  | .variable name => some name

def value? : Operand → Option Int
  | .literal n => some n
  | .variable _ => none

def isLiteral (x : Operand) : Bool := x.value?.isSome

end Operand

end ThreeAddress
