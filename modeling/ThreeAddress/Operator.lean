import ThreeAddress.Text.Integer

/-! The operators of three-address code, with their spellings and numbers. -/

namespace ThreeAddress

inductive BinaryOp
  | add
  | sub
  | and
  | or
  | xor
  | shl
  | shr
  | eq
  | ne
  | lt
  | gt
  | le
  | ge
  | mul
  | div
  | mod
deriving DecidableEq, Repr, Inhabited

inductive UnaryOp
  | neg
  | bitNot
  | not
  | plus
deriving DecidableEq, Repr, Inhabited

namespace BinaryOp

def text : BinaryOp → String
  | .add => "+"
  | .sub => "-"
  | .and => "&"
  | .or => "|"
  | .xor => "^"
  | .shl => "<<"
  | .shr => ">>"
  | .eq => "=="
  | .ne => "!="
  | .lt => "<"
  | .gt => ">"
  | .le => "<="
  | .ge => ">="
  | .mul => "*"
  | .div => "/"
  | .mod => "%"

/-- The two bitwise connectives may also be spelled as words. -/
def ofText? : String → Option BinaryOp
  | "+" => some .add
  | "-" => some .sub
  | "&" => some .and
  | "and" => some .and
  | "|" => some .or
  | "or" => some .or
  | "^" => some .xor
  | "<<" => some .shl
  | ">>" => some .shr
  | "==" => some .eq
  | "!=" => some .ne
  | "<" => some .lt
  | ">" => some .gt
  | "<=" => some .le
  | ">=" => some .ge
  | "*" => some .mul
  | "/" => some .div
  | "%" => some .mod
  | _ => none

def all : List BinaryOp :=
  [.add, .sub, .and, .or, .xor, .shl, .shr, .eq, .ne, .lt, .gt, .le, .ge, .mul, .div, .mod]

/-- Binary operators are numbered from one. -/
def number (op : BinaryOp) : Nat := op.ctorIdx + 1

end BinaryOp

namespace UnaryOp

def text : UnaryOp → String
  | .neg => "-"
  | .bitNot => "~"
  | .not => "!"
  | .plus => "+"

def ofText? : String → Option UnaryOp
  | "-" => some .neg
  | "~" => some .bitNot
  | "!" => some .not
  | "+" => some .plus
  | _ => none

def all : List UnaryOp := [.neg, .bitNot, .not, .plus]

/-- Unary operators are numbered behind the binary ones. -/
def number (op : UnaryOp) : Nat := op.ctorIdx + 17

end UnaryOp

/-- The spelling of an operator number. -/
def operatorName (n : Int) : String :=
  let spellings := BinaryOp.all.map BinaryOp.text ++ UnaryOp.all.map UnaryOp.text
  match if 0 < n then spellings[n.toNat - 1]? else none with
  | some s => s
  | none => "op" ++ Text.integerText n

end ThreeAddress
