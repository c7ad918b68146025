import ThreeAddress.Operand
import ThreeAddress.Operator
import ThreeAddress.Quad.Basic

/-! Typed instructions of three-address code. -/

namespace ThreeAddress

inductive Instr
  | binary (op : BinaryOp) (left right : Operand) (res : String)
  | unary (op : UnaryOp) (x : Operand) (res : String)
  | imm (value : Int) (res : String)
  | copy (src res : String)
  /-- The result is an element of the array. -/
  | load (array : String) (index : Operand) (res : String)
  /-- The value becomes an element of the array. -/
  | store (array : String) (index value : Operand)
  /-- The result is the word that the pointer addresses. -/
  | loadInd (pointer res : String)
  /-- The value becomes the word that the pointer addresses. -/
  | storeInd (pointer : String) (value : Operand)
  | param (x : Operand)
  | call (function : String) (res : Option String)
  | branch (cond : Operand) (ifTrue : Bool) (target : String)
  | goto (target : String)
  | label (l : Label)
  | ret (x : Option Operand)
  | nop
deriving DecidableEq, Repr, Inhabited

end ThreeAddress
