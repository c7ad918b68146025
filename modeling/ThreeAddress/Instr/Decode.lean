import ThreeAddress.Error
import ThreeAddress.Instr.Basic

/-! Decoding quads into typed instructions. -/

namespace ThreeAddress.Instr

/-- Literals have 32 bits. -/
def immediateInRange (n : Int) : Bool := -0x80000000 ≤ n && n < 0x80000000

/-- Refuses the first field that is a literal out of range. -/
def checkRange (q : Quad) : List String → Except Error Unit
  | [] => .ok ()
  | field :: rest =>
    match Operand.ofText field with
    | .literal n => if immediateInRange n then checkRange q rest else fail (.immediateRange q field)
    | .variable _ => checkRange q rest

def need (q : Quad) (fields : List String) : Except Error Unit :=
  if fields.any (· = "") then fail (.missingOperand q) else .ok ()

/-- Refuses the first field that is a literal. -/
def checkVariables (q : Quad) : List String → Except Error Unit
  | [] => .ok ()
  | field :: rest =>
    if (Operand.ofText field).isLiteral then fail (.variableExpected q field)
    else checkVariables q rest

def needVariables (q : Quad) (fields : List String) : Except Error Unit := do
  need q fields
  checkVariables q fields

/-- The first text unless it is empty. -/
def firstGiven (s t : String) : String := if s = "" then t else s

def given? (s : String) : Option String := if s = "" then none else some s

/-- Opcodes that are operators. An operator that is both binary and unary is binary when the
second argument is there. -/
def ofOperation (q : Quad) : Except Error Instr := do
  match if q.arg2 = "" then none else BinaryOp.ofText? q.op with
  | some op =>
    needVariables q [q.res]
    need q [q.arg1]
    return .binary op (.ofText q.arg1) (.ofText q.arg2) q.res
  | none =>
    match UnaryOp.ofText? q.op with
    | some op =>
      needVariables q [q.res]
      need q [q.arg1]
      return .unary op (.ofText q.arg1) q.res
    | none => fail (.unknownOpcode q.op)

def ofOpcode (q : Quad) : Except Error Instr :=
  match q.op with
  | "=" => do
    need q [q.arg1, q.res]
    match Operand.ofText q.arg1 with
    | .literal n => return .imm n q.res
    | .variable src => return .copy src q.res
  | "=[]" => do
    needVariables q [q.arg1, q.res]
    need q [q.arg2]
    return .load q.arg1 (.ofText q.arg2) q.res
  | "[]=" => do
    needVariables q [q.res]
    need q [q.arg1, q.arg2]
    return .store q.res (.ofText q.arg1) (.ofText q.arg2)
  | "$=" => do
    needVariables q [q.arg1, q.res]
    return .loadInd q.arg1 q.res
  | "=$" => do
    needVariables q [q.arg1]
    need q [q.arg2]
    return .storeInd q.arg1 (.ofText q.arg2)
  | "param" => do
    need q [q.arg1]
    return .param (.ofText q.arg1)
  | "call" => do
    needVariables q [q.arg1]
    return .call q.arg1 (given? q.res)
  | "ifFalseGoto" => do
    need q [q.arg1, q.res]
    return .branch (.ofText q.arg1) false q.res
  | "ifGoto" => do
    need q [q.arg1, q.res]
    return .branch (.ofText q.arg1) true q.res
  | "goto" => do
    need q [firstGiven q.res q.arg1]
    return .goto (firstGiven q.res q.arg1)
  | "label" => do
    need q [q.arg1]
    return .label (.ofName q.arg1)
  | "return" => return .ret ((given? (firstGiven q.res q.arg1)).map .ofText)
  | "alloc_global" | "alloc" | "nop" => return .nop
  | _ => ofOperation q

/-- The instruction that a quad stands for. -/
def ofQuad (q : Quad) : Except Error Instr := do
  checkRange q [q.arg1, q.arg2, q.res]
  ofOpcode q

end ThreeAddress.Instr
