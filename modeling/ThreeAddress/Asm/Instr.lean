import ThreeAddress.Register

/-! Machine instructions and their text. -/

namespace ThreeAddress.Asm

/-- A memory operand. -/
inductive Mem
  /-- The word of a global variable. -/
  | global (name : String)
  /-- The word at an offset from a register. -/
  | offset (bytes : Int) (base : MachineReg)
  /-- The word of a global array at the byte index in a register. -/
  | indexed (array : String) (index : MachineReg)
deriving DecidableEq, Repr, Inhabited

def Mem.text : Mem → String
  | .global name => name
  | .offset bytes base => Text.integerText bytes ++ "(" ++ base.name ++ ")"
  | .indexed array index => array ++ "(" ++ index.name ++ ")"

/-- Operations on two registers. -/
inductive AluOp
  | add
  | sub
  | and
  | or
  | xor
  | nor
  | sllv
  | srlv
  | slt
  | sltu
deriving DecidableEq, Repr, Inhabited

def AluOp.text : AluOp → String
  | .add => "add"
  | .sub => "sub"
  | .and => "and"
  | .or => "or"
  | .xor => "xor"
  | .nor => "nor"
  | .sllv => "sllv"
  | .srlv => "srlv"
  | .slt => "slt"
  | .sltu => "sltu"

/-- Operations on a register and an immediate. -/
inductive ImmOp
  | addi
  | ori
  | xori
  | sltiu
  | sll
deriving DecidableEq, Repr, Inhabited

def ImmOp.text : ImmOp → String
  | .addi => "addi"
  | .ori => "ori"
  | .xori => "xori"
  | .sltiu => "sltiu"
  | .sll => "sll"

inductive Instr
  | alu (op : AluOp) (dst left right : MachineReg)
  | aluImm (op : ImmOp) (dst src : MachineReg) (imm : Int)
  | lui (dst : MachineReg) (imm : Int)
  | mv (dst src : MachineReg)
  | mult (left right : MachineReg)
  | div (left right : MachineReg)
  | mflo (dst : MachineReg)
  | mfhi (dst : MachineReg)
  | lw (dst : MachineReg) (src : Mem)
  | sw (src : MachineReg) (dst : Mem)
  | beq (left right : MachineReg) (target : String)
  | bne (left right : MachineReg) (target : String)
  | j (target : String)
  | jal (target : String)
  | jr (target : MachineReg)
  | nop
deriving DecidableEq, Repr, Inhabited

/-- The mnemonic and its operands with commas between them. -/
def spell (mnemonic : String) (operands : List String) : String :=
  mnemonic ++ " " ++ ", ".intercalate operands

def Instr.text : Instr → String
  | .alu op dst left right => spell op.text [dst.name, left.name, right.name]
  | .aluImm op dst src imm => spell op.text [dst.name, src.name, Text.integerText imm]
  | .lui dst imm => spell "lui" [dst.name, Text.integerText imm]
  | .mv dst src => spell "mv" [dst.name, src.name]
  | .mult left right => spell "mult" [left.name, right.name]
  | .div left right => spell "div" [left.name, right.name]
  | .mflo dst => spell "mflo" [dst.name]
  | .mfhi dst => spell "mfhi" [dst.name]
  | .lw dst src => spell "lw" [dst.name, src.text]
  | .sw src dst => spell "sw" [src.name, dst.text]
  | .beq left right target => spell "beq" [left.name, right.name, target]
  | .bne left right target => spell "bne" [left.name, right.name, target]
  | .j target => spell "j" [target]
  | .jal target => spell "jal" [target]
  | .jr target => spell "jr" [target.name]
  | .nop => "nop"

end ThreeAddress.Asm
