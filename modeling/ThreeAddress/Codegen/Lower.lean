import ThreeAddress.Codegen.Allocate

/-! Instruction selection inside of a block. -/

namespace ThreeAddress.Codegen

open Asm (Line Mem)

/-- Machine instructions of a binary operator. The result register may be one of the operand
registers. -/
def binaryInstrs (op : BinaryOp) (r y z : MachineReg) : List Asm.Instr :=
  match op with
  | .add => [.alu .add r y z]
  | .sub => [.alu .sub r y z]
  | .and => [.alu .and r y z]
  | .or => [.alu .or r y z]
  | .xor => [.alu .xor r y z]
  | .shl => [.alu .sllv r y z]
  | .shr => [.alu .srlv r y z]
  | .eq => [.alu .sub r y z, .alu .sltu r .zero r, .aluImm .xori r r 1]
  | .ne => [.alu .sub r y z, .alu .sltu r .zero r]
  | .lt => [.alu .slt r y z]
  | .gt => [.alu .slt r z y]
  | .ge => [.alu .slt r y z, .aluImm .xori r r 1]
  | .le => [.alu .slt r z y, .aluImm .xori r r 1]
  | .mul => [.mult y z, .mflo r]
  | .div => [.div y z, .mflo r]
  | .mod => [.div y z, .mfhi r]

/-- Machine instructions of a unary operator. -/
def unaryInstrs (op : UnaryOp) (r y : MachineReg) : List Asm.Instr :=
  match op with
  | .neg => [.alu .sub r .zero y]
  | .bitNot => [.alu .nor r y y]
  | .not => [.aluImm .sltiu r y 1]
  | .plus => if r = y then [] else [.mv r y]

/-- The pool register of an operand that is the result variable too. -/
def shared? (x : Operand) (y : MachineReg) (res : String) : Option Reg :=
  match x, y with
  | .variable name, .pool r => if name = res then some r else none
  | _, _ => none

def binary (site : Site) (op : BinaryOp) (left right : Operand) (res : String) : Step Unit := do
  let y ← within .left (operand site left ⟨right.name?, some res⟩ .scratchLeft)
  let z ← within .right (operand site right ⟨left.name?, some res⟩ .scratchRight)
  let r ← match shared? left y res, shared? right z res with
    | some r, _ => pure r
    | none, some r => pure r
    | none, none => within .result (acquire site res ⟨none, some res⟩)
  emitAll (binaryInstrs op (.pool r) y z)
  commit site r res

def unary (site : Site) (op : UnaryOp) (x : Operand) (res : String) : Step Unit := do
  let y ← operand site x ⟨none, some res⟩ .scratchLeft
  let r ← match shared? x y res with
    | some r => pure r
    | none => within .result (acquire site res ⟨x.name?, some res⟩)
  emitAll (unaryInstrs op (.pool r) y)
  commit site r res

def immediate (site : Site) (n : Int) (res : String) : Step Unit := do
  let r ← acquire site res ⟨none, some res⟩
  emitAll (immediateInstrs (.pool r) n)
  commit site r res

def copy (site : Site) (src res : String) : Step Unit := do
  if src = res then pure ()
  else
    let y ← loaded site src ⟨none, some res⟩
    let r ← within .result (acquire site res ⟨some src, some res⟩)
    emitInstr (.mv (.pool r) (.pool y))
    commit site r res

/-- How the array of the name is addressed. A scalar variable is a pointer. -/
def arrayPlace (site : Site) (name : String) : Step ArrayPlace := do
  let b ← get
  match b.arrays.lookup name, b.store.lookup name, site.table.lookup name with
  | some place, _, _ => pure place
  | none, some _, _ => pure .pointer
  | none, none, some s =>
    if s.isScalar then pure .pointer
    else if s.isVariable then pure .global
    else failWith (.notAnArray name)
  | none, none, none => failWith (.notAnArray name)

/-- Computes the address of an element into the address register; the memory operand is the
element. -/
def element (site : Site) (array : String) (index : Operand) (needs : Needs) : Step Mem := do
  let i ← within .index (operand site index needs .scratchLeft)
  emitInstr (.aluImm .sll .address i 2)
  match ← arrayPlace site array with
  | .global => pure (.indexed array .address)
  | .frame offset =>
    emitInstr (.alu .add .address .address .sp)
    pure (.offset offset.toInt .address)
  | .pointer =>
    let base ← within .base (loaded site array ⟨index.name?, needs.res⟩)
    emitInstr (.alu .add .address .address (.pool base))
    pure (.offset 0 .address)

def loadElement (site : Site) (array : String) (index : Operand) (res : String) : Step Unit := do
  let mem ← element site array index ⟨none, some res⟩
  let r ← within .result (acquire site res ⟨none, some res⟩)
  emitAll (loadInstrs site.options (.pool r) mem)
  commit site r res

def storeElement (site : Site) (array : String) (index value : Operand) : Step Unit := do
  let mem ← element site array index ⟨value.name?, none⟩
  let x ← within .value (operand site value ⟨index.name?, none⟩ .scratchLeft)
  emitInstr (.sw x mem)

def loadIndirect (site : Site) (pointer res : String) : Step Unit := do
  let p ← within .pointer (loaded site pointer ⟨none, some res⟩)
  let r ← within .result (acquire site res ⟨some pointer, some res⟩)
  emitAll (loadInstrs site.options (.pool r) (.offset 0 (.pool p)))
  commit site r res

def storeIndirect (site : Site) (pointer : String) (value : Operand) : Step Unit := do
  let p ← within .pointer (loaded site pointer ⟨value.name?, none⟩)
  let x ← within .value (operand site value ⟨some pointer, none⟩ .scratchLeft)
  emitInstr (.sw x (.offset 0 (.pool p)))

def branch (site : Site) (cond : Operand) (ifTrue : Bool) (target : String) : Step Unit := do
  let c ← operand site cond {} .scratchLeft
  flush
  emitAll (jumpInstrs site.options (if ifTrue then .bne c .zero target else .beq c .zero target))

def jump (site : Site) (target : String) : Step Unit := do
  flush
  emitAll (jumpInstrs site.options (.j target))

def enqueue (x : Operand) : Step Unit := modify fun b => { b with pending := b.pending ++ [x] }

end ThreeAddress.Codegen
