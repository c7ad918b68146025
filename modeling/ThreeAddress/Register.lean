import ThreeAddress.Text.Integer
import ThreeAddress.Wire

/-!
Registers. The allocator hands out a pool of fifteen: seven that a call may change (`t0` to
`t6`), then eight that a function keeps for its caller (`s0` to `s7`). Lower numbers go first.
-/

namespace ThreeAddress

/-- A register of the pool. -/
abbrev Reg := Fin 15

namespace Reg

def all : List Reg := List.finRange 15

/-- The registers that a call may change. -/
def temporaries : List Reg := [0, 1, 2, 3, 4, 5, 6]

/-- The registers that a function keeps for its caller. -/
def savedRegs : List Reg := [7, 8, 9, 10, 11, 12, 13, 14]

def isTemporary (r : Reg) : Bool := r.val < 7

/-- The name of a register number; numbers outside of the pool have a name too. -/
def nameOf (n : Int) : String :=
  if n < 0 || 15 ≤ n then "r" ++ Text.integerText n
  else if n < 7 then "t" ++ Text.integerText n
  else "s" ++ Text.integerText (n - 7)

def name (r : Reg) : String := nameOf r.val

def ofNumber? (n : Int) : Option Reg :=
  if h : 0 ≤ n ∧ n < 15 then some ⟨n.toNat, by omega⟩ else none

/-- Numbers of registers that a call may change. -/
def isTemporaryNumber (n : Int) : Bool := 0 ≤ n && n < 7

/-- The position of a register number among the saved registers, or -1. -/
def savedIndexOf (n : Int) : Int := if 7 ≤ n && n < 15 then n - 7 else -1

/-- The register number of a position among the saved registers. -/
def savedNumber (k : Int64) : Int64 := 7 + k

/-- The name of the register that passes the argument at a position. -/
def argumentName (i : Int) : String := "a" ++ Text.integerText i

def wireOf (n : Int) : Wire.Bytes := Wire.string (nameOf n)

end Reg

/-- A register of the machine. Arguments pass in `a0` to `a3`, results in `a0`; `a6` and `a7`
hold literals and addresses for one instruction. -/
inductive MachineReg
  | zero
  | ra
  | sp
  | arg (i : Fin 8)
  | pool (r : Reg)
deriving DecidableEq, Repr, Inhabited

namespace MachineReg

def result : MachineReg := .arg 0

def scratchLeft : MachineReg := .arg 6

def scratchRight : MachineReg := .arg 7

def address : MachineReg := .arg 7

/-- The registers of the first arguments. -/
def argumentRegs : List MachineReg := [.arg 0, .arg 1, .arg 2, .arg 3]

/-- The register of the argument at a position, if it passes in one. -/
def argument? (i : Nat) : Option MachineReg := argumentRegs[i]?

def name : MachineReg → String
  | .zero => "zero"
  | .ra => "ra"
  | .sp => "sp"
  | .arg i => Reg.argumentName i.val
  | .pool r => r.name

end MachineReg

end ThreeAddress
