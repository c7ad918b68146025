import ThreeAddress.Asm.Listing
import ThreeAddress.Descriptor.Store
import ThreeAddress.Frame.Plan
import ThreeAddress.Instr.Basic

/-! State of the code generator. Everything it knows about registers and variables belongs to
the procedure it is in. -/

namespace ThreeAddress.Codegen

open Asm (Line Mem)
open Descriptor (Store Var Entry)

/-- What the generator reads at an instruction: the program, the position and the code that
follows. -/
structure Site where
  options : Options
  table : Scope
  frames : List Frame.Layout
  position : Nat
  rest : List Quad

/-- What the generator has produced so far. -/
structure Output where
  lines : Array Line := #[]
  warnings : Array Error := #[]
deriving Inhabited

def Output.push (o : Output) (l : Line) : Output := { o with lines := o.lines.push l }

def Output.warn (o : Output) (e : Error) : Output := { o with warnings := o.warnings.push e }

/-- How the elements of an array are addressed. -/
inductive ArrayPlace
  | global
  | frame (offset : Int64)
  | pointer
deriving DecidableEq, Repr, Inhabited

/-- Words of local data that no declaration takes. The owners took the first of them, in order. -/
structure SpareWords where
  first : Int64
  limit : Int64
  owners : List String := []
deriving DecidableEq, Repr, Inhabited

/-- The generator inside of a procedure. -/
structure Body where
  out : Output
  function : Symbol
  layout : Frame.Layout
  store : Store Mem
  arrays : List (String × ArrayPlace)
  spare : SpareWords
  /-- Arguments that wait for their call, in order. -/
  pending : List Operand := []
  /-- The last instruction returned. -/
  returned : Bool := false
  /-- Registers in use by the current instruction. -/
  reserved : List Reg := []

inductive State
  | idle (out : Output)
  | inside (body : Body)

def State.out : State → Output
  | .idle out => out
  | .inside body => body.out

/-- A step inside of a procedure. -/
abbrev Step := StateT Body (Except Error)

def failWith {α : Type} (c : Cause) : Step α := fun _ => fail c

def within {α : Type} (c : Context) (x : Step α) : Step α := fun b => inContext c (x b)

def emit (l : Line) : Step Unit := modify fun b => { b with out := b.out.push l }

def emitInstr (i : Asm.Instr) : Step Unit := emit (.instr i)

def modifyStore (f : Store Mem → Store Mem) : Step Unit :=
  modify fun b => { b with store := f b.store }

/-- The entry of a variable that is known to exist. -/
def entryOf (v : Var) : Step (Entry Mem) := do
  match (← get).store.get? v with
  | some e => pure e
  | none => failWith .fault

def reserve (r : Reg) : Step Unit := modify fun b => { b with reserved := r :: b.reserved }

/-- Reports an unresolved reference: as a failure in strict mode, else as a warning. -/
def unresolved (site : Site) (c : Cause) : Step Unit :=
  if site.options.strict then failWith c
  else modify fun b =>
    { b with out := b.out.warn { contexts := [.instr site.position], cause := c } }

/-- Empty instructions for delay slots. -/
def delay (options : Options) (n : Nat) : List Asm.Instr :=
  if options.delaySlots then List.replicate n .nop else []

/-- A load and the delay slots behind it. -/
def loadInstrs (options : Options) (dst : MachineReg) (src : Mem) : List Asm.Instr :=
  .lw dst src :: delay options 2

/-- A jump and the delay slot behind it. -/
def jumpInstrs (options : Options) (i : Asm.Instr) : List Asm.Instr := i :: delay options 1

/-- Puts an immediate into a register: in one instruction if it has sixteen bits, else its upper
and lower halves one after the other. -/
def immediateInstrs (dst : MachineReg) (n : Int) : List Asm.Instr :=
  if -0x8000 ≤ n && n < 0x8000 then [.aluImm .addi dst .zero n]
  else [.lui dst (n / 0x10000), .aluImm .ori dst dst (n % 0x10000)]

def emitAll (is : List Asm.Instr) : Step Unit := is.forM emitInstr

/-- A word of the frame. -/
def frameWord (offset : Int64) : Mem := .offset offset.toInt .sp

end ThreeAddress.Codegen
