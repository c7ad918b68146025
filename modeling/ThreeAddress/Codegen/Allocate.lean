import ThreeAddress.Codegen.Liveness
import ThreeAddress.Codegen.State

/-!
Register allocation. A variable stays where it is; else the lowest free register is taken;
else the register is emptied whose variables are cheapest to bring back.
-/

namespace ThreeAddress.Codegen

open Asm (Line Mem)
open Descriptor (Store Var Entry)

/-- The other operand of an instruction and its result, whose loss is free or forbidden. -/
structure Needs where
  other : Option String := none
  res : Option String := none

/-- The instruction overwrites the variable and does not read it. -/
def Needs.overwrites (n : Needs) (name : String) : Bool := n.res = some name && n.other ≠ some name

def laterUse (site : Site) (b : Body) (name : String) : Bool := usedLater b.pending site.rest name

/-- The variable of the name. A global scalar is entered at its first mention. -/
def resolve? (site : Site) (name : String) : Step (Option Var) := do
  match (← get).store.lookup name with
  | some v => pure (some v)
  | none =>
    match site.table.lookup name with
    | some s =>
      if s.isScalar then
        let (v, store) := (← get).store.declare name (some (.global name))
        modifyStore fun _ => store
        pure (some v)
      else pure none
    | none => pure none

/-- Stores the variable from the register to its home. -/
def storeTo (r : Reg) (v : Var) (home : Mem) : Step Unit := do
  emitInstr (.sw (.pool r) home)
  modifyStore (·.markStored v)

/-- Loads and stores that emptying the register causes for a variable in it; nothing if the
variable would be lost. -/
def entryCost (later : String → Bool) (needs : Needs) (r : Reg) (e : Entry Mem) : Option Nat :=
  if needs.overwrites e.name then some 0
  else if needs.other ≠ some e.name && !later e.name then some 0
  else if e.hasCopyBeside r then some 0
  else if e.home.isSome then some 1
  else none

/-- The variables in the register. -/
def heldEntries (r : Reg) : Step (List (Var × Entry Mem)) := do
  ((← get).store.held r).toList.mapM fun v => do pure (v, ← entryOf v)

def spillCost (site : Site) (needs : Needs) (r : Reg) : Step (Option Nat) := do
  let entries ← heldEntries r
  let later := laterUse site (← get)
  pure ((entries.mapM fun x => entryCost later needs r x.2).map fun costs => costs.foldr (· + ·) 0)

/-- A variable that would be lost costs more than any other. -/
def cheaper : Option Nat → Option Nat → Bool
  | some m, some n => m < n
  | some _, none => true
  | none, _ => false

/-- The first register of least cost. -/
def cheapest? : List (Reg × Option Nat) → Option (Reg × Option Nat)
  | [] => none
  | x :: rest =>
    match cheapest? rest with
    | none => some x
    | some y => if cheaper y.2 x.2 then some y else some x

/-- Empties the register. Variables that would lose their only copy are stored first. -/
def spill (needs : Needs) (r : Reg) : Step Unit := do
  (← heldEntries r).forM fun (v, e) =>
    match e.home with
    | some home =>
      if !needs.overwrites e.name && !e.homeValid && !e.hasCopyBeside r then storeTo r v home
      else pure ()
    | none => pure ()
  modifyStore (·.clearRegister r)

/-- Registers that the current instruction may still take. -/
def candidates (b : Body) : List Reg :=
  Reg.all.filter fun r => b.store.isUsable r && r ∉ b.reserved

def freeRegister? (b : Body) : Option Reg := (candidates b).find? b.store.isFree

/-- Takes the cheapest register from the variables in it. -/
def seize (site : Site) (name : String) (needs : Needs) : Step Reg := do
  let costs ← (candidates (← get)).mapM fun r => do pure (r, ← spillCost site needs r)
  match cheapest? costs with
  | none => failWith (.allReserved name)
  | some (_, none) => failWith (.allLive name)
  | some (r, some _) =>
    spill needs r
    pure r

/-- The lowest register that holds the variable of the name. -/
def residence? (site : Site) (name : String) : Step (Option Reg) := do
  match ← resolve? site name with
  | some v => pure (← entryOf v).register?
  | none => pure none

/-- A register for the name, reserved for the current instruction. -/
def acquire (site : Site) (name : String) (needs : Needs) : Step Reg := do
  let r ← match ← residence? site name with
    | some r => pure r
    | none =>
      match freeRegister? (← get) with
      | some r => pure r
      | none => seize site name needs
  reserve r
  pure r

/-- Makes the register hold a valid copy of the variable. -/
def ensureLoaded (site : Site) (name : String) (r : Reg) : Step Unit := do
  match ← resolve? site name with
  | none => unresolved site (.undefinedName name)
  | some v =>
    let e ← entryOf v
    if e.regs.contains r then pure ()
    else match e.register? with
      | some q =>
        emitInstr (.mv (.pool r) (.pool q))
        modifyStore (·.bind r v)
      | none =>
        match if e.homeValid then e.home else none with
        | some home =>
          emitAll (loadInstrs site.options (.pool r) home)
          modifyStore (·.bind r v)
        | none => unresolved site (.noValidLocation name)

/-- A register that holds a valid copy of the variable. -/
def loaded (site : Site) (name : String) (needs : Needs) : Step Reg := do
  let r ← acquire site name needs
  ensureLoaded site name r
  pure r

/-- The register of an operand's value. A literal goes to the scratch register, except zero. -/
def operand (site : Site) (x : Operand) (needs : Needs) (scratch : MachineReg) : Step MachineReg := do
  match x with
  | .literal n =>
    if n = 0 then pure .zero
    else
      emitAll (immediateInstrs scratch n)
      pure scratch
  | .variable name => pure (.pool (← loaded site name needs))

/-- Makes the register the only location of the result. -/
def commit (site : Site) (r : Reg) (name : String) : Step Unit := do
  match ← resolve? site name with
  | some v =>
    let _ ← entryOf v
    modifyStore (·.commit r v)
  | none => modifyStore fun s => let (v, s) := s.intern name; s.commit r v

/-- Copies an operand's value into a register outside of the pool. -/
def copyTo (site : Site) (dst : MachineReg) (x : Operand) : Step Unit := do
  match x with
  | .literal n => emitAll (immediateInstrs dst n)
  | .variable name =>
    match ← resolve? site name with
    | none => unresolved site (.undefinedName name)
    | some v =>
      let e ← entryOf v
      match e.register? with
      | some r => emitInstr (.mv dst (.pool r))
      | none =>
        match if e.homeValid then e.home else none with
        | some home => emitAll (loadInstrs site.options dst home)
        | none => unresolved site (.noValidLocation name)

/-- Stores a variable whose register copy is newer than its home. -/
def writeBackOne (v : Var) : Step Unit := do
  let e ← entryOf v
  match e.home, e.register? with
  | some home, some r => if e.homeValid then pure () else storeTo r v home
  | _, _ => pure ()

/-- Stores every variable whose register copy is newer than its home. -/
def writeBack : Step Unit := do (← get).store.live.forM writeBackOne

/-- Ends a block: nothing stays in registers. -/
def flush : Step Unit := do
  writeBack
  modifyStore (·.clearAll)

/-- Drops the register copies of a variable that lives in memory. -/
def evictOne (v : Var) : Step Unit := do
  let e ← entryOf v
  if e.home.isSome then modifyStore fun s => e.regs.toList.foldl (fun s r => s.unbind r v) s
  else pure ()

def evictHomed : Step Unit := do (← get).store.live.forM evictOne

end ThreeAddress.Codegen
