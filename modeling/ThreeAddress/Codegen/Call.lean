import ThreeAddress.Codegen.Allocate

/-!
Calls. Arguments go to registers and outgoing slots, variables with a home go there, and
temporaries that are used later move to saved registers or spare words.
-/

namespace ThreeAddress.Codegen

open Asm (Line Mem)
open Descriptor (Var)

/-- Passes the argument at a position. -/
def passArgument (site : Site) (i : Nat) (x : Operand) : Step Unit := do
  match MachineReg.argument? i with
  | some dst => copyTo site dst x
  | none =>
    let slot := frameWord ((← get).layout.outgoingOffset (Int64.ofNat i))
    let inRegister ← match x with
      | .literal _ => pure none
      | .variable name => residence? site name
    match inRegister with
    | some r => emitInstr (.sw (.pool r) slot)
    | none =>
      copyTo site .address x
      emitInstr (.sw .address slot)

def passArguments (site : Site) (start : Nat) : List Operand → Step Unit
  | [] => pure ()
  | x :: rest => do
    within (.argument start) (passArgument site start x)
    passArguments site (start + 1) rest

/-- A spare word for the temporary. A word whose owner is not used any more is taken first and
its owner forgotten. -/
def spareWord? (site : Site) (name : String) : Step (Option Mem) := do
  let b ← get
  let spare := b.spare
  let wordAt (i : Nat) : Mem := frameWord (b.layout.localOffset (spare.first + Int64.ofNat i))
  match spare.owners.findIdx? fun owner => !laterUse site b owner with
  | some i =>
    match (spare.owners[i]?).bind b.store.lookup with
    | some v => modifyStore (·.drop v)
    | none => pure ()
    modify fun b => { b with spare := { spare with owners := spare.owners.set i name } }
    pure (some (wordAt i))
  | none =>
    let i := spare.owners.length
    if spare.first + Int64.ofNat i < spare.limit then
      modify fun b => { b with spare := { spare with owners := spare.owners ++ [name] } }
      pure (some (wordAt i))
    else pure none

/-- A saved register that nothing uses. -/
def freeSaved? (b : Body) : Option Reg :=
  Reg.savedRegs.find? fun r => b.store.isUsable r && b.store.isFree r && !b.reserved.contains r

/-- Moves a temporary that is used later out of a register that the call may change. -/
def keep (site : Site) (r : Reg) : Step Unit := do
  match (← get).store.holder? r with
  | none => pure ()
  | some v =>
    let e ← entryOf v
    if e.home.isSome || !laterUse site (← get) e.name then pure ()
    else match freeSaved? (← get) with
      | some s =>
        emitInstr (.mv (.pool s) (.pool r))
        modifyStore (·.bind s v)
        reserve s
      | none =>
        match ← spareWord? site e.name with
        | some home =>
          emitInstr (.sw (.pool r) home)
          modifyStore fun s => (s.declare e.name (some home)).2
        | none => failWith (.cannotKeep e.name)

/-- Empties the register if the call may change it or the variable in it. -/
def forget (r : Reg) : Step Unit := do
  let changed ← match (← get).store.holder? r with
    | some v => pure ((← entryOf v).home.isSome)
    | none => pure false
  if r.isTemporary || changed then modifyStore (·.clearRegister r) else pure ()

def call (site : Site) (function : String) (res : Option String) : Step Unit := do
  let _ ← (Frame.find site.frames function : Except Error _)
  match site.table.lookup function with
  | none => failWith .fault
  | some f =>
    let args := (← get).pending
    modify fun b => { b with pending := [] }
    if args.length ≠ f.params.length then
      failWith (.argumentCount function args.length f.params.length)
    else
      passArguments site 0 args
      writeBack
      Reg.temporaries.forM (keep site)
      emitAll (jumpInstrs site.options (.jal function))
      Reg.all.forM forget
      match res with
      | none => pure ()
      | some res =>
        let r ← within .result (acquire site res ⟨none, some res⟩)
        emitInstr (.mv (.pool r) .result)
        commit site r res

end ThreeAddress.Codegen
