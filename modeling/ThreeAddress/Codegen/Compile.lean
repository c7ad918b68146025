import ThreeAddress.Codegen.Call
import ThreeAddress.Codegen.Lower
import ThreeAddress.Codegen.Procedure
import ThreeAddress.Instr.Decode

/-! Compilation of three-address code to an assembly listing. -/

namespace ThreeAddress.Codegen

open Asm (Line Listing)

/-- An instruction inside of a block. Where every instruction flushes, no variable with a home
stays in a register. -/
def straight (site : Site) (x : Step Unit) : Step Unit := do
  x
  if site.options.flushEach then
    writeBack
    evictHomed
  else pure ()

/-- Code of an instruction inside of a procedure. -/
def lower (site : Site) : Instr → Step Unit
  | .binary op left right res => straight site (binary site op left right res)
  | .unary op x res => straight site (unary site op x res)
  | .imm n res => straight site (immediate site n res)
  | .copy src res => straight site (copy site src res)
  | .load array index res => straight site (loadElement site array index res)
  | .store array index value => straight site (storeElement site array index value)
  | .loadInd pointer res => straight site (loadIndirect site pointer res)
  | .storeInd pointer value => straight site (storeIndirect site pointer value)
  | .param x => straight site (enqueue x)
  | .call function res => call site function res
  | .branch cond ifTrue target => branch site cond ifTrue target
  | .goto target => jump site target
  | .ret x => ret site x
  | .label l => do
    flush
    emit (.label l.name)
  | .nop => pure ()

/-- Runs a step of a procedure. -/
def Body.advance (b : Body) (x : Step Unit) : Except Error Body := do
  let ((), b) ← x { b with reserved := [], returned := false }
  return b

def stepLabel (site : Site) (l : Label) : State → Except Error State
  | .idle out =>
    match l.boundary with
    | .plain => .ok (.idle (out.push (.label l.name)))
    | .entry f => do return .inside (← enter site f out)
    | .exit f => fail (.exitOutside f)
  | .inside b =>
    match l.boundary with
    | .plain => do return .inside (← b.advance (lower site (.label l)))
    | .entry f => fail (.nestedEntry f b.function.name)
    | .exit f =>
      if f ≠ b.function.name then fail (.wrongExit b.function.name f)
      else do
        let ((), b) ← leave site b
        return .idle b.out

def step (site : Site) (x : Instr) (st : State) : Except Error State :=
  match x, st with
  | .nop, st => .ok st
  | .label l, st => stepLabel site l st
  | _, .idle _ => fail .outsideOfFunction
  | x, .inside b => do return .inside (← b.advance (lower site x))

/-- Decodes the code, whose quads have to bear their positions from `start` on. -/
def decodeFrom (start : Nat) : List Quad → Except Error (List Instr)
  | [] => .ok []
  | q :: rest =>
    if q.index ≠ start then fail (.notNumbered start q)
    else do
      let x ← inContext (.instr start) (Instr.ofQuad q)
      return x :: (← decodeFrom (start + 1) rest)

/-- Runs the generator over the code and its instructions from a position on. -/
def runFrom (options : Options) (table : Scope) (frames : List Frame.Layout) (start : Nat) :
    List Quad → List Instr → State → Except Error State
  | q :: rest, x :: xs, st => do
    let site : Site := ⟨options, table, frames, start, rest⟩
    let st ← inContext (.instrOf start q) (step site x st)
    runFrom options table frames (start + 1) rest xs st
  | _, _, st => .ok st

/-- Storage of the global variables and the start of the code. -/
def header (table : Scope) : List Line :=
  .dataSection ::
    (table.globalVariables.map fun s =>
      if s.isArray then Line.space s.name (s.words * wordSize).toInt else Line.word s.name) ++
    [.textSection]

def compile (options : Options) (table : Scope) (code : List Quad) : Except Error Listing := do
  let instrs ← decodeFrom 0 code
  let frames := Frame.plan options table code
  let st ← runFrom options table frames 0 code instrs (.idle { lines := (header table).toArray })
  match st with
  | .idle out => return ⟨out.lines.toList, frames, out.warnings.toList⟩
  | .inside b => fail (.missingExit b.function.name)

end ThreeAddress.Codegen
