import ThreeAddress.Codegen.Allocate

/-! Entry and exit of procedures. -/

namespace ThreeAddress.Codegen

open Asm (Line Mem)
open Descriptor (Store)

/-- The saved registers that the frame has slots for, each with its slot. -/
def saveSlots (l : Frame.Layout) : List (MachineReg × Mem) :=
  (Reg.savedRegs.take l.savedCount.toInt.toNat).zipIdx.map fun (r, k) =>
    (.pool r, frameWord (l.saveOffset (Int64.ofNat k)))

/-- The slot of the return address, if the function calls. -/
def returnSlots (l : Frame.Layout) : List (MachineReg × Mem) :=
  if l.leaf then [] else [(.ra, frameWord l.returnOffset)]

/-- Moves the stack pointer. -/
def adjustStack (l : Frame.Layout) (bytes : Int64) : List Asm.Instr :=
  if l.totalWords = 0 then [] else [.aluImm .addi .sp .sp bytes.toInt]

/-- Lowers the stack pointer and stores what the function has to keep and its register
arguments. -/
def prologue (l : Frame.Layout) (params : Nat) : List Asm.Instr :=
  let arguments := (MachineReg.argumentRegs.take params).zipIdx.map fun (r, i) =>
    (r, frameWord (l.paramOffset (Int64.ofNat i)))
  adjustStack l (-l.bytes) ++
    (returnSlots l ++ saveSlots l ++ arguments).map fun (r, slot) => .sw r slot

/-- Loads what the function has to keep, raises the stack pointer and returns. -/
def epilogue (options : Options) (l : Frame.Layout) : List Asm.Instr :=
  (saveSlots l ++ returnSlots l).flatMap (fun (r, slot) => loadInstrs options r slot) ++
    adjustStack l l.bytes ++ jumpInstrs options (.jr .ra)

/-- The declarations with their offsets, from a word of the local data on. -/
def placeLocals (l : Frame.Layout) (word : Int64) : List Decl → List (Decl × Int64)
  | [] => []
  | d :: rest => (d, l.localOffset word) :: placeLocals l (word + d.words) rest

def placeParams (l : Frame.Layout) (params : List Decl) : List (Decl × Int64) :=
  params.zipIdx.map fun (d, i) => (d, l.paramOffset (Int64.ofNat i))

/-- Declares variables at their words of the frame. -/
def declareAll (s : Store Mem) (places : List (Decl × Int64)) : Store Mem :=
  places.foldl (fun s (d, offset) => (s.declare d.name (some (frameWord offset))).2) s

/-- The entry function may use every saved register, another one those that it saves. -/
def usableRegisters (s : Store Mem) (entry : Bool) (l : Frame.Layout) : Store Mem :=
  Reg.savedRegs.zipIdx.foldl (fun s (r, k) => s.setUsable r (entry || Int64.ofNat k < l.savedCount)) s

/-- The generator at the start of a procedure. -/
def Body.start (options : Options) (out : Output) (f : Symbol) (l : Frame.Layout) : Body :=
  let params := placeParams l f.params
  let locals := placeLocals l 0 f.locals
  let (arrays, scalars) := locals.partition (·.1.isArray)
  let out := (prologue l f.params.length).foldl (fun o i => o.push (.instr i)) (out.push (.label f.name))
  let store := usableRegisters .empty (f.name = options.entry) l
  { out := out
    function := f
    layout := l
    store := declareAll (declareAll store params) scalars
    arrays :=
      (params.filter (·.1.isArray)).map (fun (d, _) => (d.name, .pointer)) ++
        arrays.map fun (d, offset) => (d.name, .frame offset)
    spare := { first := totalWords f.locals, limit := l.localWords } }

def enter (site : Site) (name : String) (out : Output) : Except Error Body :=
  match site.table.lookup name with
  | none => fail (.notAFunction name)
  | some f =>
    if !f.isFunction then fail (.notAFunction name)
    else do
      let l ← Frame.find site.frames f.name
      let words := totalWords f.locals
      if words > l.localWords then
        fail (.localsTooLarge f.name words.toInt l.localWords.toInt)
      else return .start site.options out f l

/-- Ends the procedure. Nothing follows a return. -/
def leave (site : Site) : Step Unit := do
  flush
  let b ← get
  if b.returned then pure () else emitAll (epilogue site.options b.layout)

def ret (site : Site) (x : Option Operand) : Step Unit := do
  match x with
  | some x => copyTo site .result x
  | none => pure ()
  flush
  emitAll (epilogue site.options (← get).layout)
  modify fun b => { b with returned := true }

end ThreeAddress.Codegen
