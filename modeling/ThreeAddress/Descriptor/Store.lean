import ThreeAddress.KeySet.Basic
import ThreeAddress.Register

/-!
Descriptors of registers and variables: which variable each register holds and where each
variable has a valid copy. A variable has a number; a name stands for the one variable of that
name that is not forgotten. The home of a variable, if it has one, is its place in memory.
-/

namespace ThreeAddress.Descriptor

/-- The number of a variable. -/
abbrev Var := Nat

structure Slot where
  usable : Bool := true
  held : KeySet Var := {}
deriving DecidableEq, Repr, Inhabited

structure Entry (Home : Type) where
  name : String
  home : Option Home := none
  /-- The registers that hold a valid copy. -/
  regs : KeySet Reg := {}
  /-- The home holds a valid copy. -/
  homeValid : Bool := false
  forgotten : Bool := false
deriving DecidableEq, Repr, Inhabited

structure Store (Home : Type) where
  slots : Vector Slot 15
  entries : List (Entry Home)
deriving DecidableEq, Repr

namespace Entry

variable {Home : Type}

/-- A register copy is newer than the home. -/
def dirty (e : Entry Home) : Bool := e.home.isSome && !e.homeValid && !e.regs.isEmpty

/-- The lowest register that holds a copy. -/
def register? (e : Entry Home) : Option Reg := e.regs.first?

/-- The variable stays valid when the register is reused. -/
def hasCopyBeside (e : Entry Home) (r : Reg) : Bool := e.homeValid || !(e.regs.erase r).isEmpty

def markStored (e : Entry Home) : Entry Home := { e with homeValid := e.home.isSome }

end Entry

namespace Store

variable {Home : Type}

/-- No variable is known and every register may be used. -/
def empty : Store Home := ⟨Vector.replicate 15 {}, []⟩

def slot (s : Store Home) (r : Reg) : Slot := s.slots.get r

def held (s : Store Home) (r : Reg) : KeySet Var := (s.slot r).held

/-- The least variable in the register. -/
def holder? (s : Store Home) (r : Reg) : Option Var := (s.held r).first?

def isFree (s : Store Home) (r : Reg) : Bool := (s.held r).isEmpty

def isUsable (s : Store Home) (r : Reg) : Bool := (s.slot r).usable

def get? (s : Store Home) (v : Var) : Option (Entry Home) := s.entries[v]?

def lookup (s : Store Home) (name : String) : Option Var :=
  s.entries.findIdx? fun e => !e.forgotten && e.name = name

/-- Variables that are not forgotten, in the order of creation. -/
def live (s : Store Home) : List Var :=
  s.entries.zipIdx.filterMap fun (e, v) => if e.forgotten then none else some v

def modifySlot (s : Store Home) (r : Reg) (f : Slot → Slot) : Store Home :=
  { s with slots := s.slots.set r.val (f (s.slot r)) r.isLt }

def modifyHeld (s : Store Home) (r : Reg) (f : KeySet Var → KeySet Var) : Store Home :=
  s.modifySlot r fun x => { x with held := f x.held }

def modifyEntry (s : Store Home) (v : Var) (f : Entry Home → Entry Home) : Store Home :=
  { s with entries := s.entries.modify v f }

def setUsable (s : Store Home) (r : Reg) (usable : Bool) : Store Home :=
  s.modifySlot r fun x => { x with usable := usable }

/-- The variable of the name, created without a home if it is new. -/
def intern (s : Store Home) (name : String) : Var × Store Home :=
  match s.lookup name with
  | some v => (v, s)
  | none => (s.entries.length, { s with entries := s.entries ++ [{ name := name }] })

/-- Creates the variable or moves it to the home, which holds a valid copy then. -/
def declare (s : Store Home) (name : String) (home : Option Home) : Var × Store Home :=
  let (v, s) := s.intern name
  (v, s.modifyEntry v fun e => { e with home := home, homeValid := home.isSome })

def markStored (s : Store Home) (v : Var) : Store Home := s.modifyEntry v Entry.markStored

def unbind (s : Store Home) (r : Reg) (v : Var) : Store Home :=
  (s.modifyHeld r (·.erase v)).modifyEntry v fun e => { e with regs := e.regs.erase r }

/-- Removes the variable from the registers. -/
def releaseFrom (s : Store Home) (v : Var) (rs : List Reg) : Store Home :=
  rs.foldl (fun s r => s.modifyHeld r (·.erase v)) s

/-- Registers that the variable lists. -/
def locations (s : Store Home) (v : Var) : KeySet Reg :=
  match s.get? v with
  | some e => e.regs
  | none => .empty

/-- Forgets the variable. -/
def drop (s : Store Home) (v : Var) : Store Home :=
  (s.releaseFrom v (s.locations v).toList).modifyEntry v fun e =>
    { e with regs := .empty, forgotten := true }

/-- Forgets the variable if it has neither a home nor a register. -/
def dropOrphan (s : Store Home) (v : Var) : Store Home :=
  match s.get? v with
  | some e => if e.home.isNone && e.regs.isEmpty then s.drop v else s
  | none => s

/-- Takes the variables out of the register. Those left without any location are forgotten. -/
def evict (s : Store Home) (r : Reg) (vs : List Var) : Store Home :=
  vs.foldl (fun s v => (s.unbind r v).dropOrphan v) s

def clearRegister (s : Store Home) (r : Reg) : Store Home := s.evict r (s.held r).toList

def clearAll (s : Store Home) : Store Home := Reg.all.foldl clearRegister s

/-- The register holds a valid copy of the variable and nothing else. -/
def bind (s : Store Home) (r : Reg) (v : Var) : Store Home :=
  let s := s.evict r ((s.held r).toList.filter (· ≠ v))
  (s.modifyHeld r fun _ => .single v).modifyEntry v fun e => { e with regs := e.regs.insert r }

/-- The register becomes the only valid location of the variable. -/
def commit (s : Store Home) (r : Reg) (v : Var) : Store Home :=
  let s := s.releaseFrom v ((s.locations v).toList.filter (· ≠ r))
  (s.bind r v).modifyEntry v fun e => { e with regs := .single r, homeValid := false }

/-- Each register that holds something, with the name of its variable. -/
def wire (s : Store Home) : Wire.Bytes :=
  Wire.opening .map ++
    Reg.all.flatMap (fun r =>
      match (s.holder? r).bind s.get? with
      | some e => Wire.string r.name ++ Wire.string e.name
      | none => []) ++
    Wire.closing

end Store

end ThreeAddress.Descriptor
