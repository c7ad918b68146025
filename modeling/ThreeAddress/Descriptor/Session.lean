import ThreeAddress.Descriptor.Store
import ThreeAddress.Fault
import ThreeAddress.KeySet.Session

/-! Commands on a descriptor store with registers and variables given by any number. Homes are
text, and the empty text is no home. -/

namespace ThreeAddress.Descriptor

inductive Command
  | reset
  | declare (name home : String)
  | intern (name : String)
  | lookup (name : String)
  | name (v : Int)
  | home (v : Int)
  | homeValid (v : Int)
  | dirty (v : Int)
  | markStored (v : Int)
  | locations (v : Int)
  | register (v : Int)
  | isResident (r v : Int)
  | hasOtherCopy (v r : Int)
  | held (r : Int)
  | holder (r : Int)
  | isFree (r : Int)
  | isUsable (r : Int)
  | setUsable (r : Int) (usable : Bool)
  | bind (r v : Int)
  | unbind (r v : Int)
  | commit (r v : Int)
  | clearRegister (r : Int)
  | clearAll
  | drop (v : Int)
  | live (limit : Int)
  | registers (limit : Int)
  | wire
deriving DecidableEq, Repr, Inhabited

inductive Reply
  | none
  | var (v : Var)
  | found (v : Option Var)
  | text (s : String)
  | bool (b : Bool)
  | regs (rs : List Reg)
  | register (r : Option Reg)
  | vars (vs : List Var)
  | bytes (bs : Wire.Bytes)
deriving DecidableEq, Repr, Inhabited

def home? (s : String) : Option String := if s = "" then none else some s

def regOf (r : Int) : Except Fault Reg :=
  match Reg.ofNumber? r with
  | some r => .ok r
  | none => .error .outOfRange

def entryOf (s : Store String) (v : Int) : Except Fault (Var × Entry String) :=
  match if v < 0 then none else s.get? v.toNat with
  | some e => .ok (v.toNat, e)
  | none => .error .outOfRange

/-- A register that is only looked up in a set: one outside of the pool is in none, but a
negative one is no key. -/
def regKey (r : Int) : Except Fault (Option Reg) :=
  if r < 0 then .error (.badKey (Reg.nameOf r)) else .ok (Reg.ofNumber? r)

/-- A variable that is put into a register or taken out of it. -/
def heldVar (s : Store String) (v : Int) : Except Fault Var := do
  let _ ← KeySet.key v
  return (← entryOf s v).1

def Store.execute (s : Store String) : Command → Except Fault (Reply × Store String)
  | .reset => return (.none, .empty)
  | .declare name home => let (v, s) := s.declare name (home? home); return (.var v, s)
  | .intern name => let (v, s) := s.intern name; return (.var v, s)
  | .lookup name => return (.found (s.lookup name), s)
  | .name v => do return (.text (← entryOf s v).2.name, s)
  | .home v => do return (.text ((← entryOf s v).2.home.getD ""), s)
  | .homeValid v => do return (.bool (← entryOf s v).2.homeValid, s)
  | .dirty v => do return (.bool (← entryOf s v).2.dirty, s)
  | .markStored v => do return (.none, s.markStored (← entryOf s v).1)
  | .locations v => do return (.regs (← entryOf s v).2.regs.toList, s)
  | .register v => do return (.register (← entryOf s v).2.register?, s)
  | .isResident r v => do
    let (_, e) ← entryOf s v
    match ← regKey r with
    | some r => return (.bool (e.regs.contains r), s)
    | none => return (.bool false, s)
  | .hasOtherCopy v r => do
    let (_, e) ← entryOf s v
    if e.homeValid then return (.bool true, s)
    else match ← regKey r with
      | some r => return (.bool (e.hasCopyBeside r), s)
      | none => return (.bool !e.regs.isEmpty, s)
  | .held r => do return (.vars (s.held (← regOf r)).toList, s)
  | .holder r => do return (.found (s.holder? (← regOf r)), s)
  | .isFree r => do return (.bool (s.isFree (← regOf r)), s)
  | .isUsable r => do return (.bool (s.isUsable (← regOf r)), s)
  | .setUsable r usable => do return (.none, s.setUsable (← regOf r) usable)
  | .bind r v => do
    let r ← regOf r
    return (.none, s.bind r (← heldVar s v))
  | .unbind r v => do
    let r ← regOf r
    return (.none, s.unbind r (← heldVar s v))
  | .commit r v => do
    let (v, _) ← entryOf s v
    return (.none, s.commit (← regOf r) v)
  | .clearRegister r => do return (.none, s.clearRegister (← regOf r))
  | .clearAll => return (.none, s.clearAll)
  | .drop v => do return (.none, s.drop (← entryOf s v).1)
  | .live limit => return (.vars (KeySet.visited limit s.live), s)
  | .registers limit => return (.regs (KeySet.visited limit Reg.all), s)
  | .wire => return (.bytes s.wire, s)

/-- The registers that may not be used. -/
def Store.unusable (s : Store String) : List Reg := Reg.all.filter fun r => !s.isUsable r

/-- The registers that hold something, with what they hold. -/
def Store.occupied (s : Store String) : List (Reg × List Var) :=
  (Reg.all.map fun r => (r, (s.held r).toList)).filter fun x => !x.2.isEmpty

/-- The variables that are not forgotten, with their entries. -/
def Store.liveEntries (s : Store String) : List (Var × Entry String) :=
  s.live.filterMap fun v => (s.get? v).map fun e => (v, e)

end ThreeAddress.Descriptor
