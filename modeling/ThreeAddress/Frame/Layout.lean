import ThreeAddress.Symbol.Basic
import ThreeAddress.Wire

/-!
Stack frames. From the stack pointer up: outgoing arguments, local data, save slots, the
return address on top. Sizes are in words and offsets in bytes, in wrapping 64-bit arithmetic.
-/

namespace ThreeAddress.Frame

structure Layout where
  name : String
  leaf : Bool := false
  totalWords : Int64 := 0
  outgoingSlots : Int64 := 0
  localWords : Int64 := 0
  savedCount : Int64 := 0
  returnSlots : Int64 := 0
deriving DecidableEq, Repr, Inhabited

/-- What the size of a frame depends on. -/
structure Demand where
  name : String
  entry : Bool := false
  leaf : Bool := false
  localWords : Int64 := 0
  maxCalleeParams : Int64 := 0
deriving DecidableEq, Repr, Inhabited

/-- A function that calls has at least this many outgoing slots. -/
def minOutgoing : Int64 := 4

/-- The most registers that a function saves. -/
def maxSaved : Int64 := 8

/-- A function with more local words saves registers. -/
def saveThreshold : Int64 := 10

/-- The total is rounded up to an even count. -/
def layout (d : Demand) : Layout :=
  let outgoing := if d.leaf then 0 else max minOutgoing d.maxCalleeParams
  let ret := if d.leaf then 0 else 1
  let saved := if !d.entry && d.localWords > saveThreshold then min maxSaved (d.localWords - 8) else 0
  let total := ret + d.localWords + 2 * saved + outgoing
  { name := d.name
    leaf := d.leaf
    totalWords := total + (total &&& 1)
    outgoingSlots := outgoing
    localWords := d.localWords
    savedCount := saved
    returnSlots := ret }

namespace Layout

def bytes (l : Layout) : Int64 := wordSize * l.totalWords

def outgoingOffset (_ : Layout) (i : Int64) : Int64 := wordSize * i

def localOffset (l : Layout) (word : Int64) : Int64 := wordSize * (l.outgoingSlots + word)

def saveOffset (l : Layout) (k : Int64) : Int64 :=
  wordSize * (l.outgoingSlots + l.localWords + k)

def returnOffset (l : Layout) : Int64 := wordSize * (l.totalWords - 1)

/-- A parameter stands in the caller's outgoing slots, right above the frame. -/
def paramOffset (l : Layout) (i : Int64) : Int64 := wordSize * (l.totalWords + i)

def wire (l : Layout) : Wire.Bytes :=
  Wire.tag .map 6 ++
    Wire.string "name" ++ Wire.string l.name ++
    Wire.string "ra" ++ Wire.int l.returnSlots ++
    Wire.string "total" ++ Wire.int l.totalWords ++
    Wire.string "out" ++ Wire.int l.outgoingSlots ++
    Wire.string "local" ++ Wire.int l.localWords ++
    Wire.string "saved" ++ Wire.int l.savedCount

end Layout

end ThreeAddress.Frame
