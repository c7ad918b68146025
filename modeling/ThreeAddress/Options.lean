/-! Options of the code generator. -/

namespace ThreeAddress

structure Options where
  /-- The function where the program starts. It uses saved registers without saving them. -/
  entry : String := "main"
  /-- Write every variable back to memory after each instruction and not only where control
  may leave the block. -/
  flushEach : Bool := false
  /-- Plan every function as one that calls nothing. -/
  assumeLeaf : Bool := false
  /-- Words of local data that every frame has. -/
  placeholderWords : Int64 := 4
  /-- Give the declared locals words of their own. -/
  countLocals : Bool := true
  /-- Fill the slots behind loads and jumps with empty instructions. -/
  delaySlots : Bool := false
  /-- An unresolved reference is a failure and not only a warning. -/
  strict : Bool := true
deriving DecidableEq, Repr, Inhabited

end ThreeAddress
