/-! Operations on numbers that stand for nothing. -/

namespace ThreeAddress

inductive Fault
  /-- A number outside of a table. -/
  | outOfRange
  /-- A negative key of a set, by its text. -/
  | badKey (text : String)
deriving DecidableEq, Repr, Inhabited

end ThreeAddress
