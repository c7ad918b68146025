import ThreeAddress.Operand
import ThreeAddress.Quad.Basic

/-! Which names the code ahead still uses. -/

namespace ThreeAddress.Codegen

/-- A quad refers to the name before the next return or procedure label. -/
def usedAhead (name : String) : List Quad → Bool
  | [] => false
  | q :: rest =>
    if q.refers name then true
    else if q.op = "return" || q.isBoundary then false
    else usedAhead name rest

/-- The name is a waiting argument or the code ahead uses it. -/
def usedLater (pending : List Operand) (ahead : List Quad) (name : String) : Bool :=
  pending.any (·.name? = some name) || usedAhead name ahead

end ThreeAddress.Codegen
