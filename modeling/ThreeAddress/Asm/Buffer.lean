import ThreeAddress.Asm.Listing
import ThreeAddress.Fault
import ThreeAddress.Text.Template

/-! A buffer that collects a listing line by line. -/

namespace ThreeAddress.Asm

structure Buffer where
  lines : Array String := #[]
deriving DecidableEq, Repr, Inhabited

namespace Buffer

def push (b : Buffer) (line : String) : Buffer := ⟨b.lines.push line⟩

def emit (b : Buffer) (template : String) (args : List Text.Argument) : Buffer :=
  b.push (Text.fill template args)

/-- The lines behind the first `n`. -/
def since (b : Buffer) (n : Int) : Except Fault (List String) :=
  if n < 0 || (b.lines.size : Int) < n then .error .outOfRange
  else .ok (b.lines.toList.drop n.toNat)

def text (b : Buffer) : String := printed b.lines.toList

end Buffer

end ThreeAddress.Asm
