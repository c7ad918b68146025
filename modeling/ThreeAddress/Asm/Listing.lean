import ThreeAddress.Asm.Instr
import ThreeAddress.Error
import ThreeAddress.Frame.Layout

/-! Lines of assembly and the listing they make. -/

namespace ThreeAddress.Asm

inductive Line
  | dataSection
  | textSection
  /-- One word of a global variable. -/
  | word (name : String)
  /-- Storage of a global array. -/
  | space (name : String) (bytes : Int)
  | label (name : String)
  | instr (i : Instr)
deriving DecidableEq, Repr, Inhabited

def Line.text : Line → String
  | .dataSection => ".data"
  | .textSection => ".text"
  | .word name => name ++ ": .word 0"
  | .space name bytes => name ++ ": .space " ++ Text.integerText bytes
  | .label name => name ++ ":"
  | .instr i => i.text

/-- Directives, labels and empty lines start at the margin. -/
def atMargin (line : String) : Bool :=
  match line.toList with
  | [] => true
  | c :: rest => c = '.' || (c :: rest).contains ':'

def indented (line : String) : String := (if atMargin line then "" else "\t") ++ line ++ "\n"

/-- The text of a listing, one line after the other. -/
def printed (lines : List String) : String := lines.foldl (fun text line => text ++ indented line) ""

structure Listing where
  lines : List Line
  frames : List Frame.Layout
  warnings : List Error
deriving DecidableEq, Repr, Inhabited

def Listing.lineTexts (l : Listing) : List String := l.lines.map Line.text

def Listing.text (l : Listing) : String := printed l.lineTexts

end ThreeAddress.Asm
