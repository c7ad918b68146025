import ThreeAddress.Text.Column
import ThreeAddress.Text.Integer

/-! Templates: `%s` and `%d` stand for the arguments in order, with an optional width that a
minus sign makes left aligned, and `%%` is a percent sign. -/

namespace ThreeAddress.Text

inductive Argument
  | text (s : String)
  | number (n : Int)
deriving DecidableEq, Repr, Inhabited

def Argument.shown : Argument → String
  | .text s => s
  | .number n => integerText n

/-- The part of a place holder before its letter. -/
structure Placeholder where
  left : Bool := false
  width : Nat := 0
deriving DecidableEq, Repr, Inhabited

def Placeholder.fill (p : Placeholder) (s : String) : String :=
  if p.left then alignLeft p.width s else alignRight p.width s

/-- Fills the rest of a template, inside of a place holder or not. -/
def fillFrom : Option Placeholder → List Char → List Argument → List Char
  | _, [], _ => []
  | none, c :: rest, args =>
    if c = '%' then fillFrom (some {}) rest args else c :: fillFrom none rest args
  | some p, c :: rest, args =>
    if c = '%' then '%' :: fillFrom none rest args
    else if c = '-' then fillFrom (some { p with left := true }) rest args
    else if isDigit c then fillFrom (some { p with width := 10 * p.width + digitValue c }) rest args
    else match args with
      | [] => fillFrom none rest []
      | x :: args => (p.fill x.shown).toList ++ fillFrom none rest args

def fill (template : String) (args : List Argument) : String :=
  String.ofList (fillFrom none template.toList args)

end ThreeAddress.Text
