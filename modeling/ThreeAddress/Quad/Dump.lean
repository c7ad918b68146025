import ThreeAddress.Quad.Basic
import ThreeAddress.Text.Column
import ThreeAddress.Text.Integer

/-! The printed form of code: one numbered quad on a line, labels at the margin, an empty line
before each procedure but the first quad. -/

namespace ThreeAddress.Quad

def dumpLine (q : Quad) : String :=
  (if q.op = "label" then "" else "\t") ++ Text.alignRight 4 (Text.integerText q.index) ++ "  " ++
    q.text ++ "\n"

def dumpRest (code : List Quad) : String :=
  code.foldl (fun text q => text ++ (if q.isEntry then "\n" else "") ++ q.dumpLine) ""

def dump : List Quad → String
  | [] => ""
  | q :: rest => q.dumpLine ++ dumpRest rest

end ThreeAddress.Quad
