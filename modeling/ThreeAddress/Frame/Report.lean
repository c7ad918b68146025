import ThreeAddress.Frame.Layout
import ThreeAddress.Text.Column
import ThreeAddress.Text.Integer

/-! The printed table of frames. -/

namespace ThreeAddress.Frame

def reportRow (name : String) (columns : List String) : String :=
  Text.alignLeft 16 name ++ (columns.map fun c => " " ++ Text.alignRight 5 c).foldl (· ++ ·) "" ++ "\n"

def Layout.columns (l : Layout) : List String :=
  (if l.leaf then "yes" else "no") ::
    [l.totalWords, l.outgoingSlots, l.localWords, l.savedCount, l.returnSlots].map fun n =>
      Text.integerText n.toInt

def report (frames : List Layout) : String :=
  frames.foldl (fun text l => text ++ reportRow l.name l.columns)
    (reportRow "func" ["leaf", "total", "out", "local", "saved", "ra"])

end ThreeAddress.Frame
