/-! Columns of text: padding with spaces to a width counted in code points. -/

namespace ThreeAddress.Text

def blanks (width : Nat) (s : String) : String :=
  String.ofList (List.replicate (width - s.length) ' ')

def alignRight (width : Nat) (s : String) : String := blanks width s ++ s

def alignLeft (width : Nat) (s : String) : String := s ++ blanks width s

end ThreeAddress.Text
