import ThreeAddress.Frame.Layout
import ThreeAddress.Text.Hex
import ThreeAddress.Text.Integer

/-! Frames as indented JSON. -/

namespace ThreeAddress.Frame

/-- Characters of markup are escaped too, and so are the two separators that end lines. -/
def jsonEscape (c : Char) : List Char :=
  match c with
  | '"' => ['\\', '"']
  | '\\' => ['\\', '\\']
  | '\n' => ['\\', 'n']
  | '\r' => ['\\', 'r']
  | '\t' => ['\\', 't']
  | c =>
    if c.toNat < 0x20 || c = '<' || c = '>' || c = '&' || c.toNat = 0x2028 || c.toNat = 0x2029 then
      '\\' :: 'u' :: Text.hex 4 c.toNat
    else [c]

def jsonString (s : String) : String := String.ofList ('"' :: s.toList.flatMap jsonEscape ++ ['"'])

def jsonFields (l : Layout) : List (String × String) :=
  let number (n : Int64) := Text.integerText n.toInt
  [("name", jsonString l.name),
   ("leaf", if l.leaf then "true" else "false"),
   ("total_words", number l.totalWords),
   ("outgoing_arg_slots", number l.outgoingSlots),
   ("local_data_words", number l.localWords),
   ("callee_saved_count", number l.savedCount),
   ("return_addr_slots", number l.returnSlots)]

def jsonObject (l : Layout) : String :=
  let field (f : String × String) := "    " ++ jsonString f.1 ++ ": " ++ f.2
  "  \x7b\n" ++ ",\n".intercalate ((jsonFields l).map field) ++ "\n  \x7d"

/-- An array with one object for each frame, null for no frames. -/
def json : List Layout → String
  | [] => "null\n"
  | frames => "[\n" ++ ",\n".intercalate (frames.map jsonObject) ++ "\n]\n"

end ThreeAddress.Frame
