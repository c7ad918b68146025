import ThreeAddress.Text.Utf8

/-! Blank characters and trimming. -/

namespace ThreeAddress.Text

/-- The characters with the white space property. -/
def whiteSpace : List Char :=
  ['\t', '\n', '\x0b', '\x0c', '\x0d', ' ', '\u0085', '\u00a0', '\u1680', '\u2000', '\u2001', '\u2002',
    '\u2003', '\u2004', '\u2005', '\u2006', '\u2007', '\u2008', '\u2009', '\u200a', '\u2028', '\u2029',
    '\u202f', '\u205f', '\u3000']

/-- Drops every code at the start of the bytes, where `n` more bytes belong to a code before them. -/
def dropCodes (codes : List Bytes) : (n : Nat) → Bytes → Bytes
  | _, [] => []
  | n + 1, _ :: rest => dropCodes codes n rest
  | 0, b :: rest =>
    match codes.find? (·.isPrefixOf (b :: rest)) with
    | some code => dropCodes codes (code.length - 1) rest
    | none => b :: rest

def trimStart (s : Bytes) : Bytes := dropCodes (whiteSpace.map String.utf8EncodeChar) 0 s

def trimEnd (s : Bytes) : Bytes :=
  (dropCodes (whiteSpace.map fun c => (String.utf8EncodeChar c).reverse) 0 s.reverse).reverse

/-- The text without the blanks around it. -/
def trim (s : Bytes) : Bytes := trimEnd (trimStart s)

end ThreeAddress.Text
