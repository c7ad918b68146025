import ThreeAddress.Text.Hex
import ThreeAddress.Text.Printable
import ThreeAddress.Text.Utf8

/-!
Quoted text: double quotes around the characters, with escapes for the quote, the
backslash and everything that is not printable. Stray bytes are escaped too.
-/

namespace ThreeAddress.Text

/-- Control characters that have a letter of their own. -/
def controlLetter? (c : Char) : Option Char :=
  match c.toNat with
  | 7 => some 'a'
  | 8 => some 'b'
  | 9 => some 't'
  | 10 => some 'n'
  | 11 => some 'v'
  | 12 => some 'f'
  | 13 => some 'r'
  | _ => none

def escape (c : Char) : List Char :=
  if c == '"' || c == '\\' then ['\\', c]
  else match controlLetter? c with
    | some letter => ['\\', letter]
    | none =>
      if isPrintable c then [c]
      else if c.toNat < 0x80 then '\\' :: 'x' :: hex 2 c.toNat
      else if c.toNat < 0x10000 then '\\' :: 'u' :: hex 4 c.toNat
      else '\\' :: 'U' :: hex 8 c.toNat

def quoted (s : String) : String := String.ofList ('"' :: s.toList.flatMap escape ++ ['"'])

def Glyph.escape : Glyph → List Char
  | .char c => Text.escape c
  | .stray b => '\\' :: 'x' :: hex 2 b.toNat

def quotedBytes (bs : Bytes) : String := String.ofList ('"' :: (glyphs bs).flatMap Glyph.escape ++ ['"'])

end ThreeAddress.Text
