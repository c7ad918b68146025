/-! Text as bytes. Bytes that encode no character stand for themselves. -/

namespace ThreeAddress.Text

abbrev Bytes := List UInt8

/-- The encoding of a text. -/
def bytesOf (s : String) : Bytes := s.toList.flatMap String.utf8EncodeChar

/-- A character, or a byte that belongs to none. -/
inductive Glyph
  | char (c : Char)
  | stray (b : UInt8)
deriving DecidableEq, Repr

/-- The character that the bytes start with. -/
def char? (bs : Bytes) : Option Char := (bs.take 4).toByteArray.utf8DecodeChar? 0

/-- What the bytes show, where `n` more bytes belong to the character before them. -/
def glyphsFrom : (n : Nat) → Bytes → List Glyph
  | _, [] => []
  | n + 1, _ :: rest => glyphsFrom n rest
  | 0, b :: rest =>
    match char? (b :: rest) with
    | some c => .char c :: glyphsFrom (c.utf8Size - 1) rest
    | none => .stray b :: glyphsFrom 0 rest

def glyphs (bs : Bytes) : List Glyph := glyphsFrom 0 bs

/-- A stray byte is shown as the replacement character. -/
def Glyph.shown : Glyph → Char
  | .char c => c
  | .stray _ => '\ufffd'

/-- The text of the bytes. -/
def textOf (bs : Bytes) : String := String.ofList ((glyphs bs).map Glyph.shown)

end ThreeAddress.Text
