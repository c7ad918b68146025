import ThreeAddress.Text.Hex
import ThreeAddress.Text.Utf8

/-! A compact binary encoding: one tag byte with a major type and a small argument, or the
argument behind it in big endian order. -/

namespace ThreeAddress.Wire

abbrev Bytes := Text.Bytes

inductive Major
  | int
  | negative
  | string
  | array
  | map
  | special
deriving DecidableEq, Repr

def Major.bits : Major → UInt8
  | .int => 0x00
  | .negative => 0x20
  | .string => 0x60
  | .array => 0x80
  | .map => 0xa0
  | .special => 0xe0

/-- The lowest `width` bytes, most significant first. -/
def bigEndian : (width : Nat) → Nat → Bytes
  | 0, _ => []
  | width + 1, n => bigEndian width (n / 256) ++ [UInt8.ofNat n]

def tag (major : Major) (n : UInt64) : Bytes :=
  let n := n.toNat
  if n < 24 then [major.bits ||| UInt8.ofNat n]
  else if n < 0x100 then (major.bits ||| 24) :: bigEndian 1 n
  else if n < 0x10000 then (major.bits ||| 25) :: bigEndian 2 n
  else if n < 0x100000000 then (major.bits ||| 26) :: bigEndian 4 n
  else (major.bits ||| 27) :: bigEndian 8 n

/-- Starts an array or a map of unknown length. -/
def opening (major : Major) : Bytes := [major.bits ||| 31]

def closing : Bytes := [0xff]

def nil : Bytes := [0xf6]

/-- A negative number is written as one more than its absolute value. -/
def int (v : Int64) : Bytes :=
  if 0 ≤ v then tag .int v.toUInt64 else tag .negative ((-v).toUInt64 + 1)

def string (s : String) : Bytes := tag .string s.utf8ByteSize.toUInt64 ++ s.toUTF8.data.toList

/-- Two hexadecimal digits for each byte. -/
def hexText (bs : Bytes) : String := String.ofList (bs.flatMap fun b => Text.hex 2 b.toNat)

end ThreeAddress.Wire
