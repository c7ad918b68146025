/-! Signed decimal integers of 64 bits. -/

namespace ThreeAddress.Text

def isDigit (c : Char) : Bool := 48 ≤ c.toNat && c.toNat ≤ 57

def digitValue (c : Char) : Nat := c.toNat - 48

/-- The value of a run of decimal digits, most significant first. -/
def naturalOf (ds : List Char) : Nat := ds.foldl (fun n c => 10 * n + digitValue c) 0

/-- Signed words of 64 bits are below this number, and not below its negation. -/
def wordLimit : Nat := 0x8000000000000000

/-- Whether the value is a signed 64-bit word. -/
def fitsWord (n : Int) : Bool := -(wordLimit : Int) ≤ n && n < wordLimit

/-- Digits only, at least one of them. -/
def natural? (ds : List Char) : Option Nat :=
  if ds.isEmpty || !ds.all isDigit then none else some (naturalOf ds)

/-- One optional sign, then digits, any size. -/
def signed? : List Char → Option Int
  | '-' :: ds => (natural? ds).map fun n => -(n : Int)
  | '+' :: ds => (natural? ds).map fun n => (n : Int)
  | ds => (natural? ds).map fun n => (n : Int)

/-- An integer literal: a signed number that is a 64-bit word. -/
def integer? (s : List Char) : Option Int := (signed? s).filter fitsWord

/-- The decimal digits of a number, most significant first. -/
def digits (n : Nat) : List Char := Nat.toDigits 10 n

def integerText : Int → String
  | .ofNat n => String.ofList (digits n)
  | .negSucc n => String.ofList ('-' :: digits (n + 1))

end ThreeAddress.Text
