import ThreeAddress.Text.Integer

/-!
Decimal numbers with a fraction and an exponent, and the whole numbers that they stand for when
they are kept with 53 significant binary digits.
-/

namespace ThreeAddress.Text

/-- The number `coefficient * 10 ^ exponent`, with a sign. -/
structure Decimal where
  negative : Bool
  coefficient : Nat
  exponent : Int
deriving DecidableEq, Repr, Inhabited

/-- A sign, if there is one, and what follows it. -/
def splitSign : List Char → Bool × List Char
  | '-' :: rest => (true, rest)
  | '+' :: rest => (false, rest)
  | cs => (false, cs)

/-- The exponent behind the digits, zero if there is none. -/
def exponent? : List Char → Option Int
  | [] => some 0
  | c :: rest => if c = 'e' || c = 'E' then signed? rest else none

/-- Digits with at most one point among them, and an exponent. -/
def Decimal.of? (cs : List Char) : Option Decimal := do
  let (negative, cs) := splitSign cs
  let whole := cs.takeWhile isDigit
  let rest := cs.drop whole.length
  let (fraction, rest) := match rest with
    | '.' :: rest => (rest.takeWhile isDigit, rest.dropWhile isDigit)
    | rest => ([], rest)
  if whole.isEmpty && fraction.isEmpty then none
  else some ⟨negative, naturalOf (whole ++ fraction), (← exponent? rest) - fraction.length⟩

/-- The nearest whole number, of two that are equally near the even one. -/
def roundedQuotient (a b : Nat) : Nat :=
  let q := a / b
  let r := a % b
  if 2 * r > b || (2 * r = b && q % 2 = 1) then q + 1 else q

/-- The binary exponent at which a positive quotient has 53 binary digits before the point. -/
def binaryExponent (a b : Nat) : Int :=
  let e : Int := a.log2 - b.log2 - 52
  if a <<< (-e).toNat < b <<< e.toNat <<< 52 then e - 1 else e

/-- A positive quotient with 53 significant binary digits, without its fraction. -/
def wholePart (a b : Nat) : Nat :=
  let e := binaryExponent a b
  let m := roundedQuotient (a <<< (-e).toNat) (b <<< e.toNat)
  m <<< e.toNat >>> (-e).toNat

/-- What no number of the format exceeds. -/
def wholeLimit : Nat := 1 <<< 1024

/-- The size of the number without its fraction; none if the number is too large. The powers of
ten are bounded by the count of the digits. -/
def Decimal.whole? (d : Decimal) : Option Nat :=
  let places : Int := (digits d.coefficient).length + d.exponent
  if d.coefficient = 0 || places < -20 then some 0
  else if places > 310 then none
  else
    let n := wholePart (d.coefficient * Nat.pow 10 d.exponent.toNat) (Nat.pow 10 (-d.exponent).toNat)
    if n < wholeLimit then some n else none

end ThreeAddress.Text
