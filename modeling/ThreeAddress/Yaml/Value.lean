import ThreeAddress.Text.Decimal
import ThreeAddress.Text.Hex
import ThreeAddress.Yaml.Node

/-! Typed values of nodes. Null stands for the empty value of every type. -/

namespace ThreeAddress.Yaml

/-! Numbers. -/

def digitsIn? (base : Nat) (ds : List Char) : Option Nat :=
  ds.foldlM (fun n c => do
    let d ← Text.hexValue? c
    if d < base then some (base * n + d) else none) 0

/-- A number without sign: decimal, or in the base that its start tells. A leading zero tells
base eight. -/
def magnitude? : List Char → Option Nat
  | [] => none
  | '0' :: c :: d :: ds =>
    if c = 'x' || c = 'X' then digitsIn? 16 (d :: ds)
    else if c = 'o' || c = 'O' then digitsIn? 8 (d :: ds)
    else if c = 'b' || c = 'B' then digitsIn? 2 (d :: ds)
    else digitsIn? 8 (c :: d :: ds)
  | '0' :: ds => digitsIn? 8 ds
  | ds => digitsIn? 10 ds

def withSign (negative : Bool) (n : Nat) : Int := if negative then -(n : Int) else n

def leastWord : Int := -Text.wordLimit

/-- A decimal number as a word, without its fraction. Below the words, and at their upper end, it
is the least word; above them it is none. -/
def wordOfDecimal? (d : Text.Decimal) : Option Int := do
  let n ← d.whole?
  if d.negative then some (max (-(n : Int)) leastWord)
  else if n < Text.wordLimit then some n
  else if n = Text.wordLimit then some leastWord
  else none

/-- Behind the marks of bases two and eight a sign may stand. -/
def signedIn? : List Char → Option Int
  | '0' :: c :: cs => do
    let base ← if c = 'b' then some 2 else if c = 'o' then some 8 else none
    let (negative, ds) := Text.splitSign cs
    if ds.isEmpty then none else some (withSign negative (← digitsIn? base ds))
  | _ => none

/-- A number that starts with a digit or a sign: an integer in any base if it is one, else a
decimal number. An integer without sign that fits 64 bits, and no word, is none. -/
def number? (cs : List Char) : Option Int :=
  let (negative, ds) := Text.splitSign cs
  let decimal := (Text.Decimal.of? cs).bind wordOfDecimal?
  match magnitude? ds with
  | some n =>
    if Text.fitsWord (withSign negative n) then some (withSign negative n)
    else if cs.head? = ds.head? && n < 2 * Text.wordLimit then none
    else decimal
  | none =>
    match Text.Decimal.of? cs with
    | some _ => decimal
    | none => (signedIn? cs).filter Text.fitsWord

/-- Each underscore has a digit before and behind it. -/
def separatesDigits : List Char → Bool
  | [] => true
  | '_' :: _ => false
  | c :: '_' :: rest => Text.isDigit c && (match rest with
    | d :: _ => Text.isDigit d
    | [] => false) && separatesDigits rest
  | _ :: rest => separatesDigits rest

/-- A plain scalar as a word. Underscores do not count. -/
def word? (text : String) : Option Int :=
  let cs := text.toList
  let bare := cs.filter (· ≠ '_')
  if ["-.inf", "-.Inf", "-.INF"].contains text then some leastWord
  else match cs with
    | '.' :: _ =>
      if separatesDigits cs then (Text.Decimal.of? bare).bind wordOfDecimal? else none
    | c :: _ => if Text.isDigit c || c = '+' || c = '-' then number? bare else none
    | [] => none

/-! Truth values. -/

def yesWords : List String := ["y", "Y", "yes", "Yes", "YES", "on", "On", "ON"]

def noWords : List String := ["n", "N", "no", "No", "NO", "off", "Off", "OFF"]

def wordTruth? (text : String) : Option Bool :=
  if yesWords.contains text then some true
  else if noWords.contains text then some false
  else none

namespace Node

def isNull : Node → Bool
  | .plain text => ["", "~", "null", "Null", "NULL"].contains text
  | _ => false

/-- Any scalar is text. -/
def text? (n : Node) : Option String :=
  match n with
  | .plain text => some (if n.isNull then "" else text)
  | .quoted text => some text
  | _ => none

/-- A word of 64 bits. -/
def integer? (n : Node) : Option Int :=
  match n with
  | .plain text => if n.isNull then some 0 else word? text
  | _ => none

def truth? (n : Node) : Option Bool :=
  match n with
  | .plain text =>
    if n.isNull then some false
    else if ["true", "True", "TRUE"].contains text then some true
    else if ["false", "False", "FALSE"].contains text then some false
    else wordTruth? text
  | .quoted text => wordTruth? text
  | _ => none

/-- The items of a sequence. Those that are null do not count. -/
def items? (n : Node) : Option (List Node) :=
  match n with
  | .sequence items => some (items.filter (!·.isNull))
  | n => if n.isNull then some [] else none

/-- The text of a key as written. -/
def keyText? : Node → Option String
  | .plain text => if text = "<<" then none else some text
  | .quoted text => some text
  | _ => none

/-- A text stands twice. -/
def repeats : List String → Bool
  | [] => false
  | key :: rest => rest.contains key || repeats rest

/-- The pairs of a mapping. Keys are scalars, of which none stands twice; one that is null does not
count. Merge keys are refused. -/
def pairs? (n : Node) : Option (List (String × Node)) :=
  match n with
  | .mapping pairs => do
    let keys ← pairs.mapM fun (key, _) => key.keyText?
    if repeats keys then none
    else some (pairs.filterMap fun (key, value) =>
      if key.isNull then none else key.keyText?.map (·, value))
  | n => if n.isNull then some [] else none

end Node

end ThreeAddress.Yaml
