import Mathlib.Data.Nat.Digits.Defs
import Mathlib.Data.Set.List
import ThreeAddress.Operand
import ThreeAddress.Proofs.Encoding

/-! Literals and names. A text is a literal exactly if it is a decimal numeral whose value is a word of 64 bits, and
a name otherwise. A literal is printed as a numeral of its value, which is read as the literal again. -/
namespace ThreeAddress

namespace Text

/-! Numerals -/

/-- What stands before the digits. -/
inductive Sign
  | absent
  | plus
  | minus
deriving DecidableEq, Repr

namespace Sign

def chars : Sign → List Char
  | .absent => []
  | .plus => ['+']
  | .minus => ['-']

def signed (n : Nat) : Sign → Int
  | .absent => n
  | .plus => n
  | .minus => -n

end Sign

/-- A decimal numeral: at most one sign and then digits, most significant first. There is a digit; zeros may stand
in front. -/
structure Numeral where
  sign : Sign
  digits : List (Fin 10)
  filled : digits ≠ []

def digitChars (ds : List (Fin 10)) : List Char := ds.map fun d => Nat.digitChar d.val

/-- Each digit counts ten times as much as the one behind it. -/
def positional (ds : List (Fin 10)) : Nat := Nat.ofDigits 10 (ds.reverse.map Fin.val)

namespace Numeral

def chars (x : Numeral) : List Char := x.sign.chars ++ digitChars x.digits

def text (x : Numeral) : String := String.ofList x.chars

def value (x : Numeral) : Int := x.sign.signed (positional x.digits)

/-- The value is a signed word of 64 bits. -/
def IsWord (x : Numeral) : Prop := -2 ^ 63 ≤ x.value ∧ x.value ≤ 2 ^ 63 - 1

end Numeral

/-! Digits -/

theorem isDigit_digitChar (d : Fin 10) : isDigit (Nat.digitChar d) = true := by
  have small := d.isLt
  rw [isDigit, Nat.toNat_digitChar_of_lt_ten small, Bool.and_eq_true, decide_eq_true_eq, decide_eq_true_eq]
  omega

theorem digitValue_digitChar (d : Fin 10) : digitValue (Nat.digitChar d) = d :=
  Nat.toNat_digitChar_sub_48_of_lt_ten d.isLt

theorem exists_digitChar_of_isDigit {c : Char} (digit : isDigit c = true) : ∃ d : Fin 10, Nat.digitChar d = c := by
  simp only [isDigit, Bool.and_eq_true, decide_eq_true_eq] at digit
  have small : digitValue c < 10 := by
    unfold digitValue
    omega
  refine ⟨⟨digitValue c, small⟩, Char.toNat_inj.mp ?_⟩
  rw [Nat.toNat_digitChar_of_lt_ten small, digitValue]
  omega

theorem all_isDigit_iff {cs : List Char} : cs.all isDigit = true ↔ ∃ ds, digitChars ds = cs := by
  constructor
  · intro digits
    have range : cs ∈ Set.range digitChars := by
      unfold digitChars
      rw [Set.range_list_map]
      exact fun c inside => exists_digitChar_of_isDigit (List.all_eq_true.mp digits c inside)
    exact range
  · rintro ⟨ds, rfl⟩
    simp [digitChars, isDigit_digitChar]

theorem naturalOf_digitChars (ds : List (Fin 10)) : naturalOf (digitChars ds) = positional ds := by
  -- the reader takes up one more digit at the end
  induction ds using List.reverseRecOn with
  | nil => rfl
  | append_singleton ds d ih =>
    have last : naturalOf (digitChars (ds ++ [d])) = 10 * naturalOf (digitChars ds) + d := by
      simp [naturalOf, digitChars, digitValue_digitChar]
    rw [last, ih, positional, positional, List.reverse_append, List.reverse_singleton, List.singleton_append,
      List.map_cons, Nat.ofDigits_cons, Nat.add_comm]

theorem natural?_eq_some_iff {cs : List Char} {n : Nat} :
    natural? cs = some n ↔ cs ≠ [] ∧ cs.all isDigit = true ∧ naturalOf cs = n := by
  unfold natural?
  cases empty : cs.isEmpty <;> cases digits : cs.all isDigit <;> simp_all

/-! Signs -/

theorem signed?_eq_some_iff {cs : List Char} {n : Int} :
    signed? cs = some n ↔ ∃ (sign : Sign) (ds : List Char) (k : Nat), sign.chars ++ ds = cs ∧
      natural? ds = some k ∧ sign.signed k = n := by
  constructor
  · intro read
    unfold signed? at read
    split at read
    all_goals
      obtain ⟨m, lifted, rfl⟩ := Option.map_eq_some_iff.mp read
      obtain ⟨k, digits, same⟩ := Option.bind_eq_some_iff.mp lifted
      cases same
    · exact ⟨.minus, _, k, rfl, digits, rfl⟩
    · exact ⟨.plus, _, k, rfl, digits, rfl⟩
    · exact ⟨.absent, _, k, rfl, digits, rfl⟩
  · rintro ⟨sign, ds, k, rfl, read, rfl⟩
    cases sign with
    | absent =>
      -- a sign is no digit, so that only the last case is left
      have digits : ds.all isDigit = true := (natural?_eq_some_iff.mp read).2.1
      rw [Sign.chars, List.nil_append]
      unfold signed?
      split
      · simp [isDigit] at digits
      · simp [isDigit] at digits
      · rw [read]
        rfl
    | plus | minus =>
      rw [Sign.chars, List.singleton_append, signed?, read]
      rfl

theorem signed?_eq_some_iff_numeral {cs : List Char} {n : Int} :
    signed? cs = some n ↔ ∃ x : Numeral, x.chars = cs ∧ x.value = n := by
  rw [signed?_eq_some_iff]
  constructor
  · rintro ⟨sign, ds, k, rfl, read, rfl⟩
    obtain ⟨filled, digits, rfl⟩ := natural?_eq_some_iff.mp read
    obtain ⟨ds, rfl⟩ := all_isDigit_iff.mp digits
    exact ⟨⟨sign, ds, mt List.map_eq_nil_iff.mpr filled⟩, rfl, by rw [naturalOf_digitChars, Numeral.value]⟩
  · rintro ⟨⟨sign, ds, filled⟩, rfl, rfl⟩
    refine ⟨sign, digitChars ds, positional ds, rfl, natural?_eq_some_iff.mpr ⟨?_, ?_, ?_⟩, rfl⟩
    · exact mt List.map_eq_nil_iff.mp filled
    · exact all_isDigit_iff.mpr ⟨ds, rfl⟩
    · exact naturalOf_digitChars ds

theorem fitsWord_iff {n : Int} : fitsWord n = true ↔ -2 ^ 63 ≤ n ∧ n ≤ 2 ^ 63 - 1 := by
  rw [fitsWord, Bool.and_eq_true, decide_eq_true_eq, decide_eq_true_eq, wordLimit]
  omega

theorem integer?_eq_some_iff {cs : List Char} {n : Int} :
    integer? cs = some n ↔ ∃ x : Numeral, x.chars = cs ∧ x.value = n ∧ x.IsWord := by
  rw [integer?, Option.filter_eq_some_iff, signed?_eq_some_iff_numeral, fitsWord_iff]
  constructor
  · rintro ⟨⟨x, chars, rfl⟩, word⟩
    exact ⟨x, chars, rfl, word⟩
  · rintro ⟨x, chars, rfl, word⟩
    exact ⟨⟨x, chars, rfl⟩, word⟩

/-! Printed numbers -/

theorem isDigit_of_mem_digits {c : Char} {n : Nat} (member : c ∈ digits n) : c.isDigit = true :=
  Nat.isDigit_of_mem_toDigits (by decide) (by decide) member

theorem all_isDigit_digits (n : Nat) : (digits n).all isDigit = true := by
  rw [List.all_eq_true]
  intro c member
  have range := Char.isDigit_iff_toNat.mp (isDigit_of_mem_digits member)
  simpa [isDigit] using range

theorem natural?_digits (n : Nat) : natural? (digits n) = some n :=
  natural?_eq_some_iff.mpr ⟨Nat.toDigits_ne_nil, all_isDigit_digits n, Nat.ofDigitChars_ten_toDigits⟩

theorem signed?_integerText (n : Int) : signed? (integerText n).toList = some n := by
  rw [signed?_eq_some_iff]
  cases n with
  | ofNat k => exact ⟨.absent, digits k, k, String.toList_ofList.symm, natural?_digits k, rfl⟩
  | negSucc k => exact ⟨.minus, digits (k + 1), k + 1, String.toList_ofList.symm, natural?_digits (k + 1), rfl⟩

theorem integer?_integerText {n : Int} (word : fitsWord n = true) : integer? (integerText n).toList = some n := by
  rw [integer?, signed?_integerText, Option.filter_some, if_pos word]

/-! Numerals as bytes -/

theorem replacement_not_mem_text (x : Numeral) : '\ufffd' ∉ x.text.toList := by
  rw [Numeral.text, String.toList_ofList, Numeral.chars, List.mem_append, not_or]
  constructor
  · cases x.sign <;> decide
  · intro inside
    obtain ⟨d, _, same⟩ := List.mem_map.mp inside
    have digit := isDigit_digitChar d
    rw [same] at digit
    contradiction

end Text

open Text (Bytes Numeral bytesOf textOf)

namespace Operand

theorem ofText_variable {s name : String} (text : ofText s = .variable name) : s = name := by
  unfold ofText at text
  split at text
  · cases text
  · exact Operand.variable.inj text

theorem ofText_eq_literal_iff_integer? {s : String} {n : Int} :
    ofText s = .literal n ↔ Text.integer? s.toList = some n := by
  unfold ofText
  split <;> simp_all

theorem ofText_eq_literal_iff {s : String} {n : Int} :
    ofText s = .literal n ↔ ∃ x : Numeral, x.text = s ∧ x.value = n ∧ x.IsWord := by
  have chars (x : Numeral) : x.chars = s.toList ↔ x.text = s := by
    rw [Numeral.text, ← String.toList_inj, String.toList_ofList]
  simp only [ofText_eq_literal_iff_integer?, Text.integer?_eq_some_iff, chars]

theorem ofText_eq_variable_iff {s : String} :
    ofText s = .variable s ↔ ¬ ∃ x : Numeral, x.text = s ∧ x.IsWord := by
  constructor
  · rintro name ⟨x, text, word⟩
    rw [ofText_eq_literal_iff.mpr ⟨x, text, rfl, word⟩] at name
    cases name
  · intro other
    cases read : ofText s with
    | literal n =>
      obtain ⟨x, text, _, word⟩ := ofText_eq_literal_iff.mp read
      exact absurd ⟨x, text, word⟩ other
    | «variable» name => rw [ofText_variable read]

theorem ofText_textOf_eq_literal_iff {bs : Bytes} {n : Int} :
    ofText (textOf bs) = .literal n ↔ ∃ x : Numeral, bytesOf x.text = bs ∧ x.value = n ∧ x.IsWord := by
  have bytes (x : Numeral) : x.text = textOf bs ↔ bytesOf x.text = bs :=
    eq_comm.trans (Text.textOf_eq_iff (Text.replacement_not_mem_text x))
  simp only [ofText_eq_literal_iff, bytes]

theorem ofText_text_literal {n : Int} (word : Text.fitsWord n = true) :
    ofText (literal n).text = .literal n :=
  ofText_eq_literal_iff_integer?.mpr (Text.integer?_integerText word)

theorem ofText_text_ofText (s : String) : ofText (ofText s).text = ofText s := by
  cases read : ofText s with
  | literal n =>
    obtain ⟨x, _, rfl, word⟩ := ofText_eq_literal_iff.mp read
    exact ofText_text_literal (Text.fitsWord_iff.mpr word)
  | «variable» name => rw [text, ← ofText_variable read, read, ofText_variable read]

/-- Operands are read exactly, and printing keeps them. A text is read as a literal exactly if it is a numeral whose
value is a word of 64 bits, and then as this value; any other text is read as the name that it is. Bytes that are no
text give no literal either. What is printed for an operand is read as the same operand, and so is what is printed for
a literal of any word. -/
theorem literals_exact :
    (∀ s n, ofText s = .literal n ↔ ∃ x : Numeral, x.text = s ∧ x.value = n ∧ x.IsWord) ∧
    (∀ s, ofText s = .variable s ↔ ¬ ∃ x : Numeral, x.text = s ∧ x.IsWord) ∧
    (∀ bs n, ofText (textOf bs) = .literal n ↔ ∃ x : Numeral, bytesOf x.text = bs ∧ x.value = n ∧ x.IsWord) ∧
    (∀ s, ofText (ofText s).text = ofText s) ∧
    ∀ w : Int64, ofText (literal w.toInt).text = .literal w.toInt := by
  refine ⟨fun s n => ofText_eq_literal_iff, fun s => ofText_eq_variable_iff,
    fun bs n => ofText_textOf_eq_literal_iff, ofText_text_ofText, fun w => ofText_text_literal ?_⟩
  exact Text.fitsWord_iff.mpr ⟨w.le_toInt, Int.le_sub_one_of_lt w.toInt_lt⟩

example : ofText "-009223372036854775808" = .literal (-9223372036854775808) ∧
    ofText "9223372036854775808" = .variable "9223372036854775808" ∧ ofText "+-1" = .variable "+-1" := by
  decide

end Operand

end ThreeAddress
