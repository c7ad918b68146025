import ThreeAddress.Proofs.Reading
import ThreeAddress.Quad.Dump

/-! Printed code loses nothing. Behind the index, which ends where the quad begins, a line of the dump has the
bytes of the quad. The lines without their margins are read as the same code, so that no two codes look the same. -/
namespace ThreeAddress

namespace Text

/-! Text as bytes -/

theorem bytesOf_append (s t : String) : bytesOf (s ++ t) = bytesOf s ++ bytesOf t := by
  simp [bytesOf]

theorem bytesOf_inj {s t : String} : bytesOf s = bytesOf t ↔ s = t := by
  refine ⟨fun same => ?_, congrArg bytesOf⟩
  rw [← textOf_bytesOf s, same, textOf_bytesOf]

theorem bytesOf_intercalate (s : String) (ts : List String) :
    bytesOf (s.intercalate ts) = (bytesOf s).intercalate (ts.map bytesOf) := by
  rw [bytesOf, String.toList_intercalate]
  induction ts with
  | nil => rfl
  | cons t ts ih =>
    by_cases last : ts = []
    · subst last
      simp [bytesOf]
    · rw [List.map_cons, List.map_cons, List.intercalate_cons_of_ne_nil (by simpa using last),
        List.intercalate_cons_of_ne_nil (by simpa using last), List.flatMap_append, List.flatMap_append, ih]
      rfl

/-- A text starts with another one exactly if its bytes do. -/
theorem prefix_flatMap_encode_iff {cs ds : List Char} :
    cs.flatMap String.utf8EncodeChar <+: ds.flatMap String.utf8EncodeChar ↔ cs <+: ds := by
  constructor
  · induction cs generalizing ds with
    | nil => exact fun _ => List.nil_prefix
    | cons c cs ih =>
      rintro ⟨rest, same⟩
      rw [List.flatMap_cons, List.append_assoc] at same
      cases ds with
      | nil =>
        have filled := c.utf8Size_pos
        have empty : String.utf8EncodeChar c = [] := (List.append_eq_nil_iff.mp same).1
        rw [← String.length_utf8EncodeChar, empty, List.length_nil] at filled
        omega
      | cons d ds =>
        rw [List.flatMap_cons] at same
        obtain ⟨rfl, behind⟩ := encode_append_inj same
        exact (List.prefix_cons_inj c).mpr (ih ⟨rest, behind⟩)
  · rintro ⟨rest, rfl⟩
    rw [List.flatMap_append]
    exact List.prefix_append _ _

/-! Decimal numbers -/

def isDigitByte (b : UInt8) : Bool := 0x30 ≤ b && b ≤ 0x39

theorem encode_of_isDigit {c : Char} (digit : c.isDigit = true) :
    ∃ b, String.utf8EncodeChar c = [b] ∧ isDigitByte b = true := by
  simp only [Char.isDigit, Bool.and_eq_true, decide_eq_true_eq, ge_iff_le, UInt32.le_iff_toNat_le] at digit
  obtain ⟨low, high⟩ := digit
  change 48 ≤ c.val.toNat at low
  change c.val.toNat ≤ 57 at high
  have size : c.utf8Size = 1 := by
    rw [Char.utf8Size_eq_one_iff, UInt32.le_iff_toNat_le]
    exact Nat.le_trans high (by decide)
  have byte : c.val.toUInt8.toNat = c.val.toNat := by
    rw [UInt32.toNat_toUInt8, Nat.mod_eq_of_lt (by omega)]
  refine ⟨_, String.utf8EncodeChar_eq_singleton size, ?_⟩
  rw [isDigitByte, Bool.and_eq_true, decide_eq_true_eq, decide_eq_true_eq, UInt8.le_iff_toNat_le,
    UInt8.le_iff_toNat_le, byte]
  exact ⟨low, high⟩

/-- The bytes of a natural number are digits. -/
theorem isDigitByte_of_mem_integerText {n : Nat} {b : UInt8} (inside : b ∈ bytesOf (integerText n)) :
    isDigitByte b = true := by
  change b ∈ (String.ofList (digits n)).toList.flatMap String.utf8EncodeChar at inside
  rw [String.toList_ofList, List.mem_flatMap] at inside
  obtain ⟨c, digit, inside⟩ := inside
  obtain ⟨d, code, digit⟩ := encode_of_isDigit (Nat.isDigit_of_mem_toDigits (by decide) (by decide) digit)
  rw [code, List.mem_singleton] at inside
  exact inside ▸ digit

theorem bytesOf_integerText_ne_nil (n : Nat) : bytesOf (integerText n) ≠ [] := by
  intro empty
  have none : integerText n = "" := bytesOf_inj.mp empty
  have digits : (Nat.toDigits 10 n) = [] := by
    rw [← String.toList_ofList (l := Nat.toDigits 10 n)]
    exact congrArg String.toList none
  exact Nat.toDigits_ne_nil digits

theorem eq_blank_of_mem_blanks {width : Nat} {s : String} {b : UInt8} (inside : b ∈ bytesOf (blanks width s)) :
    b = 0x20 := by
  rw [bytesOf, blanks, String.toList_ofList, List.mem_flatMap] at inside
  obtain ⟨c, blank, inside⟩ := inside
  rw [List.eq_of_mem_replicate blank] at inside
  exact List.mem_singleton.mp inside

end Text

open Text (Bytes bytesOf)

namespace Quad

/-! Dumps as bytes -/

/-- The bytes of a tab and of a space. -/
def tab : UInt8 := 0x09
def blank : UInt8 := 0x20

namespace Raw

def isLabel (q : Raw) : Bool := q.op = bytesOf "label"

def isEntry (q : Raw) : Bool := q.isLabel && (bytesOf "func_").isPrefixOf q.arg1

/-- What stands on a line before the quad. -/
def margin (q : Raw) : Bytes :=
  (if q.isLabel then [] else [tab]) ++ bytesOf (Text.alignRight 4 (Text.integerText q.index)) ++ [blank, blank]

def dumpLine (q : Raw) : Bytes := q.margin ++ q.bytes ++ [newline]

/-- The empty line before a procedure. -/
def gap (q : Raw) : Bytes := if q.isEntry then [newline] else []

def dumpRest (code : List Raw) : Bytes := code.flatMap fun q => q.gap ++ q.dumpLine

/-- The printed form of code whose fields are any bytes. -/
def dump : List Raw → Bytes
  | [] => []
  | q :: rest => q.dumpLine ++ dumpRest rest

end Raw

theorem bytes_raw (q : Quad) : q.raw.bytes = bytesOf q.text := by
  simp only [text, Text.bytesOf_append, raw, Raw.bytes, List.append_assoc]
  rfl

theorem isLabel_raw (q : Quad) : q.raw.isLabel = true ↔ q.op = "label" := by
  rw [Raw.isLabel, decide_eq_true_eq]
  exact Text.bytesOf_inj

theorem isEntry_raw (q : Quad) : q.raw.isEntry = q.isEntry := by
  have starts : (bytesOf "func_").isPrefixOf q.raw.arg1 = "func_".toList.isPrefixOf q.arg1.toList := by
    rw [Bool.eq_iff_iff, List.isPrefixOf_iff_prefix, List.isPrefixOf_iff_prefix]
    exact Text.prefix_flatMap_encode_iff
  rw [Raw.isEntry, starts, Quad.isEntry, label?]
  by_cases label : q.op = "label"
  · rw [(isLabel_raw q).mpr label, if_pos label, Label.ofName, textAfter?]
    cases "func_".toList.isPrefixOf q.arg1.toList with
    | true => rfl
    | false => cases textAfter? "end_" q.arg1 <;> rfl
  · rw [Bool.eq_false_iff.mpr (mt (isLabel_raw q).mp label), if_neg label]
    rfl

theorem dumpLine_raw (q : Quad) : q.raw.dumpLine = bytesOf q.dumpLine := by
  have start : bytesOf (if q.op = "label" then "" else "\t") = if q.raw.isLabel then [] else [tab] := by
    by_cases label : q.op = "label"
    · rw [(isLabel_raw q).mpr label, if_pos label]
      rfl
    · rw [Bool.eq_false_iff.mpr (mt (isLabel_raw q).mp label), if_neg label]
      rfl
  simp only [dumpLine, Raw.dumpLine, Raw.margin, Text.bytesOf_append, start, bytes_raw]
  rfl

/-- The dump of a code has the bytes of its dump as text. -/
theorem bytesOf_dump (code : List Quad) : bytesOf (dump code) = Raw.dump (code.map raw) := by
  have behind (text : String) (code : List Quad) :
      bytesOf (code.foldl (fun text q => text ++ (if q.isEntry then "\n" else "") ++ q.dumpLine) text) =
        bytesOf text ++ Raw.dumpRest (code.map raw) := by
    induction code generalizing text with
    | nil => exact (List.append_nil _).symm
    | cons q code ih =>
      have gap : bytesOf (if q.isEntry then "\n" else "") = q.raw.gap := by
        rw [Raw.gap, isEntry_raw]
        cases q.isEntry <;> rfl
      rw [List.foldl_cons, ih, Text.bytesOf_append, Text.bytesOf_append, gap, ← dumpLine_raw]
      simp only [Raw.dumpRest, List.map_cons, List.flatMap_cons, List.append_assoc]
  cases code with
  | nil => rfl
  | cons q code =>
    rw [dump, dumpRest, Text.bytesOf_append, behind, ← dumpLine_raw]
    rfl

/-! Lines of a dump -/

/-- The lines of a text that are not empty. -/
def filledLines (text : Bytes) : List Bytes := (text.splitOn newline).filter (· ≠ [])

theorem filledLines_newline (rest : Bytes) : filledLines (newline :: rest) = filledLines rest := by
  have split := List.splitOn_append_cons_self (a := newline) [] rest
  rw [List.nil_append] at split
  rw [filledLines, split]
  rfl

theorem filledLines_line {line : Bytes} (clean : newline ∉ line) (filled : line ≠ []) (rest : Bytes) :
    filledLines (line ++ newline :: rest) = line :: filledLines rest := by
  rw [filledLines, List.splitOn_append_cons_self, List.splitOn_eq_singleton clean, List.filter_append]
  simp [filled, filledLines]

/-- The quad of a line: the tab at the start, the padded index and two spaces are dropped. -/
def withoutMargin (line : Bytes) : Bytes :=
  let line := if line.head? = some tab then line.tail else line
  ((line.dropWhile (· = blank)).dropWhile Text.isDigitByte).drop 2

/-- The quads of a dump, one on a line. -/
def undumped (text : Bytes) : Bytes := [newline].intercalate ((filledLines text).map withoutMargin)

/-- A column of a number is blanks and then digits, at least one. -/
theorem bytesOf_column (width n : Nat) :
    ∃ blanks first digits, bytesOf (Text.alignRight width (Text.integerText n)) = blanks ++ first :: digits ∧
      (∀ b ∈ blanks, b = blank) ∧ ∀ b ∈ first :: digits, Text.isDigitByte b = true := by
  rw [Text.alignRight, Text.bytesOf_append]
  have digits (b : UInt8) : b ∈ bytesOf (Text.integerText n) → Text.isDigitByte b = true :=
    Text.isDigitByte_of_mem_integerText
  have filled := Text.bytesOf_integerText_ne_nil n
  generalize bytesOf (Text.integerText n) = ds at digits filled
  cases ds with
  | nil => exact absurd rfl filled
  | cons first ds => exact ⟨_, first, ds, rfl, fun b inside => Text.eq_blank_of_mem_blanks inside, digits⟩

theorem ne_of_isDigitByte {b c : UInt8} (digit : Text.isDigitByte b = true) (other : Text.isDigitByte c = false) :
    b ≠ c := by
  rintro rfl
  rw [digit] at other
  contradiction

theorem withoutMargin_of_column {start blanks digits rest : Bytes} {first : UInt8}
    (indent : start = [] ∨ start = [tab]) (padding : ∀ b ∈ blanks, b = blank)
    (digit : ∀ b ∈ first :: digits, Text.isDigitByte b = true) :
    withoutMargin (start ++ (blanks ++ first :: digits) ++ [blank, blank] ++ rest) = rest := by
  have leading := digit first List.mem_cons_self
  have column : (((blanks ++ first :: digits) ++ [blank, blank] ++ rest).dropWhile (· = blank)).dropWhile
      Text.isDigitByte = blank :: blank :: rest := by
    have unlike : first ≠ blank := ne_of_isDigitByte leading (by decide)
    rw [List.append_assoc, List.append_assoc, List.dropWhile_append_of_pos (by simpa using padding), List.cons_append,
      List.dropWhile_cons_of_neg (p := (· = blank)) (by simpa using unlike), ← List.cons_append,
      List.dropWhile_append_of_pos digit]
    rfl
  rcases indent with rfl | rfl
  · have bare : ([] ++ (blanks ++ first :: digits) ++ [blank, blank] ++ rest).head? ≠ some tab := by
      cases blanks with
      | nil =>
        have unlike : first ≠ tab := ne_of_isDigitByte leading (by decide)
        simpa using unlike
      | cons b blanks =>
        have unlike : blank ≠ tab := by decide
        simpa [padding b List.mem_cons_self] using unlike
    rw [withoutMargin, if_neg bare]
    exact congrArg (List.drop 2) column
  · have indented : ([tab] ++ (blanks ++ first :: digits) ++ [blank, blank] ++ rest).head? = some tab := rfl
    rw [withoutMargin, if_pos indented]
    exact congrArg (List.drop 2) column

/-- The margin of a numbered quad ends where the quad begins. -/
theorem Raw.withoutMargin_append {q : Raw} {n : Nat} (index : q.index = n) :
    withoutMargin (q.margin ++ q.bytes) = q.bytes := by
  obtain ⟨blanks, first, digits, column, padding, digit⟩ := bytesOf_column 4 n
  rw [margin, index, column]
  refine withoutMargin_of_column ?_ padding digit
  cases q.isLabel
  · exact .inr rfl
  · exact .inl rfl

theorem Raw.newline_not_mem_margin {q : Raw} {n : Nat} (index : q.index = n) : newline ∉ q.margin := by
  obtain ⟨blanks, first, digits, column, padding, digit⟩ := bytesOf_column 4 n
  have start : newline ∉ (if q.isLabel then [] else [tab]) := by
    cases q.isLabel <;> decide
  have blanks_clean : newline ∉ blanks := fun inside => absurd (padding newline inside) (by decide)
  have digits_clean : newline ∉ first :: digits := fun inside => absurd (digit newline inside) (by decide)
  rw [margin, index, column]
  simp only [List.mem_append, not_or]
  exact ⟨⟨start, blanks_clean, digits_clean⟩, by decide⟩

/-- The lines of a dump that are not empty have a quad each. -/
theorem filledLines_dump {code : List Raw} (clean : ∀ q ∈ code, newline ∉ q.bytes)
    (numbered : ∀ q ∈ code, ∃ n : Nat, q.index = n) :
    filledLines (Raw.dump code) = code.map fun q => q.margin ++ q.bytes := by
  have line {q : Raw} (inside : q ∈ code) (rest : Bytes) :
      filledLines (q.dumpLine ++ rest) = (q.margin ++ q.bytes) :: filledLines rest := by
    obtain ⟨n, index⟩ := numbered q inside
    have unbroken : newline ∉ q.margin ++ q.bytes := by
      rw [List.mem_append, not_or]
      exact ⟨Raw.newline_not_mem_margin index, clean q inside⟩
    rw [Raw.dumpLine, List.append_assoc, List.singleton_append]
    exact filledLines_line unbroken (by simp [Raw.bytes]) rest
  have behind (rest : List Raw) (part : ∀ q ∈ rest, q ∈ code) :
      filledLines (Raw.dumpRest rest) = rest.map fun q => q.margin ++ q.bytes := by
    induction rest with
    | nil => rfl
    | cons q rest ih =>
      obtain ⟨here, others⟩ := List.forall_mem_cons.mp part
      have gap (text : Bytes) : filledLines (q.gap ++ text) = filledLines text := by
        rw [Raw.gap]
        split
        · exact filledLines_newline text
        · rfl
      have next : Raw.dumpRest (q :: rest) = q.gap ++ (q.dumpLine ++ Raw.dumpRest rest) := by
        simp [Raw.dumpRest]
      rw [next, gap, line here, ih others]
      rfl
  cases code with
  | nil => rfl
  | cons q rest =>
    rw [Raw.dump, line List.mem_cons_self, behind rest fun r inside => List.mem_cons_of_mem q inside]
    rfl

/-! Code from a dump -/

/-- What is read has numbers and fits on lines. -/
theorem line_of_codeOfBytes {text : Bytes} {code : List Raw} (read : codeOfBytes text = .ok code) :
    ∀ q ∈ code, newline ∉ q.bytes ∧ ∃ n : Nat, q.index = n := by
  obtain ⟨found, forms, rfl⟩ := codeOfBytes_eq_ok_iff.mp read
  have printed := printed_of_forms forms fun line inside => Text.not_mem_of_mem_splitOn inside
  intro q inside
  obtain ⟨i, bound, rfl⟩ := List.mem_mapIdx.mp inside
  exact ⟨(printed _ (List.getElem_mem bound)).1, i, rfl⟩

theorem undumped_dump {text : Bytes} {code : List Raw} (read : codeOfBytes text = .ok code) :
    undumped (Raw.dump code) = [newline].intercalate (code.map Raw.bytes) := by
  have lines := line_of_codeOfBytes read
  rw [undumped, filledLines_dump (fun q inside => (lines q inside).1) (fun q inside => (lines q inside).2),
    List.map_map]
  refine congrArg (List.intercalate _) (List.map_congr_left fun q inside => ?_)
  obtain ⟨n, index⟩ := (lines q inside).2
  exact Raw.withoutMargin_append index

theorem codeOfBytes_undumped {text : Bytes} {code : List Raw} (read : codeOfBytes text = .ok code) :
    codeOfBytes (undumped (Raw.dump code)) = .ok code := by
  rw [undumped_dump read]
  exact codeOfBytes_printed read

/-- The quads of a dump of text are text. -/
theorem undumped_bytesOf_dump {s : String} {code : List Quad} (read : codeOfText s = .ok code) :
    undumped (bytesOf (dump code)) = bytesOf ("\n".intercalate (code.map text)) := by
  rw [bytesOf_dump, undumped_dump (codeOfText_eq_ok_iff.mp read), Text.bytesOf_intercalate, List.map_map, List.map_map]
  refine congrArg (List.intercalate _) (List.map_congr_left fun q _ => ?_)
  rw [Function.comp_apply, Function.comp_apply, bytes_raw]

/-- No two codes that were read have the same dump, and a code is read again from its dump without the margins
and the empty lines. Dumps of text are the dumps of its bytes. -/
theorem dump_lossless :
    (∀ s t code other, codeOfBytes s = .ok code → codeOfBytes t = .ok other →
      Raw.dump code = Raw.dump other → code = other) ∧
    (∀ s code, codeOfBytes s = .ok code → codeOfBytes (undumped (Raw.dump code)) = .ok code) ∧
    (∀ code : List Quad, bytesOf (dump code) = Raw.dump (code.map raw)) ∧
    (∀ s t code other, codeOfText s = .ok code → codeOfText t = .ok other → dump code = dump other →
      code = other) ∧
    ∀ s code, codeOfText s = .ok code → codeOfText (Text.textOf (undumped (bytesOf (dump code)))) = .ok code := by
  have restored {s : String} {code : List Quad} (read : codeOfText s = .ok code) :
      codeOfText (Text.textOf (undumped (bytesOf (dump code)))) = .ok code := by
    have again := codeOfBytes_undumped (codeOfText_eq_ok_iff.mp read)
    rw [← bytesOf_dump, undumped_bytesOf_dump read] at again
    rw [undumped_bytesOf_dump read, Text.textOf_bytesOf]
    exact codeOfText_eq_ok_iff.mpr again
  refine ⟨fun s t code other read read' same => ?_, fun s code => codeOfBytes_undumped, bytesOf_dump,
    fun s t code other read read' same => ?_, fun s code => restored⟩
  · have again := codeOfBytes_undumped read
    rw [same, codeOfBytes_undumped read'] at again
    exact (Except.ok.inj again).symm
  · have again := restored read
    rw [same, restored read'] at again
    exact (Except.ok.inj again).symm

/-- Fields with blanks, digits, parentheses, a tab and a hash, and a procedure behind other code. -/
def lookalikeText : String := "(+,1  (2,#\t3,t)\n(label,func_f,,)\n( = , 0  (=  ,,x)"

def lookalikeCode : List Quad :=
  [{ op := "+", arg1 := "1  (2", arg2 := "#\t3", res := "t" },
    { op := "label", arg1 := "func_f", index := 1 },
    { op := "=", arg1 := "0  (=", res := "x", index := 2 }]

/-- A field that is no text. -/
def strayText : Bytes := [opening, 0x3d, comma, 0xff, comma, comma, 0x78, closing]

def strayCode : List Raw := [{ op := [0x3d], arg1 := [0xff], res := [0x78] }]

theorem dump_lossless_lookalike :
    (codeOfText lookalikeText = .ok lookalikeCode ∧
      dump lookalikeCode = "\t   0  (+,1  (2,#\t3,t)\n\n   1  (label,func_f,,)\n\t   2  (=,0  (=,,x)\n" ∧
      codeOfText (Text.textOf (undumped (bytesOf (dump lookalikeCode)))) = .ok lookalikeCode) ∧
    (codeOfText "(=,1  (2,,t)" = .ok [{ op := "=", arg1 := "1  (2", res := "t" }] ∧
      dump lookalikeCode ≠ dump [{ op := "=", arg1 := "1  (2", res := "t" }]) ∧
    codeOfBytes strayText = .ok strayCode ∧ codeOfBytes (undumped (Raw.dump strayCode)) = .ok strayCode := by
  obtain ⟨_, restored, _, textInjective, textRestored⟩ := dump_lossless
  have read : codeOfText lookalikeText = .ok lookalikeCode := by decide +kernel
  have other : codeOfText "(=,1  (2,,t)" = .ok [{ op := "=", arg1 := "1  (2", res := "t" }] := by
    decide +kernel
  have stray : codeOfBytes strayText = .ok strayCode := by decide +kernel
  refine ⟨⟨read, by decide +kernel, textRestored _ _ read⟩, ⟨other, fun same => ?_⟩, stray,
    restored _ _ stray⟩
  have length : lookalikeCode.length = 1 := congrArg List.length (textInjective _ _ _ _ read other same)
  exact absurd length (by decide)

end Quad

end ThreeAddress
