import Mathlib.Data.List.Infix
import ThreeAddress.Text.Blank

/-! Trimming, splitting and the bytes of text. Trimming drops blanks and nothing else, also where the bytes
are no text. What trimming and splitting leave of the bytes of a text are the bytes of a text. -/
namespace ThreeAddress

namespace Text

/-! Trimming -/

/-- None of the codes stands at the start. -/
def Bare (codes : List Bytes) (s : Bytes) : Prop := ∀ code ∈ codes, ¬ code <+: s

section Codes

variable {codes : List Bytes}

theorem find?_eq_none_iff_bare {s : Bytes} : codes.find? (·.isPrefixOf s) = none ↔ Bare codes s := by
  simp [Bare]

theorem Bare.of_front {s t : Bytes} (bare : Bare codes s) (inside : t <+: s) : Bare codes t := by
  intro code known front
  exact bare code known (front.trans inside)

/-- A byte that starts no code is a bare start. -/
theorem bare_cons {b : UInt8} (unlike : ∀ code ∈ codes, code ≠ [] ∧ code.head? ≠ some b) (s : Bytes) :
    Bare codes (b :: s) := by
  rintro code known ⟨rest, split⟩
  obtain ⟨filled, differs⟩ := unlike code known
  cases code with
  | nil => exact filled rfl
  | cons c code =>
    apply differs
    rw [List.cons_append] at split
    rw [List.head?_cons, (List.cons.inj split).1]

theorem dropCodes_suffix (n : Nat) (s : Bytes) : dropCodes codes n s <:+ s := by
  fun_induction dropCodes codes n s with
  | case1 => exact List.suffix_rfl
  | case2 n b rest ih => exact ih.trans (List.suffix_cons b rest)
  | case3 b rest code found ih => exact ih.trans (List.suffix_cons b rest)
  | case4 => exact List.suffix_rfl

theorem dropCodes_bare (codes : List Bytes) (filled : [] ∉ codes) (n : Nat) (s : Bytes) :
    Bare codes (dropCodes codes n s) := by
  fun_induction dropCodes codes n s with
  | case1 =>
    intro code known front
    rw [List.prefix_nil] at front
    exact filled (front ▸ known)
  | case2 n b rest ih => exact ih
  | case3 b rest code found ih => exact ih
  | case4 b rest none => exact find?_eq_none_iff_bare.mp none

theorem dropCodes_of_bare {s : Bytes} (bare : Bare codes s) : dropCodes codes 0 s = s := by
  cases s with
  | nil => rfl
  | cons b rest => rw [dropCodes, find?_eq_none_iff_bare.mpr bare]

end Codes

theorem trimStart_suffix (s : Bytes) : trimStart s <:+ s := dropCodes_suffix 0 s

theorem trimEnd_front (s : Bytes) : trimEnd s <+: s := by
  rw [trimEnd, ← List.reverse_suffix, List.reverse_reverse]
  exact dropCodes_suffix 0 s.reverse

theorem trim_inside (s : Bytes) : trim s <:+: s :=
  (trimEnd_front (trimStart s)).isInfix.trans (trimStart_suffix s).isInfix

/-- No blank stands at the start or at the end. -/
structure Tight (s : Bytes) : Prop where
  start : Bare (whiteSpace.map String.utf8EncodeChar) s
  finish : Bare (whiteSpace.map fun c => (String.utf8EncodeChar c).reverse) s.reverse

theorem trim_tight (s : Bytes) : Tight (trim s) := by
  constructor
  · exact (dropCodes_bare _ (by decide) 0 s).of_front (trimEnd_front (trimStart s))
  · rw [trim, trimEnd, List.reverse_reverse]
    exact dropCodes_bare _ (by decide) 0 _

theorem Tight.trim_eq {s : Bytes} (tight : Tight s) : trim s = s := by
  rw [trim, trimStart, dropCodes_of_bare tight.start, trimEnd, dropCodes_of_bare tight.finish,
    List.reverse_reverse]

theorem trim_trim (s : Bytes) : trim (trim s) = trim s := (trim_tight s).trim_eq

/-! Parts -/

theorem not_mem_of_mem_splitOn {b : UInt8} {s part : Bytes} (inside : part ∈ s.splitOn b) : b ∉ part := by
  induction s generalizing part with
  | nil => simp_all
  | cons c s ih =>
    rw [List.splitOn_cons_eq_if_modifyHead] at inside
    split at inside
    · rcases List.mem_cons.mp inside with rfl | later
      · exact List.not_mem_nil
      · exact ih later
    · rename_i unlike
      cases parts : s.splitOn b with
      | nil => exact absurd parts (List.splitOn_ne_nil b s)
      | cons first others =>
        rw [parts] at inside ih
        rw [List.modifyHead_cons] at inside
        rcases List.mem_cons.mp inside with rfl | later
        · have clean : b ∉ first := ih List.mem_cons_self
          simp_all
          tauto
        · exact ih (List.mem_cons_of_mem first later)

/-! Bytes of text -/

/-- The bytes are those of a text. -/
def Encoded (bs : Bytes) : Prop := ∃ cs : List Char, bs = cs.flatMap String.utf8EncodeChar

theorem bytesOf_encoded (s : String) : Encoded (bytesOf s) := ⟨s.toList, rfl⟩

theorem char?_encode (c : Char) (rest : Bytes) : char? (String.utf8EncodeChar c ++ rest) = some c := by
  have short : (String.utf8EncodeChar c).length ≤ 4 := by
    rw [String.length_utf8EncodeChar]
    exact c.utf8Size_le_four
  rw [char?, List.take_append, List.take_of_length_le short, List.toByteArray_append]
  exact ByteArray.utf8DecodeChar?_utf8EncodeChar_append

/-- The first character of a text can be told from its bytes. -/
theorem encode_append_inj {c d : Char} {a b : Bytes}
    (same : String.utf8EncodeChar c ++ a = String.utf8EncodeChar d ++ b) : c = d ∧ a = b := by
  have first : c = d := by
    apply Option.some.inj
    rw [← char?_encode c a, same, char?_encode]
  subst first
  exact ⟨rfl, List.append_cancel_left same⟩

theorem Encoded.of_encode_append {c : Char} {bs : Bytes} (encoded : Encoded (String.utf8EncodeChar c ++ bs)) :
    Encoded bs := by
  obtain ⟨cs, same⟩ := encoded
  cases cs with
  | nil =>
    have filled := c.utf8Size_pos
    rw [List.flatMap_nil, List.append_eq_nil_iff, ← List.length_eq_zero_iff, String.length_utf8EncodeChar] at same
    omega
  | cons d cs =>
    rw [List.flatMap_cons] at same
    exact ⟨cs, (encode_append_inj same).2⟩

theorem glyphsFrom_eq (n : Nat) (bs : Bytes) : glyphsFrom n bs = glyphs (bs.drop n) := by
  induction bs generalizing n with
  | nil =>
    rw [List.drop_nil]
    cases n <;> rfl
  | cons b bs ih =>
    cases n with
    | zero => rfl
    | succ n =>
      rw [glyphsFrom, List.drop_succ_cons]
      exact ih n

theorem glyphs_encode (c : Char) (rest : Bytes) :
    glyphs (String.utf8EncodeChar c ++ rest) = .char c :: glyphs rest := by
  have read := char?_encode c rest
  have size := String.length_utf8EncodeChar c
  have filled := c.utf8Size_pos
  generalize String.utf8EncodeChar c = code at read size
  cases code with
  | nil =>
    rw [List.length_nil] at size
    omega
  | cons b code =>
    rw [List.cons_append] at read ⊢
    rw [glyphs, glyphsFrom, read]
    simp only [glyphsFrom_eq]
    rw [← size, List.length_cons, Nat.add_sub_cancel, List.drop_left]

theorem textOf_bytesOf (s : String) : textOf (bytesOf s) = s := by
  have chars (cs : List Char) : (glyphs (cs.flatMap String.utf8EncodeChar)).map Glyph.shown = cs := by
    induction cs with
    | nil => rfl
    | cons c cs ih => rw [List.flatMap_cons, glyphs_encode, List.map_cons, ih, Glyph.shown]
  rw [textOf, bytesOf, chars, String.ofList_toList]

theorem Encoded.bytesOf_textOf {bs : Bytes} (encoded : Encoded bs) : bytesOf (textOf bs) = bs := by
  obtain ⟨cs, rfl⟩ := encoded
  have same : bytesOf (String.ofList cs) = cs.flatMap String.utf8EncodeChar := by
    rw [bytesOf, String.toList_ofList]
  rw [← same, textOf_bytesOf]

/-- Bytes start with a character or with a stray byte. -/
theorem glyphs_cons (b : UInt8) (bs : Bytes) :
    (∃ c rest, b :: bs = String.utf8EncodeChar c ++ rest ∧ glyphs (b :: bs) = .char c :: glyphs rest) ∨
      glyphs (b :: bs) = .stray b :: glyphs bs := by
  cases read : char? (b :: bs) with
  | none => exact .inr (by rw [glyphs, glyphsFrom, read, glyphs])
  | some c =>
    have split := congrArg (·.data.toList) (ByteArray.eq_of_utf8DecodeChar?_eq_some read)
    simp only [ByteArray.data_append, List.data_toByteArray, Array.toList_append] at split
    have front : String.utf8EncodeChar c <+: (b :: bs).take 4 := ⟨_, split.symm⟩
    obtain ⟨rest, whole⟩ := front.trans (List.take_prefix 4 (b :: bs))
    exact .inl ⟨c, rest, whole.symm, whole ▸ glyphs_encode c rest⟩

theorem flatMap_encode_of_glyphs {bs : Bytes} {cs : List Char} (plain : '\ufffd' ∉ cs)
    (shown : (glyphs bs).map Glyph.shown = cs) : cs.flatMap String.utf8EncodeChar = bs := by
  induction cs generalizing bs with
  | nil =>
    cases bs with
    | nil => rfl
    | cons b bs => rcases glyphs_cons b bs with ⟨_, _, _, first⟩ | first <;> simp [first] at shown
  | cons c cs ih =>
    rw [List.mem_cons, not_or] at plain
    obtain ⟨other, plain⟩ := plain
    cases bs with
    | nil => cases shown
    | cons b bs =>
      rcases glyphs_cons b bs with ⟨d, rest, whole, first⟩ | first
      · rw [first, List.map_cons, Glyph.shown] at shown
        obtain ⟨rfl, behind⟩ := List.cons.inj shown
        rw [List.flatMap_cons, ih plain behind, whole]
      · rw [first, List.map_cons, Glyph.shown] at shown
        exact absurd (List.cons.inj shown).1 other

/-- A text without replacement characters is the text of its own bytes only. -/
theorem textOf_eq_iff {bs : Bytes} {s : String} (plain : '\ufffd' ∉ s.toList) :
    textOf bs = s ↔ bytesOf s = bs := by
  refine ⟨fun shown => flatMap_encode_of_glyphs plain ?_, fun same => same ▸ textOf_bytesOf s⟩
  rw [← shown, textOf, String.toList_ofList]

theorem Encoded.encode_append {bs : Bytes} (encoded : Encoded bs) (c : Char) :
    Encoded (String.utf8EncodeChar c ++ bs) := by
  obtain ⟨cs, rfl⟩ := encoded
  exact ⟨c :: cs, by rw [List.flatMap_cons]⟩

/-- Text can be cut in front of every byte that starts a character. -/
theorem Encoded.cut {a c : Bytes} {b : UInt8} (encoded : Encoded (a ++ b :: c)) (starts : b.IsUTF8FirstByte) :
    Encoded a ∧ Encoded (b :: c) := by
  have whole := encoded
  obtain ⟨cs, same⟩ := encoded
  induction cs generalizing a with
  | nil => simp at same
  | cons d cs ih =>
    rw [List.flatMap_cons] at same
    rcases List.append_eq_append_iff.mp same with ⟨tail, inside, rest⟩ | ⟨a, rfl, rest⟩
    · cases tail with
      | nil =>
        rw [List.append_nil] at inside
        exact ⟨⟨[d], by simp [inside]⟩, ⟨cs, rest⟩⟩
      | cons e tail =>
        -- a character has its only such byte at the start
        obtain ⟨rfl, rfl⟩ := List.cons.inj rest
        have bound : a.length < (String.utf8EncodeChar d).length := by simp [inside]
        have first : (String.utf8EncodeChar d)[a.length].IsUTF8FirstByte ↔ a.length = 0 :=
          UInt8.isUTF8FirstByte_getElem_utf8EncodeChar
        simp only [inside, List.getElem_append_right (Nat.le_refl _), Nat.sub_self, List.getElem_cons_zero] at first
        cases List.length_eq_zero_iff.mp (first.mp starts)
        exact ⟨⟨[], rfl⟩, whole⟩
    · obtain ⟨front, back⟩ := ih ⟨cs, rest.symm⟩ rest.symm
      exact ⟨front.encode_append d, back⟩

/-- The parts between plain separators. -/
theorem Encoded.of_mem_splitOn {s part : Bytes} {b : UInt8} {c : Char} (encoded : Encoded s)
    (plain : String.utf8EncodeChar c = [b]) (starts : b.IsUTF8FirstByte) (inside : part ∈ s.splitOn b) :
    Encoded part := by
  have joined (parts : List Bytes) (encoded : Encoded ([b].intercalate parts)) : ∀ part ∈ parts, Encoded part := by
    induction parts with
    | nil => simp
    | cons part parts ih =>
      by_cases last : parts = []
      · subst last
        simpa using encoded
      · rw [List.intercalate_cons_of_ne_nil last, List.append_assoc, List.singleton_append] at encoded
        obtain ⟨front, back⟩ := encoded.cut starts
        have behind : Encoded (String.utf8EncodeChar c ++ [b].intercalate parts) := by
          rw [plain]
          exact back
        exact List.forall_mem_cons.mpr ⟨front, ih behind.of_encode_append⟩
  have whole : [b].intercalate (s.splitOn b) = s := List.intercalate_splitOn b
  rw [← whole] at encoded
  exact joined _ encoded part inside

theorem Encoded.of_append_encode {c : Char} {bs : Bytes} (encoded : Encoded (bs ++ String.utf8EncodeChar c)) :
    Encoded bs := by
  have filled : 0 < (String.utf8EncodeChar c).length := by
    rw [String.length_utf8EncodeChar]
    exact c.utf8Size_pos
  have starts : (String.utf8EncodeChar c)[0].IsUTF8FirstByte :=
    UInt8.isUTF8FirstByte_getElem_utf8EncodeChar.mpr rfl
  generalize String.utf8EncodeChar c = code at encoded filled starts
  cases code with
  | nil => simp at filled
  | cons b code => exact (encoded.cut starts).1

/-- What the rest behind a code inherits is true of the bytes without the codes. -/
theorem dropCodes_induction {codes : List Bytes} {P : Bytes → Prop} (filled : [] ∉ codes)
    (step : ∀ code ∈ codes, ∀ s, P (code ++ s) → P s) (n : Nat) (s : Bytes) (holds : P (s.drop n)) :
    P (dropCodes codes n s) := by
  fun_induction dropCodes codes n s with
  | case1 => simpa using holds
  | case2 n b rest ih => exact ih holds
  | case3 b rest code found ih =>
    have known := List.mem_of_find?_eq_some found
    obtain ⟨behind, whole⟩ : code <+: b :: rest := by simpa using List.find?_some found
    cases code with
    | nil => exact absurd known filled
    | cons c code =>
      rw [List.cons_append] at whole
      obtain ⟨rfl, rfl⟩ := List.cons.inj whole
      apply ih
      rw [List.length_cons, Nat.add_sub_cancel, List.drop_left]
      exact step _ known behind holds
  | case4 => exact holds

theorem Encoded.trimStart {s : Bytes} (encoded : Encoded s) : Encoded (trimStart s) := by
  apply dropCodes_induction (by decide) _ 0 s encoded
  intro code known rest
  obtain ⟨c, _, rfl⟩ := List.mem_map.mp known
  exact Encoded.of_encode_append

theorem Encoded.trimEnd {s : Bytes} (encoded : Encoded s) : Encoded (trimEnd s) := by
  apply dropCodes_induction (P := fun t => Encoded t.reverse) (by decide) _ 0 s.reverse
  · rwa [List.drop_zero, List.reverse_reverse]
  · intro code known rest
    obtain ⟨c, _, rfl⟩ := List.mem_map.mp known
    rw [List.reverse_append, List.reverse_reverse]
    exact Encoded.of_append_encode

theorem Encoded.trim {s : Bytes} (encoded : Encoded s) : Encoded (trim s) := encoded.trimStart.trimEnd

end Text

end ThreeAddress
