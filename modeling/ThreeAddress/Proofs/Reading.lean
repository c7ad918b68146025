import Mathlib.Data.List.Forall2
import Mathlib.Data.List.ReduceOption
import ThreeAddress.Proofs.Encoding
import ThreeAddress.Quad.Reader

/-! Reading three-address code is exact, and printing undoes it. The form of a line is said here without
the reader: what it accepts, what it makes of the lines and what it says of the first bad one. -/
namespace ThreeAddress

open Text (Bytes trim)

namespace Quad

/-! Quads -/

namespace Raw

def fields (q : Raw) : List Bytes := [q.op, q.arg1, q.arg2, q.res]

/-- The quad without its index and the blanks around its fields. -/
def trimmed (q : Raw) : Raw := ⟨trim q.op, trim q.arg1, trim q.arg2, trim q.res, 0⟩

/-- The fields can be told apart, and there is an opcode. -/
structure Formed (q : Raw) : Prop where
  commas : ∀ f ∈ q.fields, comma ∉ f
  opcode : trim q.op ≠ []

/-- The quad is as it would be read. -/
structure Canonical (q : Raw) : Prop where
  commas : ∀ f ∈ q.fields, comma ∉ f
  trimmed : ∀ f ∈ q.fields, trim f = f
  opcode : q.op ≠ []

theorem bytes_eq (q : Raw) : q.bytes = opening :: ([comma].intercalate q.fields ++ [closing]) := by
  simp [bytes, fields]

theorem fields_trimmed (q : Raw) : q.trimmed.fields = q.fields.map trim := rfl

theorem Formed.canonical {q : Raw} (formed : q.Formed) : q.trimmed.Canonical := by
  constructor
  · intro f inside
    rw [fields_trimmed, List.mem_map] at inside
    obtain ⟨g, known, rfl⟩ := inside
    exact fun found => formed.commas g known ((Text.trim_inside g).subset found)
  · intro f inside
    rw [fields_trimmed, List.mem_map] at inside
    obtain ⟨g, known, rfl⟩ := inside
    exact Text.trim_trim g
  · exact formed.opcode

theorem Canonical.trimmed_eq {q : Raw} (canonical : q.Canonical) : q.trimmed = { q with index := 0 } := by
  have same := canonical.trimmed
  simp only [fields, List.forall_mem_cons] at same
  obtain ⟨op, arg1, arg2, res, _⟩ := same
  rw [Raw.trimmed, op, arg1, arg2, res]

theorem Canonical.formed {q : Raw} (canonical : q.Canonical) : q.Formed := by
  constructor
  · exact canonical.commas
  · rw [canonical.trimmed q.op (by simp [fields])]
    exact canonical.opcode

/-- Trimming the fields leaves bytes of the quad only. -/
theorem bytes_trimmed_subset (q : Raw) : q.trimmed.bytes ⊆ q.bytes := by
  have part (f : Bytes) : trim f ⊆ f := (Text.trim_inside f).subset
  intro b inside
  simp only [bytes, trimmed, List.mem_cons, List.mem_append] at inside ⊢
  have op := @part q.op b
  have arg1 := @part q.arg1 b
  have arg2 := @part q.arg2 b
  have res := @part q.res b
  grind

theorem length_bytes_trimmed (q : Raw) : q.trimmed.bytes.length ≤ q.bytes.length := by
  have part (f : Bytes) : (trim f).length ≤ f.length := (Text.trim_inside f).length_le
  simp only [bytes, trimmed, List.length_cons, List.length_append]
  have op := part q.op
  have arg1 := part q.arg1
  have arg2 := part q.arg2
  have res := part q.res
  omega

/-- The parentheses are no blanks. -/
theorem trim_bytes (q : Raw) : trim q.bytes = q.bytes := by
  rw [bytes_eq]
  apply Text.Tight.trim_eq
  constructor
  · exact Text.bare_cons (by decide) _
  · rw [List.reverse_cons, List.reverse_append, List.reverse_singleton, List.singleton_append, List.cons_append]
    exact Text.bare_cons (by decide) _

end Raw

theorem insideParentheses?_eq_some_iff {s inner : Bytes} :
    insideParentheses? s = some inner ↔ s = opening :: (inner ++ [closing]) := by
  cases s with
  | nil => simp [insideParentheses?]
  | cons b rest =>
    rw [insideParentheses?]
    constructor
    · intro found
      split at found
      · rename_i ends
        cases Option.some.inj found
        have split := List.dropLast_append_getLast? closing ends.2
        rw [ends.1, split]
      · contradiction
    · intro same
      cases List.cons.inj same with
      | intro first others => simp [first, others]

theorem ofFields_eq_ok_iff {text : Bytes} {fs : List Bytes} {q : Raw} :
    ofFields text fs = .ok q ↔ fs = q.fields ∧ q.op ≠ [] ∧ q.index = 0 := by
  constructor
  · intro read
    unfold ofFields at read
    split at read
    · split at read
      · contradiction
      · rename_i named
        cases Except.ok.inj read
        exact ⟨rfl, named, rfl⟩
    · contradiction
  · rintro ⟨rfl, named, index⟩
    rw [Raw.fields, ofFields, if_neg named, ← index]

/-- A quad is read from its form and from nothing else. -/
theorem ofBytes_eq_ok_iff {s : Bytes} {q : Raw} :
    ofBytes s = .ok q ↔ ∃ r : Raw, r.Formed ∧ trim s = r.bytes ∧ q = r.trimmed := by
  constructor
  · intro read
    unfold ofBytes at read
    cases found : insideParentheses? (trim s) with
    | none =>
      simp only [found] at read
      contradiction
    | some inner =>
      simp only [found] at read
      obtain ⟨same, named, index⟩ := ofFields_eq_ok_iff.mp read
      obtain ⟨op, rest, parts, op_eq, same⟩ := List.map_eq_cons_iff.mp same
      obtain ⟨arg1, rest, rfl, arg1_eq, same⟩ := List.map_eq_cons_iff.mp same
      obtain ⟨arg2, rest, rfl, arg2_eq, same⟩ := List.map_eq_cons_iff.mp same
      obtain ⟨res, rest, rfl, res_eq, same⟩ := List.map_eq_cons_iff.mp same
      cases List.map_eq_nil_iff.mp same
      refine ⟨⟨op, arg1, arg2, res, 0⟩, ⟨?_, ?_⟩, ?_, ?_⟩
      · intro f inside
        have part : f ∈ inner.splitOn comma := by rwa [parts]
        exact Text.not_mem_of_mem_splitOn part
      · rw [op_eq]
        exact named
      · have joined : [comma].intercalate (inner.splitOn comma) = inner := List.intercalate_splitOn comma
        rw [insideParentheses?_eq_some_iff.mp found, Raw.bytes_eq, ← joined, parts]
        rfl
      · rw [Raw.trimmed, op_eq, arg1_eq, arg2_eq, res_eq, ← index]
  · rintro ⟨r, formed, same, rfl⟩
    have found : insideParentheses? (trim s) = some ([comma].intercalate r.fields) := by
      rw [insideParentheses?_eq_some_iff, same, Raw.bytes_eq]
    unfold ofBytes
    simp only [found]
    rw [List.splitOn_intercalate comma formed.commas (by simp [Raw.fields]), ← Raw.fields_trimmed]
    exact ofFields_eq_ok_iff.mpr ⟨rfl, formed.opcode, rfl⟩

theorem ofBytes_error {s : Bytes} {e : Error} (failed : ofBytes s = .error e) :
    e.kind = .badQuad ∧ e.contexts = [] := by
  unfold ofBytes at failed
  cases found : insideParentheses? (trim s) with
  | none =>
    simp only [found] at failed
    cases failed
    exact ⟨rfl, rfl⟩
  | some inner =>
    simp only [found, ofFields] at failed
    split at failed
    · split at failed
      · cases failed
        exact ⟨rfl, rfl⟩
      · contradiction
    · cases failed
      exact ⟨rfl, rfl⟩

theorem Raw.Canonical.ofBytes_bytes {q : Raw} (canonical : q.Canonical) :
    ofBytes q.bytes = .ok { q with index := 0 } :=
  ofBytes_eq_ok_iff.mpr ⟨q, canonical.formed, q.trim_bytes, canonical.trimmed_eq.symm⟩

/-! Lines -/

/-- What counts of a line. -/
def content (line : Bytes) : Bytes := trim (withoutReturn line)

/-- What a line of code may be and what is found on it. -/
inductive Line (line : Bytes) : Option Raw → Prop
  | empty : line.length < lineLimit → content line = [] → Line line none
  | comment (rest : Bytes) : line.length < lineLimit → content line = hash :: rest → Line line none
  | quad (q : Raw) : line.length < lineLimit → content line = q.bytes → q.Formed → Line line (some q.trimmed)

theorem withoutReturn_front (line : Bytes) : withoutReturn line <+: line := by
  unfold withoutReturn
  split
  · exact List.dropLast_prefix line
  · exact List.prefix_rfl

theorem content_inside (line : Bytes) : content line <:+: line :=
  (Text.trim_inside _).trans (withoutReturn_front line).isInfix

theorem Line.short {line : Bytes} {found : Option Raw} (form : Line line found) : line.length < lineLimit := by
  cases form <;> assumption

theorem isSkipped_eq_true_iff {s : Bytes} : isSkipped s = true ↔ s = [] ∨ ∃ rest, s = hash :: rest := by
  cases s with
  | nil => simp [isSkipped]
  | cons b rest => simp [isSkipped]

theorem Raw.isSkipped_bytes (q : Raw) : isSkipped q.bytes = false := rfl

/-- Blanks around a line are dropped once and for all. -/
theorem ofBytes_content {line : Bytes} {q : Raw} :
    ofBytes (content line) = .ok q ↔ ∃ r : Raw, r.Formed ∧ content line = r.bytes ∧ q = r.trimmed := by
  rw [ofBytes_eq_ok_iff, content, Text.trim_trim]

/-- The step of the reader on a line of the right form. -/
theorem ofLines_cons {line : Bytes} {found : Option Raw} (form : Line line found) (number : Nat)
    (rest : List Bytes) :
    ofLines number (line :: rest) = (ofLines (number + 1) rest).map (found.toList ++ ·) := by
  have nothing (skipped : isSkipped (content line) = true) :
      ofLines number (line :: rest) = (ofLines (number + 1) rest).map ([] ++ ·) := by
    rw [ofLines, if_neg (Nat.not_le.mpr form.short)]
    simp only [content] at skipped
    simp only [skipped, if_true, List.nil_append]
    cases ofLines (number + 1) rest <;> rfl
  cases form with
  | empty short none => exact nothing (isSkipped_eq_true_iff.mpr (.inl none))
  | comment text short comment => exact nothing (isSkipped_eq_true_iff.mpr (.inr ⟨text, comment⟩))
  | quad q short same formed =>
    have read : ofBytes (content line) = .ok q.trimmed := ofBytes_content.mpr ⟨q, formed, same, rfl⟩
    have kept : isSkipped (content line) = false := same ▸ q.isSkipped_bytes
    rw [ofLines, if_neg (Nat.not_le.mpr short)]
    simp only [content] at read kept
    simp only [read, kept, inContext]
    cases ofLines (number + 1) rest <;> rfl

/-- The failure that a line of the wrong form gives. -/
inductive Refusal (number : Nat) (line : Bytes) : Error → Prop
  | tooLong : lineLimit ≤ line.length → Refusal number line ⟨[.scan], .lineTooLong⟩
  | badQuad (c : Cause) : line.length < lineLimit → c.kind = .badQuad → Refusal number line ⟨[.line number], c⟩

/-- A line has the right form if it is short and either skipped or read as a quad. -/
theorem exists_line_iff {line : Bytes} :
    (∃ found, Line line found) ↔
      line.length < lineLimit ∧ (isSkipped (content line) = true ∨ ∃ q, ofBytes (content line) = .ok q) := by
  constructor
  · rintro ⟨found, form⟩
    refine ⟨form.short, ?_⟩
    cases form with
    | empty _ blank => exact .inl (isSkipped_eq_true_iff.mpr (.inl blank))
    | comment text _ comment => exact .inl (isSkipped_eq_true_iff.mpr (.inr ⟨text, comment⟩))
    | quad q _ same formed => exact .inr ⟨_, ofBytes_content.mpr ⟨q, formed, same, rfl⟩⟩
  · rintro ⟨short, skipped | ⟨q, read⟩⟩
    · rcases isSkipped_eq_true_iff.mp skipped with blank | ⟨text, comment⟩
      · exact ⟨none, .empty short blank⟩
      · exact ⟨none, .comment text short comment⟩
    · obtain ⟨r, formed, same, rfl⟩ := ofBytes_content.mp read
      exact ⟨_, .quad r short same formed⟩

theorem ofLines_refuses {line : Bytes} (wrong : ¬ ∃ found, Line line found) (number : Nat)
    (rest : List Bytes) : ∃ e, ofLines number (line :: rest) = .error e ∧ Refusal number line e := by
  by_cases long : lineLimit ≤ line.length
  · refine ⟨_, ?_, .tooLong long⟩
    rw [ofLines, if_pos long]
    rfl
  · have short := Nat.lt_of_not_le long
    have kept : isSkipped (content line) = false := by
      rw [Bool.eq_false_iff]
      exact fun skipped => wrong (exists_line_iff.mpr ⟨short, .inl skipped⟩)
    cases read : ofBytes (content line) with
    | ok q => exact absurd (exists_line_iff.mpr ⟨short, .inr ⟨q, read⟩⟩) wrong
    | error e =>
      obtain ⟨kind, contexts⟩ := ofBytes_error read
      refine ⟨⟨[.line number], e.cause⟩, ?_, .badQuad e.cause short kind⟩
      rw [ofLines, if_neg long]
      simp only [content] at read kept
      simp only [read, kept, inContext, Error.within, contexts]
      rfl

theorem ofLines_append {lines : List Bytes} {found : List (Option Raw)} (forms : List.Forall₂ Line lines found)
    (number : Nat) (rest : List Bytes) :
    ofLines number (lines ++ rest) =
      (ofLines (number + lines.length) rest).map (found.reduceOption ++ ·) := by
  induction forms generalizing number with
  | nil =>
    rw [List.nil_append, List.length_nil, Nat.add_zero]
    cases ofLines number rest <;> rfl
  | @cons line o lines found form forms ih =>
    rw [List.cons_append, ofLines_cons form, ih, List.length_cons, Nat.add_right_comm, ← Nat.add_assoc]
    cases ofLines (number + lines.length + 1) rest with
    | error e => rfl
    | ok qs => cases o <;> simp [Except.map]

/-- Lines of the right form are read, and what is found on them stays in order. -/
theorem ofLines_of_forms {lines : List Bytes} {found : List (Option Raw)}
    (forms : List.Forall₂ Line lines found) (number : Nat) : ofLines number lines = .ok found.reduceOption := by
  have read := ofLines_append forms number []
  rw [List.append_nil] at read
  rw [read]
  simp [ofLines, Except.map]

/-- Either every line has the right form, or there is a first one that does not. -/
theorem forms_or_first_wrong (lines : List Bytes) :
    (∃ found, List.Forall₂ Line lines found) ∨
      ∃ before line after found, lines = before ++ line :: after ∧ List.Forall₂ Line before found ∧
        ¬ ∃ found, Line line found := by
  induction lines with
  | nil => exact .inl ⟨[], .nil⟩
  | cons line lines ih =>
    by_cases right : ∃ found, Line line found
    · obtain ⟨o, form⟩ := right
      rcases ih with ⟨found, forms⟩ | ⟨before, wrong, after, found, rfl, forms, unread⟩
      · exact .inl ⟨o :: found, .cons form forms⟩
      · exact .inr ⟨line :: before, wrong, after, o :: found, rfl, .cons form forms, unread⟩
    · exact .inr ⟨[], line, lines, [], rfl, .nil, right⟩

/-! Code -/

theorem codeOfBytes_of_forms {text : Bytes} {found : List (Option Raw)}
    (forms : List.Forall₂ Line (text.splitOn newline) found) :
    codeOfBytes text = .ok (numbered found.reduceOption) := by
  rw [codeOfBytes, ofLines_of_forms forms]
  rfl

theorem codeOfBytes_refuses {text : Bytes} {before after : List Bytes} {line : Bytes}
    {found : List (Option Raw)} (split : text.splitOn newline = before ++ line :: after)
    (forms : List.Forall₂ Line before found) (wrong : ¬ ∃ found, Line line found) :
    ∃ e, codeOfBytes text = .error e ∧ Refusal (before.length + 1) line e := by
  obtain ⟨e, failed, refusal⟩ := ofLines_refuses wrong (1 + before.length) after
  refine ⟨e, ?_, Nat.add_comm 1 before.length ▸ refusal⟩
  rw [codeOfBytes, split, ofLines_append forms, failed]
  rfl

/-- Code is read from lines of the right form and from nothing else. -/
theorem codeOfBytes_eq_ok_iff {text : Bytes} {code : List Raw} :
    codeOfBytes text = .ok code ↔
      ∃ found, List.Forall₂ Line (text.splitOn newline) found ∧ code = numbered found.reduceOption := by
  constructor
  · intro read
    rcases forms_or_first_wrong (text.splitOn newline) with ⟨found, forms⟩ | ⟨_, _, _, _, split, forms, wrong⟩
    · rw [codeOfBytes_of_forms forms] at read
      exact ⟨found, forms, (Except.ok.inj read).symm⟩
    · obtain ⟨e, failed, _⟩ := codeOfBytes_refuses split forms wrong
      rw [failed] at read
      contradiction
  · rintro ⟨found, forms, rfl⟩
    exact codeOfBytes_of_forms forms

theorem exists_forms_iff {lines : List Bytes} :
    (∃ found, List.Forall₂ Line lines found) ↔ ∀ line ∈ lines, ∃ o, Line line o := by
  constructor
  · rintro ⟨found, forms⟩
    induction forms with
    | nil => simp
    | cons form _ ih => exact List.forall_mem_cons.mpr ⟨⟨_, form⟩, ih⟩
  · intro each
    rcases forms_or_first_wrong lines with forms | ⟨before, line, after, _, rfl, _, wrong⟩
    · exact forms
    · exact absurd (each line (by simp)) wrong

/-! Printing -/

theorem Raw.content_bytes (q : Raw) : content q.bytes = q.bytes := by
  have last : q.bytes.getLast? ≠ some carriage := by
    rw [bytes_eq, ← List.cons_append, List.getLast?_append]
    simp [closing, carriage]
  rw [content, withoutReturn, if_neg last, q.trim_bytes]

/-- What is read from a line can be printed on a line and read again. -/
theorem Line.printed {line : Bytes} {q : Raw} (form : Line line (some q)) (clean : newline ∉ line) :
    newline ∉ q.bytes ∧ Line q.bytes (some q) := by
  cases form with
  | quad r short same formed =>
    have kept : r.trimmed.bytes ⊆ line := by
      intro b inside
      exact (content_inside line).subset (same ▸ r.bytes_trimmed_subset inside)
    have length : r.trimmed.bytes.length ≤ line.length := by
      calc r.trimmed.bytes.length ≤ r.bytes.length := r.length_bytes_trimmed
        _ = (content line).length := by rw [same]
        _ ≤ line.length := (content_inside line).length_le
    have canonical := formed.canonical
    constructor
    · exact fun inside => clean (kept inside)
    · have again := Line.quad r.trimmed (Nat.lt_of_le_of_lt length short) r.trimmed.content_bytes canonical.formed
      rw [canonical.trimmed_eq] at again
      exact again

theorem printed_of_forms {lines : List Bytes} {found : List (Option Raw)} (forms : List.Forall₂ Line lines found)
    (clean : ∀ line ∈ lines, newline ∉ line) :
    ∀ q ∈ found.reduceOption, newline ∉ q.bytes ∧ Line q.bytes (some q) := by
  induction forms with
  | nil => simp
  | @cons line o lines found form forms ih =>
    obtain ⟨here, others⟩ := List.forall_mem_cons.mp clean
    cases o with
    | none => simpa using ih others
    | some q =>
      rw [List.reduceOption_cons_of_some]
      exact List.forall_mem_cons.mpr ⟨form.printed here, ih others⟩

theorem map_bytes_numbered (qs : List Raw) : (numbered qs).map Raw.bytes = qs.map Raw.bytes := by
  apply List.ext_getElem?
  intro i
  rw [numbered, List.getElem?_map, List.getElem?_mapIdx, List.getElem?_map]
  cases qs[i]? <;> rfl

theorem codeOfBytes_printed {text : Bytes} {code : List Raw} (read : codeOfBytes text = .ok code) :
    codeOfBytes ([newline].intercalate (code.map Raw.bytes)) = .ok code := by
  obtain ⟨found, forms, rfl⟩ := codeOfBytes_eq_ok_iff.mp read
  have printed := printed_of_forms forms fun line inside => Text.not_mem_of_mem_splitOn inside
  rw [map_bytes_numbered]
  generalize found.reduceOption = qs at printed
  by_cases none : qs = []
  · subst none
    rfl
  · have split : ([newline].intercalate (qs.map Raw.bytes)).splitOn newline = qs.map Raw.bytes := by
      apply List.splitOn_intercalate
      · intro line inside
        obtain ⟨r, known, rfl⟩ := List.mem_map.mp inside
        exact (printed r known).1
      · simpa using none
    have forms : List.Forall₂ Line (qs.map Raw.bytes) (qs.map some) := by
      rw [List.forall₂_map_left_iff, List.forall₂_map_right_iff, List.forall₂_same]
      exact fun q known => (printed q known).2
    have again := codeOfBytes_of_forms (split ▸ forms)
    simpa [List.reduceOption] using again

/-! Text -/

/-- The quad with the bytes of its fields. -/
def raw (q : Quad) : Raw :=
  { op := Text.bytesOf q.op, arg1 := Text.bytesOf q.arg1, arg2 := Text.bytesOf q.arg2, res := Text.bytesOf q.res,
    index := q.index }

theorem quad_raw (q : Quad) : q.raw.quad = q := by
  simp only [raw, Raw.quad, Text.textOf_bytesOf]

theorem Raw.raw_quad {q : Raw} (encoded : ∀ f ∈ q.fields, Text.Encoded f) : q.quad.raw = q := by
  simp only [fields, List.forall_mem_cons] at encoded
  obtain ⟨op, arg1, arg2, res, _⟩ := encoded
  rw [raw, quad, op.bytesOf_textOf, arg1.bytesOf_textOf, arg2.bytesOf_textOf, res.bytesOf_textOf]

theorem Raw.Formed.encoded {q : Raw} (formed : q.Formed) (encoded : Text.Encoded q.bytes) :
    ∀ f ∈ q.trimmed.fields, Text.Encoded f := by
  have inner : Text.Encoded ([comma].intercalate q.fields) := by
    rw [Raw.bytes_eq] at encoded
    have front : Text.Encoded (String.utf8EncodeChar '(' ++ ([comma].intercalate q.fields ++ [closing])) := encoded
    exact Text.Encoded.of_append_encode (c := ')') front.of_encode_append
  intro f inside
  rw [Raw.fields_trimmed, List.mem_map] at inside
  obtain ⟨g, known, rfl⟩ := inside
  apply Text.Encoded.trim
  apply inner.of_mem_splitOn (c := ',') (b := comma) rfl (by decide)
  rwa [List.splitOn_intercalate comma formed.commas (by simp [Raw.fields])]

theorem encoded_of_ofBytes {s : Bytes} {q : Raw} (encoded : Text.Encoded s) (read : ofBytes s = .ok q) :
    ∀ f ∈ q.fields, Text.Encoded f := by
  obtain ⟨r, formed, same, rfl⟩ := ofBytes_eq_ok_iff.mp read
  exact formed.encoded (same ▸ encoded.trim)

theorem content_encoded {line : Bytes} (encoded : Text.Encoded line) : Text.Encoded (content line) := by
  apply Text.Encoded.trim
  unfold withoutReturn
  split
  · rename_i last
    have whole := List.dropLast_append_getLast? carriage last
    rw [← whole] at encoded
    exact Text.Encoded.of_append_encode (c := '\x0d') encoded
  · exact encoded

theorem encoded_of_forms {lines : List Bytes} {found : List (Option Raw)} (forms : List.Forall₂ Line lines found)
    (encoded : ∀ line ∈ lines, Text.Encoded line) :
    ∀ q ∈ found.reduceOption, ∀ f ∈ q.fields, Text.Encoded f := by
  induction forms with
  | nil => simp
  | cons form forms ih =>
    obtain ⟨here, others⟩ := List.forall_mem_cons.mp encoded
    cases form with
    | empty | comment => simpa using ih others
    | quad q short same formed =>
      rw [List.reduceOption_cons_of_some]
      exact List.forall_mem_cons.mpr ⟨formed.encoded (same ▸ content_encoded here), ih others⟩

theorem encoded_of_codeOfBytes {text : Bytes} {code : List Raw} (encoded : Text.Encoded text)
    (read : codeOfBytes text = .ok code) : ∀ q ∈ code, ∀ f ∈ q.fields, Text.Encoded f := by
  obtain ⟨found, forms, rfl⟩ := codeOfBytes_eq_ok_iff.mp read
  have fields := encoded_of_forms forms fun line inside =>
    encoded.of_mem_splitOn (c := '\n') (b := newline) rfl (by decide) inside
  intro q inside
  obtain ⟨i, bound, rfl⟩ := List.mem_mapIdx.mp inside
  exact fields found.reduceOption[i] (List.getElem_mem bound)

theorem ofText_eq_ok_iff {s : String} {q : Quad} :
    ofText s = .ok q ↔ ofBytes (Text.bytesOf s) = .ok q.raw := by
  rw [ofText]
  constructor
  · intro read
    cases found : ofBytes (Text.bytesOf s) with
    | error e =>
      rw [found] at read
      contradiction
    | ok r =>
      rw [found] at read
      cases Except.ok.inj read
      rw [Raw.raw_quad (encoded_of_ofBytes (Text.bytesOf_encoded s) found)]
  · intro read
    rw [read]
    exact congrArg Except.ok (quad_raw q)

/-- The code of a text is the code of its bytes. -/
theorem codeOfText_eq_ok_iff {s : String} {code : List Quad} :
    codeOfText s = .ok code ↔ codeOfBytes (Text.bytesOf s) = .ok (code.map raw) := by
  rw [codeOfText]
  constructor
  · intro read
    cases found : codeOfBytes (Text.bytesOf s) with
    | error e =>
      rw [found] at read
      contradiction
    | ok rs =>
      rw [found] at read
      cases Except.ok.inj read
      have encoded := encoded_of_codeOfBytes (Text.bytesOf_encoded s) found
      have same : rs.map (raw ∘ Raw.quad) = rs.map id :=
        List.map_congr_left fun r known => Raw.raw_quad (encoded r known)
      rw [List.map_map, same, List.map_id]
  · intro read
    rw [read]
    simp [Except.map, Function.comp_def, quad_raw]

/-- Code is read exactly from lines of the right form, whatever the bytes. Its quads stand in order with
their positions, the first line of another form is reported with its number, and printing is undone. Quads
and code that are read from a text have the bytes that are read from the bytes of the text. -/
theorem reading_exact :
    (∀ text : Bytes,
      ((∃ code, codeOfBytes text = .ok code) ↔ ∀ line ∈ text.splitOn newline, ∃ found, Line line found) ∧
      (∀ code, codeOfBytes text = .ok code ↔
        ∃ found, List.Forall₂ Line (text.splitOn newline) found ∧ code = numbered found.reduceOption) ∧
      (∀ before line after, text.splitOn newline = before ++ line :: after →
        (∀ earlier ∈ before, ∃ found, Line earlier found) → (¬ ∃ found, Line line found) →
        ∃ e, codeOfBytes text = .error e ∧ Refusal (before.length + 1) line e) ∧
      (∀ code, codeOfBytes text = .ok code →
        codeOfBytes ([newline].intercalate (code.map Raw.bytes)) = .ok code)) ∧
    (∀ q : Raw, q.Canonical → ofBytes q.bytes = .ok { q with index := 0 }) ∧
    (∀ (s : String) (q : Quad), ofText s = .ok q ↔ ofBytes (Text.bytesOf s) = .ok q.raw) ∧
    (∀ (s : String) (code : List Quad),
      codeOfText s = .ok code ↔ codeOfBytes (Text.bytesOf s) = .ok (code.map raw)) := by
  refine ⟨fun text => ⟨?_, ?_, ?_, ?_⟩, ?_, ?_, ?_⟩
  · rw [← exists_forms_iff]
    constructor
    · rintro ⟨code, read⟩
      obtain ⟨found, forms, _⟩ := codeOfBytes_eq_ok_iff.mp read
      exact ⟨found, forms⟩
    · rintro ⟨found, forms⟩
      exact ⟨_, codeOfBytes_of_forms forms⟩
  · exact fun code => codeOfBytes_eq_ok_iff
  · intro before line after split earlier wrong
    obtain ⟨found, forms⟩ := exists_forms_iff.mpr earlier
    exact codeOfBytes_refuses split forms wrong
  · exact fun code => codeOfBytes_printed
  · exact fun q canonical => canonical.ofBytes_bytes
  · exact fun s q => ofText_eq_ok_iff
  · exact fun s code => codeOfText_eq_ok_iff

/-- A comment, a quad with blanks around its fields, an empty line and a plain quad. -/
def spacedText : Bytes := Text.bytesOf "# sum\x0d\n\t( + , a ,\u00a01 , t(1) )\x0d\n\n(=,t(1),,x)"

def spacedCode : List Raw :=
  [{ op := [0x2b], arg1 := [0x61], arg2 := [0x31], res := [0x74, 0x28, 0x31, 0x29] },
    { op := [0x3d], arg1 := [0x74, 0x28, 0x31, 0x29], res := [0x78], index := 1 }]

/-- A line with three fields behind a comment and a quad. -/
def threeFields : Bytes := Text.bytesOf "(=,1,x)"

theorem reading_exact_spaced :
    (codeOfBytes spacedText = .ok spacedCode ∧
      codeOfBytes ([newline].intercalate (spacedCode.map Raw.bytes)) = .ok spacedCode) ∧
    ((¬ ∃ found, Line threeFields found) ∧
      ∃ e, codeOfBytes ([newline].intercalate [[hash], [], threeFields]) = .error e ∧ Refusal 3 threeFields e) ∧
    ∀ q ∈ spacedCode, q.Canonical ∧ ofBytes q.bytes = .ok { q with index := 0 } := by
  have read : codeOfBytes spacedText = .ok spacedCode := by decide +kernel
  have wrong : ¬ ∃ found, Line threeFields found := by
    rw [exists_line_iff]
    rintro ⟨_, skipped | ⟨q, read⟩⟩
    · exact absurd skipped (by decide +kernel)
    · have failed : ofBytes (content threeFields) = .error ⟨[], .wantFourFields threeFields 3⟩ := by decide +kernel
      rw [failed] at read
      cases read
  have earlier : ∀ line ∈ [[hash], []], ∃ found, Line line found := by
    rw [List.forall_mem_cons, List.forall_mem_singleton, exists_line_iff, exists_line_iff]
    exact ⟨⟨by decide, .inl (by decide +kernel)⟩, ⟨by decide, .inl (by decide +kernel)⟩⟩
  have canonical : ∀ q ∈ spacedCode, q.Canonical := by
    rw [spacedCode, List.forall_mem_cons, List.forall_mem_singleton]
    exact ⟨⟨by decide +kernel, by decide +kernel, by decide⟩, ⟨by decide +kernel, by decide +kernel, by decide⟩⟩
  refine ⟨⟨read, (reading_exact.1 spacedText).2.2.2 spacedCode read⟩, ⟨wrong, ?_⟩, ?_⟩
  · exact (reading_exact.1 _).2.2.1 [[hash], []] threeFields [] (by decide +kernel) earlier wrong
  · exact fun q inside => ⟨canonical q inside, reading_exact.2.1 q (canonical q inside)⟩

end Quad

end ThreeAddress
