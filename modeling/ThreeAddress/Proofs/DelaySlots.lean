import ThreeAddress.Proofs.Coupling

/-! Delay slots. With them and without them compilation takes the same decisions, and the listings are
the same but for the empty instructions in the slots. -/
namespace ThreeAddress

namespace Asm

/-- The delay slots behind an instruction: two behind a load and one behind a jump. -/
def Instr.slots : Instr → Nat
  | .lw _ _ => 2
  | .beq _ _ _ | .bne _ _ _ | .j _ | .jal _ | .jr _ => 1
  | _ => 0

theorem Instr.slots_of_isJump {i : Instr} (jump : i.isJump = true) : i.slots = 1 := by
  cases i <;> first | rfl | contradiction

/-- A line and empty instructions in the delay slots behind it. -/
def Line.filled : Line → List Line
  | .instr i => .instr i :: List.replicate i.slots (.instr .nop)
  | l => [l]

theorem Line.filled_of_isFixed {l : Line} (fixed : l.isFixed = true) : l.filled = [l] := by
  cases l with
  | instr i => cases i <;> first | rfl | contradiction
  | _ => rfl

theorem Line.ne_nop_of_isFixed {l : Line} (fixed : l.isFixed = true) : l ≠ .instr .nop := by
  rintro rfl
  contradiction

/-- Every other instruction has a blank in its text, and every other line a blank, colon or dot. -/
theorem Line.text_eq_nop_iff {l : Line} : l.text = "nop" ↔ l = .instr .nop := by
  have blank (mnemonic : String) (operands : List String) : spell mnemonic operands ≠ "nop" := by
    intro same
    have member : ' ' ∈ (spell mnemonic operands).toList := by simp [spell]
    rw [same] at member
    contradiction
  have colon (start rest : String) (inside : ':' ∈ rest.toList) : start ++ rest ≠ "nop" := by
    intro same
    have member : ':' ∈ (start ++ rest).toList := by simp [inside]
    rw [same] at member
    contradiction
  constructor
  · intro same
    cases l with
    | dataSection => simp [text] at same
    | textSection => simp [text] at same
    | word name => exact absurd same (colon _ _ (by decide))
    | space name bytes =>
      have member : ':' ∈ (Line.space name bytes).text.toList := by simp [text]
      rw [same] at member
      contradiction
    | label name => exact absurd same (colon _ _ (by decide))
    | instr i =>
      cases i with
      | nop => rfl
      | _ => exact absurd same (blank _ _)
  · rintro rfl
    rfl

theorem filter_filled {ls : List Line} (none : Line.instr .nop ∉ ls) :
    (ls.flatMap Line.filled).filter (· ≠ .instr .nop) = ls := by
  induction ls with
  | nil => rfl
  | cons l ls ih =>
    simp only [List.mem_cons, not_or] at none
    have first : l.filled.filter (· ≠ .instr .nop) = [l] := by
      cases l with
      | instr i =>
        rw [Line.filled, List.filter_cons_of_pos (by simpa using Ne.symm none.1), List.filter_replicate]
        simp
      | _ => simp [Line.filled]
    rw [List.flatMap_cons, List.filter_append, first, ih none.2]
    rfl

end Asm

namespace Codegen

open Asm (Line Listing)

/-- A generator that fills delay slots beside one that does not. -/
def filledBesideBare : Coupling :=
  .joint (fun o p => p.lines.toList = o.lines.toList.flatMap Line.filled ∧ .instr .nop ∉ o.lines.toList ∧
    p.warnings = o.warnings) <| by
  rintro o p l fixed ⟨lines, none, warnings⟩
  refine ⟨?_, ?_, warnings⟩
  · simp [Output.push, lines, Line.filled_of_isFixed fixed]
  · simp [Output.push, none, Ne.symm (Line.ne_nop_of_isFixed fixed)]

/-- An instruction and its delay slots. -/
theorem filledBesideBare_append {o p : Output} {i : Asm.Instr} (related : filledBesideBare.related o p)
    (real : i ≠ .nop) :
    filledBesideBare.related (o.append [i]) (p.append (i :: List.replicate i.slots .nop)) := by
  obtain ⟨lines, none, warnings⟩ := related
  refine ⟨?_, ?_, ?_⟩
  · simp [Output.lines_append, lines, Line.filled]
  · simp [Output.lines_append, none, Ne.symm real]
  · simpa using warnings

section Sites

variable {options : Options} {table : Scope} {frames : List Frame.Layout} {n : Nat} {rest : List Quad}

theorem filledBesideBare_writes :
    filledBesideBare.Writes ⟨{ options with delaySlots := false }, table, frames, n, rest⟩
      ⟨{ options with delaySlots := true }, table, frames, n, rest⟩ where
  load := fun o p dst mem related => filledBesideBare_append related (by simp)
  jump := by
    intro o p i jump related
    have real : i ≠ .nop := by
      rintro rfl
      contradiction
    have filled := filledBesideBare_append related real
    rw [Asm.Instr.slots_of_isJump jump] at filled
    exact filled

theorem filledBesideBare_unresolved (c : Cause) :
    filledBesideBare.Follows (unresolved ⟨{ options with delaySlots := false }, table, frames, n, rest⟩ c)
      (unresolved ⟨{ options with delaySlots := true }, table, frames, n, rest⟩ c) := by
  apply Coupling.Follows.ite (.fails c)
  constructor
  · rintro b o ⟨lines, none, warnings⟩
    exact .inr ⟨o.warn _, ⟨lines, none, by simp [Output.warn, warnings]⟩, rfl⟩
  · exact fun _ _ _ stray => stray.elim

/-- Nothing that the generator decides depends on delay slots. -/
theorem filledBesideBare_meets (x : Instr) (st : State) :
    filledBesideBare.Meets ⟨{ options with delaySlots := false }, table, frames, n, rest⟩
      ⟨{ options with delaySlots := true }, table, frames, n, rest⟩ x st where
  table := rfl
  entry := rfl
  frame := fun _ _ _ _ => rfl
  writes := filledBesideBare_writes
  joins := fun _ _ _ =>
    { filledBesideBare_writes with
      table := rfl
      flushEach := rfl
      ahead := fun _ => rfl
      framed := fun _ => Iff.rfl
      unresolved := filledBesideBare_unresolved }

end Sites

theorem header_filled (table : Scope) :
    (header table).flatMap Line.filled = header table ∧ Line.instr .nop ∉ header table := by
  have fixed : ∀ l ∈ header table, l.isFixed = true := by
    intro l member
    simp only [header, List.mem_append, List.mem_cons, List.mem_map, List.not_mem_nil, or_false] at member
    rcases member with (rfl | ⟨s, _, rfl⟩) | rfl
    · rfl
    · split <;> rfl
    · rfl
  constructor
  · calc (header table).flatMap Line.filled
      _ = ((header table).map Line.filled).flatten := List.flatMap_def
      _ = ((header table).map fun l => [l]).flatten :=
        congrArg List.flatten (List.map_congr_left fun l member => Line.filled_of_isFixed (fixed l member))
      _ = header table := List.flatMap_singleton' _
  · exact fun member => Line.ne_nop_of_isFixed (fixed _ member) rfl

/-- How a listing with delay slots compares to the one without: the frames and the warnings are the same, and
so are the lines once the empty instructions are deleted, of which the other listing has none. They are the
ones that fill the slots behind loads and jumps, and no others. -/
structure Fills (bare filled : Listing) : Prop where
  frames : filled.frames = bare.frames
  warnings : filled.warnings = bare.warnings
  deleted : filled.lineTexts.filter (· ≠ "nop") = bare.lineTexts
  none : "nop" ∉ bare.lineTexts
  exact : filled.lines = bare.lines.flatMap Line.filled

theorem fills_of_related {o p : Output} (frames : List Frame.Layout) (related : filledBesideBare.related o p) :
    Fills ⟨o.lines.toList, frames, o.warnings.toList⟩ ⟨p.lines.toList, frames, p.warnings.toList⟩ := by
  obtain ⟨lines, none, warnings⟩ := related
  refine ⟨rfl, congrArg Array.toList warnings, ?_, ?_, lines⟩
  · have texts : (fun l : Line => decide (l.text ≠ "nop")) = fun l => decide (l ≠ .instr .nop) := by
      funext l
      simp only [ne_eq, Line.text_eq_nop_iff]
    simp only [Listing.lineTexts, List.filter_map, Function.comp_def]
    rw [texts, lines, Asm.filter_filled none]
  · intro member
    obtain ⟨l, member, text⟩ := List.mem_map.mp member
    cases Line.text_eq_nop_iff.mp text
    exact none member

/-- Delay slots only add empty instructions. -/
theorem compile_fills_slots (options : Options) (table : Scope) (code : List Quad) :
    match compile { options with delaySlots := false } table code,
      compile { options with delaySlots := true } table code with
    | .ok bare, .ok filled => Fills bare filled
    | .error e, .error e' => e' = e
    | _, _ => False := by
  have start : filledBesideBare.related { lines := (header table).toArray }
      { lines := (header table).toArray } := by
    obtain ⟨lines, none⟩ := header_filled table
    exact ⟨lines.symm, none, rfl⟩
  have meets (n : Nat) (rest : List Quad) (x : Instr) (st : State) :
      filledBesideBare.Meets
        ⟨{ options with delaySlots := false }, table, Frame.plan options table code, n, rest⟩
        ⟨{ options with delaySlots := true }, table, Frame.plan options table code, n, rest⟩ x st :=
    filledBesideBare_meets x st
  cases compiled : compile { options with delaySlots := false } table code with
  | error e => rw [compile_fails_follows trivial start meets compiled]
  | ok bare =>
    obtain ⟨o, rfl, impossible | ⟨p, related, filled⟩⟩ := compile_follows start meets compiled
    · exact impossible.elim
    · rw [filled]
      exact fills_of_related _ related

end Codegen

end ThreeAddress
