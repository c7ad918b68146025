import ThreeAddress.Proofs.Capacity
import ThreeAddress.Proofs.WriteBack

/-! How procedures end. Behind a return nothing is in a register, and nothing is left to do at the exit;
otherwise the exit writes variables back and returns. -/
namespace ThreeAddress

def Instr.isReturn : Instr → Bool
  | .ret _ => true
  | _ => false

/-- The last instruction that does something is a return. -/
def Instr.endInReturn (xs : List Instr) : Bool := (xs.filter (· ≠ .nop)).getLast?.any isReturn

theorem Instr.endInReturn_nop (xs : List Instr) : endInReturn (xs ++ [.nop]) = endInReturn xs := by
  simp [endInReturn]

theorem Instr.endInReturn_real {x : Instr} (xs : List Instr) (real : x ≠ .nop) :
    endInReturn (xs ++ [x]) = x.isReturn := by
  simp [endInReturn, real]

namespace Codegen

open Asm (Line Mem Listing)

variable {options : Options} {table : Scope} {site : Site} {b c : Body} {x : Instr} {front : List Line}
  {xs : List Instr}

/-! One instruction -/

theorem Keep.returned {r : Reg} {is : List Asm.Instr} (keep : Keep site r b is c) : c.returned = b.returned := by
  cases keep with
  | skip => rfl
  | register => rfl
  | word _ _ _ _ spared => cases spared <;> rfl

theorem KeepAll.returned {rs : List Reg} {is : List Asm.Instr} (keeps : KeepAll site rs b is c) :
    c.returned = b.returned := by
  induction keeps with
  | nil => rfl
  | cons keep _ ih => exact ih.trans keep.returned

/-- A return is marked, and no other instruction is. -/
theorem lower_returned (consistent : Consistent b.store) (running : b.returned = false)
    (ran : lower site x b = .ok ((), c)) : c.returned = x.isReturn := by
  have plain (other : ∀ f res, x ≠ .call f res) (stays : ∀ y, x ≠ .ret y) : c.returned = false :=
    ((lower_marks consistent other ran).2 stays).trans running
  cases x with
  | ret y =>
    obtain ⟨_, _, _, _, _, _, rfl⟩ := ret_ok consistent.sound ran
    rfl
  | call function res =>
    obtain ⟨_, _, _, _, _, _, _, _, called, _⟩ := call_ok consistent ran
    exact called.after.returned.trans (called.kept.returned.trans (called.before.returned.trans running))
  | _ => exact plain (by simp) (by simp)

/-- The generator inside of a procedure that starts behind some lines, when it has done some instructions: if they
end in a return, everything is in memory and the lines end in an epilogue. -/
structure Underway (options : Options) (front : List Line) (xs : List Instr) (b : Body) : Prop where
  returned : b.returned = Instr.endInReturn xs
  lines : ∃ ls, b.out.lines.toList = front ++ ls
  ended : b.returned = true → InMemory b.store ∧
    ∃ ls, b.out.lines.toList = front ++ ls ++ (epilogue options b.layout).map Line.instr

theorem ret_underway {y : Option Operand} (consistent : Consistent b.store)
    (lines : ∃ ls, b.out.lines.toList = front ++ ls) (ran : ret site y b = .ok ((), c)) :
    InMemory c.store ∧ ∃ ls, c.out.lines.toList = front ++ ls ++ (epilogue site.options c.layout).map Line.instr := by
  obtain ⟨is, js, b₁, b₂, returned, flushed, rfl⟩ := ret_ok consistent.sound ran
  refine ⟨flushed.inMemory (returned.moves.consistent rfl consistent), ?_⟩
  obtain ⟨ls, lines⟩ := lines
  refine ⟨ls ++ (is ++ js).map Line.instr, ?_⟩
  rw [Output.lines_append, flushed.moves.lines, returned.moves.lines, lines]
  simp

theorem Underway.step (underway : Underway site.options front xs b) (consistent : Consistent b.store)
    (stepped : Stepped site x (.inside b) (.inside c)) : Underway site.options front (xs ++ [x]) c := by
  cases stepped with
  | nop => exact ⟨underway.returned.trans (Instr.endInReturn_nop xs).symm, underway.lines, underway.ended⟩
  | lower real plain lowers =>
    have returned : c.returned = x.isReturn :=
      lower_returned (b := { b with reserved := [], returned := false }) consistent rfl lowers
    refine ⟨returned.trans (Instr.endInReturn_real xs real).symm, ?_, fun marked => ?_⟩
    · obtain ⟨ls, before⟩ := underway.lines
      obtain ⟨is, after⟩ := lower_emits (b := { b with reserved := [], returned := false }) consistent plain lowers
      exact ⟨ls ++ linesOf x is, by rw [after, before, List.append_assoc]⟩
    · cases x with
      | ret y => exact ret_underway (b := { b with reserved := [], returned := false }) consistent underway.lines lowers
      | _ => cases returned.symm.trans marked

/-! The exit -/

/-- What the exit of a procedure adds to the lines: nothing behind a return, else a store for each variable whose
home is stale and one epilogue. -/
structure Exits (options : Options) (xs : List Instr) (b : Body) (after : Output) : Prop where
  returned : Instr.endInReturn xs = true → after = b.out
  falls : Instr.endInReturn xs = false → ∃ stores, WritesBack b.store b.store.live stores ∧
    b.store.live.Nodup ∧ (∀ v e, b.store.get? v = some e → e.dirty = true → v ∈ b.store.live) ∧
    after.lines.toList = b.out.lines.toList ++ (stores ++ epilogue options b.layout).map Line.instr

theorem leave_of_returned (marked : b.returned = true) (inMemory : InMemory b.store) (sound : b.store.Sound) :
    leave site b = .ok ((), b) := by
  refine bind_ok.mpr ⟨(), b, inMemory.flush sound, bind_ok.mpr ⟨b, b, get_ok.mpr ⟨rfl, rfl⟩, ?_⟩⟩
  rw [if_pos marked]
  rfl

theorem leave_writes (running : b.returned = false) (sound : b.store.Sound) (left : leave site b = .ok ((), c)) :
    ∃ stores, WritesBack b.store b.store.live stores ∧
      c.out.lines.toList = b.out.lines.toList ++ (stores ++ epilogue site.options b.layout).map Line.instr := by
  simp only [leave, bind_ok, get_ok] at left
  obtain ⟨_, b₁, flushes, _, _, ⟨rfl, rfl⟩, left⟩ := left
  obtain ⟨_, flushed⟩ : ∃ is, Flushed site b is b₁ := flush_flushed sound flushes
  have same := flushed.moves.sameProcedure
  obtain ⟨_, d, wrote, cleared⟩ := bind_ok.mp flushes
  obtain rfl := modifyStore_ok.mp cleared
  obtain ⟨stores, writes, out⟩ := writeBack_writes sound wrote
  have running : ¬ d.returned = true := by simp [show d.returned = b.returned from same.returned, running]
  rw [if_neg running] at left
  obtain rfl := emitAll_ok.mp left
  refine ⟨stores, writes, ?_⟩
  rw [Output.lines_append, show d.layout = b.layout from same.layout, out, Output.lines_append]
  simp

theorem Underway.exit (underway : Underway site.options front xs b) (sound : b.store.Sound)
    (left : leave site b = .ok ((), c)) : Exits site.options xs b c.out ∧
      ∃ ls, c.out.lines.toList = front ++ ls ++ (epilogue site.options b.layout).map Line.instr := by
  cases marked : b.returned with
  | true =>
    obtain ⟨inMemory, lines⟩ := underway.ended marked
    have stays : leave site b = .ok ((), b) := leave_of_returned marked inMemory sound
    cases Except.ok.inj (left.symm.trans stays)
    refine ⟨⟨fun _ => rfl, fun running => ?_⟩, lines⟩
    rw [← underway.returned, marked] at running
    cases running
  | false =>
    obtain ⟨stores, writes, lines⟩ := leave_writes marked sound left
    obtain ⟨ls, before⟩ := underway.lines
    have distinct : b.store.live.Nodup := b.store.live_ascending.imp Nat.ne_of_lt
    refine ⟨⟨fun returned => ?_, fun _ => ⟨stores, writes, distinct, fun v e entry dirty => ?_, lines⟩⟩,
      ls ++ stores.map Line.instr, ?_⟩
    · rw [← underway.returned, marked] at returned
      cases returned
    · obtain ⟨_, r, inside⟩ := Descriptor.Entry.dirty_iff.mp dirty
      exact Descriptor.Store.mem_live.mpr ⟨e, sound.known_of_reg entry inside⟩
    · rw [lines, before]
      simp

/-! Whole procedures -/

section Runs

variable {code : List Quad} {instrs : List Instr} {n : Nat} {out : Output}

/-- The rest of a procedure, from a position on where some instructions are done: up to its exit stand the
instructions of the body, and the lines behind it end in an epilogue. -/
structure Concludes (options : Options) (table : Scope) (code : List Quad) (name : String) (l : Frame.Layout)
    (front : List Line) (done : List Instr) (n : Nat) (ahead body : List Instr) (b : Body) (after : Output) :
    Prop where
  split : ∃ label rest, ahead = body ++ .label ⟨label, .exit name⟩ :: rest
  inner : ∀ x ∈ body, ∀ l, x = .label l → l.boundary = .plain
  before : stateAt options table code (n + body.length) = .ok (.inside b)
  behind : stateAt options table code (n + body.length + 1) = .ok (.idle after)
  layout : b.layout = l
  exits : Exits options (done ++ body) b after
  lines : ∃ ls, after.lines.toList = front ++ ls ++ (epilogue options l).map Line.instr

theorem Concludes.cons {name : String} {l : Frame.Layout} {ahead body : List Instr} {after : Output}
    (concludes : Concludes options table code name l front (xs ++ [x]) (n + 1) ahead body b after)
    (plain : ∀ l, x = .label l → l.boundary = .plain) :
    Concludes options table code name l front xs n (x :: ahead) (x :: body) b after := by
  have count : n + (x :: body).length = n + 1 + body.length := by
    rw [List.length_cons]
    omega
  obtain ⟨label, rest, split⟩ := concludes.split
  refine ⟨⟨label, rest, by rw [split, List.cons_append]⟩, List.forall_mem_cons.mpr ⟨plain, concludes.inner⟩,
    count ▸ concludes.before, count ▸ concludes.behind, concludes.layout, ?_, concludes.lines⟩
  simpa using concludes.exits

/-- From inside of a procedure the generator comes to its exit. -/
theorem exists_concludes (decoded : decodeFrom 0 code = .ok instrs)
    (finished : stateAt options table code instrs.length = .ok (.idle out))
    (reached : stateAt options table code n = .ok (.inside b)) (bound : n ≤ instrs.length)
    (underway : Underway options front xs b) :
    ∃ body c after,
      Concludes options table code b.function.name b.layout front xs n (instrs.drop n) body c after := by
  -- by induction on the instructions that are left: they end outside of a procedure
  induction left : instrs.length - n generalizing n b xs with
  | zero =>
    have last : n = instrs.length := by omega
    rw [last, finished] at reached
    cases Except.ok.inj reached
  | succ k ih =>
    have less : n < instrs.length := by omega
    have found := List.getElem?_eq_getElem less
    have consistent : (State.inside b).Consistent := stateAt_consistent reached
    obtain ⟨st, _, next, _⟩ := stateAt_of_finished decoded finished less
    obtain ⟨_, before, steps⟩ := (stateAt_succ decoded found).mp next
    cases Except.ok.inj (reached.symm.trans before)
    rw [List.drop_eq_getElem_cons less]
    generalize instrs[n] = x at steps
    cases step_stepped steps with
    | nop =>
      have stepped : Stepped (siteAt options table code n) .nop (.inside b) (.inside b) := .nop _
      have underway := Underway.step (by exact underway) consistent stepped
      obtain ⟨body, c, after, concludes⟩ := ih next less underway (by omega)
      exact ⟨_, c, after, concludes.cons (by simp)⟩
    | @exit label b c boundary left =>
      obtain ⟨name, _⟩ := label
      cases boundary
      have underway : Underway (siteAt options table code n).options front xs b := underway
      obtain ⟨exits, lines⟩ := underway.exit consistent.sound left
      refine ⟨[], b, c.out, ⟨name, _, rfl⟩, by simp, reached, next, rfl, ?_, lines⟩
      rw [List.append_nil]
      exact exits
    | @lower _ _ c real plain lowers =>
      have same := lower_frame (b := { b with reserved := [], returned := false }) consistent lowers
      have stepped : Stepped (siteAt options table code n) x (.inside b) (.inside c) := .lower real plain lowers
      have underway := Underway.step (by exact underway) consistent stepped
      obtain ⟨body, d, after, concludes⟩ := ih next less underway (by omega)
      rw [same.function, same.layout] at concludes
      exact ⟨_, d, after, concludes.cons plain⟩

theorem start_underway (options : Options) (out : Output) (f : Symbol) (l : Frame.Layout) :
    Underway options (out.lines.toList ++ [.label f.name]) [] (.start options out f l) := by
  refine ⟨rfl, ⟨(prologue l f.params.length).map Line.instr, ?_⟩, fun marked => ?_⟩
  · rw [start_lines]
    simp
  · cases marked

end Runs

/-- How an epilogue ends. -/
theorem epilogue_ends (options : Options) (l : Frame.Layout) :
    ∃ restores, epilogue options l = restores ++ .jr .ra :: if options.delaySlots then [.nop] else [] :=
  ⟨_, rfl⟩

/-- Control does not fall off the end of a procedure. In a program that compiles every entry of a procedure has an
exit; the lines from the entry to the exit end in an epilogue, which jumps to the return address. If the last
instruction of the body that does something is a return, the exit adds nothing; else it writes variables back and adds
one epilogue. -/
theorem procedures_return (options : Options) (table : Scope) (code : List Quad) (listing : Listing)
    (compiled : compile options table code = .ok listing) :
    ∃ instrs, decodeFrom 0 code = .ok instrs ∧
      ∀ p label f, instrs[p]? = some (.label ⟨label, .entry f⟩) →
      ∃ l front body b after rest, Frame.find listing.frames f = .ok l ∧
        (∃ restores, epilogue options l = restores ++ .jr .ra :: if options.delaySlots then [.nop] else []) ∧
        stateAt options table code p = .ok (.idle front) ∧
        Concludes options table code f l (front.lines.toList ++ [.label f]) [] (p + 1) (instrs.drop (p + 1)) body b
          after ∧
        listing.lines = after.lines.toList ++ rest := by
  obtain ⟨instrs, out, decoded, finished, all⟩ := compile_ok compiled
  refine ⟨instrs, decoded, fun p label f found => ?_⟩
  obtain ⟨less, _⟩ := List.getElem?_eq_some_iff.mp found
  obtain ⟨_, _, next, _⟩ := stateAt_of_finished decoded finished less
  obtain ⟨front, g, l, reached, rfl, _, rfl, frame⟩ := stateAt_entry decoded found next
  obtain ⟨body, c, after, concludes⟩ :=
    exists_concludes decoded finished next less (start_underway options front g l)
  -- the exit is an instruction of the program, so the lines behind it stand at the front of the listing
  obtain ⟨exit, tail, split⟩ := concludes.split
  have count := congrArg List.length split
  rw [List.length_drop, List.length_append, List.length_cons] at count
  obtain ⟨_, rest, behind, more⟩ :=
    stateAt_of_finished (n := p + 1 + body.length + 1) decoded finished (by omega)
  cases Except.ok.inj (behind.symm.trans concludes.behind)
  exact ⟨l, front, body, c, after, rest, compile_frames compiled ▸ frame, epilogue_ends options l, reached,
    concludes, all.trans more⟩

def endingTable : Scope :=
  ⟨[{ name := "x" }, { name := "h", kind := .function }, { name := "f", kind := .function }]⟩

/-- A procedure that ends in a return, and one that falls to its exit with `x` in a register only. -/
def endingCode : List Quad :=
  Quad.numberedFrom 0 [
    { op := "label", arg1 := "func_h" },
    { op := "=", arg1 := "1", res := "x" },
    { op := "return", arg1 := "x" },
    { op := "nop" },
    { op := "label", arg1 := "end_h" },
    { op := "label", arg1 := "func_f" },
    { op := "=", arg1 := "2", res := "x" },
    { op := "nop" },
    { op := "label", arg1 := "end_f" }]

def endingInstrs : List Instr :=
  [.label ⟨"func_h", .entry "h"⟩, .imm 1 "x", .ret (some (.variable "x")), .nop, .label ⟨"end_h", .exit "h"⟩,
    .label ⟨"func_f", .entry "f"⟩, .imm 2 "x", .nop, .label ⟨"end_f", .exit "f"⟩]

theorem decode_ending : decodeFrom 0 endingCode = .ok endingInstrs :=
  eq_ok_of_toOption (by decide +kernel)

theorem procedures_return_ending :
    ∃ listing, compile { delaySlots := true } endingTable endingCode = .ok listing ∧
      (∃ l front body b after rest, Concludes { delaySlots := true } endingTable endingCode "h" l
        (front ++ [.label "h"]) [] 1 (endingInstrs.drop 1) body b after ∧ listing.lines = after.lines.toList ++ rest) ∧
      ∃ l front body b after rest, Concludes { delaySlots := true } endingTable endingCode "f" l
        (front ++ [.label "f"]) [] 6 (endingInstrs.drop 6) body b after ∧
        listing.lines = after.lines.toList ++ rest := by
  have accepted : (compile { delaySlots := true } endingTable endingCode).toOption.isSome = true := by decide +kernel
  obtain ⟨listing, compiled⟩ := Option.isSome_iff_exists.mp accepted
  have compiled := eq_ok_of_toOption compiled
  obtain ⟨instrs, decoded, returns⟩ := procedures_return _ _ _ _ compiled
  cases Except.ok.inj (decode_ending.symm.trans decoded)
  obtain ⟨l, front, body, b, after, rest, _, _, _, concludes, lines⟩ := returns 0 "func_h" "h" rfl
  obtain ⟨l', front', body', b', after', rest', _, _, _, concludes', lines'⟩ := returns 5 "func_f" "f" rfl
  exact ⟨listing, compiled, ⟨l, _, body, b, after, rest, concludes, lines⟩,
    l', _, body', b', after', rest', concludes', lines'⟩

end Codegen

end ThreeAddress
