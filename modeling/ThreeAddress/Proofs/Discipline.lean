import Mathlib.Data.List.Basic
import ThreeAddress.Proofs.CallScan
import ThreeAddress.Proofs.FrameParts
import ThreeAddress.Proofs.Numerals

/-! What a function keeps for its caller. Its code lowers the stack pointer and saves registers where it
starts, and undoes that at each return. Between them nothing changes the stack pointer, the return
address, a register that is not saved, or a word that one is saved in. -/
namespace ThreeAddress

/-! The text of a word on the stack -/

namespace Text

theorem integerText_plain (n : Int) : '(' ∉ (integerText n).toList := by
  have plain (k : Nat) : '(' ∉ digits k := fun member => by
    have digit := isDigit_of_mem_digits member
    contradiction
  cases n with
  | ofNat k => simpa [integerText] using plain k
  | negSucc k => simpa [integerText] using plain (k + 1)

theorem integerText_injective {m n : Int} (same : integerText m = integerText n) : m = n := by
  have read := signed?_integerText m
  rw [same, signed?_integerText] at read
  exact (Option.some.inj read).symm

end Text

theorem MachineReg.eq_sp_of_name {r : MachineReg} (same : r.name = "sp") : r = .sp := by
  have args : ∀ i : Fin 8, (MachineReg.arg i).name ≠ "sp" := by decide
  have pool : ∀ q : Reg, (MachineReg.pool q).name ≠ "sp" := by decide
  cases r with
  | sp => rfl
  | arg i => exact absurd same (args i)
  | pool q => exact absurd same (pool q)
  | zero => exact absurd same (by decide)
  | ra => exact absurd same (by decide)

/-- An operand that reads like a word on the stack is that word. -/
theorem Asm.Mem.eq_of_text {n : Int} {mem : Mem} (global : ∀ name, mem = .global name → '(' ∉ name.toList)
    (indexed : ∀ array, mem ≠ .indexed array .sp) (same : mem.text = (Mem.offset n .sp).text) :
    mem = .offset n .sp := by
  have stack : (Mem.offset n .sp).text.toList = (Text.integerText n).toList ++ '(' :: ['s', 'p', ')'] := by
    simp [text, MachineReg.name]
  have split {front : List Char} {base : MachineReg}
      (same : front ++ '(' :: (base.name.toList ++ [')']) =
        (Text.integerText n).toList ++ '(' :: ['s', 'p', ')']) :
      front = (Text.integerText n).toList ∧ base = .sp := by
    obtain ⟨left, _, right⟩ := (List.append_cons_inj_of_notMem (Text.integerText_plain n)
      (show '(' ∉ ['s', 'p', ')'] by decide)).mp same.symm
    refine ⟨left.symm, MachineReg.eq_sp_of_name (String.toList_inj.mp ?_)⟩
    have right : ['s', 'p'] ++ [')'] = base.name.toList ++ [')'] := right
    exact (List.append_cancel_right right).symm
  have chars := congrArg String.toList same
  rw [stack] at chars
  cases mem with
  | global name =>
    rw [text] at chars
    exact absurd (by simp [chars]) (global name rfl)
  | offset m base =>
    simp only [text, String.toList_append, List.append_assoc] at chars
    obtain ⟨front, rfl⟩ := split chars
    rw [Text.integerText_injective (String.toList_inj.mp front)]
  | indexed array index =>
    simp only [text, String.toList_append, List.append_assoc] at chars
    obtain ⟨_, rfl⟩ := split chars
    exact absurd rfl (indexed array)

namespace Codegen

open Asm (Line Mem Listing)

/-! The convention -/

/-- The word of a part. -/
def Part.word (f : Symbol) (l : Frame.Layout) (p : Part) : Mem := .offset (p.place f l).start .sp

/-- The registers `s0` to `s7`. -/
def savedRegister (k : Fin 8) : MachineReg := .pool (k.natAdd 7)

/-- The registers that a function saves, as many as its frame says, each with its slot. -/
def savedParts (l : Frame.Layout) : List (MachineReg × Part) :=
  ((List.finRange 8).filter fun k => (k.val : Int) < l.savedCount.toInt).map fun k => (savedRegister k, .saved k)

/-- The return address and its slot, where the function calls. -/
def returnPart (l : Frame.Layout) : List (MachineReg × Part) :=
  if l.leaf then [] else [(.ra, .returnAddress)]

def moveStack (l : Frame.Layout) (bytes : Int) : List Asm.Instr :=
  if l.totalWords = 0 then [] else [.aluImm .addi .sp .sp bytes]

/-- What a function does first. -/
def opening (f : Symbol) (l : Frame.Layout) : List Asm.Instr :=
  moveStack l (-(4 * l.totalWords.toInt)) ++
    (returnPart l ++ savedParts l).map fun (r, p) => .sw r (p.word f l)

/-- What it does before it returns. -/
def closing (f : Symbol) (l : Frame.Layout) : List Asm.Instr :=
  ((savedParts l ++ returnPart l).map fun (r, p) => .lw r (p.word f l)) ++
    moveStack l (4 * l.totalWords.toInt)

/-- A slot that holds a register of the caller. -/
def Part.keeps : Part → Bool
  | .saved _ | .returnAddress => true
  | _ => false

/-- An instruction between the start of a function and its return. -/
structure Between (f : Symbol) (l : Frame.Layout) (i : Asm.Instr) : Prop where
  stackPointer : i.target? ≠ some .sp
  returnAddress : i.target? ≠ some .ra
  saved : ∀ k : Fin 8, l.savedCount.toInt ≤ k → i.target? ≠ some (savedRegister k)
  stores : ∀ (r : MachineReg) (mem : Mem) (p : Part),
    i = .sw r mem → p.Within f l → p.keeps = true → mem.text ≠ (p.word f l).text
  calls : ∀ g, i = .jal g → l.leaf = false
  returns : ∀ r, i ≠ .jr r

/-- Code behind the start of a function: it returns only where it has undone what it did there. Empty
instructions may stand anywhere. -/
inductive Disciplined (f : Symbol) (l : Frame.Layout) : List Line → Prop
  | nil : Disciplined f l []
  | label {name : String} {rest : List Line} : Disciplined f l rest → Disciplined f l (.label name :: rest)
  | instr {i : Asm.Instr} {rest : List Line} :
      Between f l i → Disciplined f l rest → Disciplined f l (.instr i :: rest)
  | ret {is : List Asm.Instr} {rest : List Line} :
      is.filter (· ≠ .nop) = closing f l ++ [.jr .ra] → Disciplined f l rest →
      Disciplined f l (is.map Line.instr ++ rest)

variable {f : Symbol} {l : Frame.Layout}

theorem Disciplined.append {ks ls : List Line} (first : Disciplined f l ks) (second : Disciplined f l ls) :
    Disciplined f l (ks ++ ls) := by
  induction first with
  | nil => exact second
  | label _ ih => exact .label ih
  | instr between _ ih => exact .instr between ih
  | ret undone _ ih =>
    rw [List.append_assoc]
    exact .ret undone ih

theorem Disciplined.of_between {is : List Asm.Instr} (between : ∀ i ∈ is, Between f l i) :
    Disciplined f l (is.map Line.instr) := by
  induction is with
  | nil => exact .nil
  | cons i is ih =>
    obtain ⟨here, others⟩ := List.forall_mem_cons.mp between
    exact .instr here (ih others)

theorem Disciplined.labels (names : List String) : Disciplined f l (names.map Line.label) := by
  induction names with
  | nil => exact .nil
  | cons name names ih => exact .label ih

/-! Prologue and epilogue -/

theorem saveSlots_parts (measured : Measured f l) :
    saveSlots l = (savedParts l).map fun x => (x.1, x.2.word f l) := by
  have bounds := measured.stacked.saved
  have registers : ∀ n : Fin 9, (Reg.savedRegs.take n).zipIdx =
      ((List.finRange 8).filter fun k => k.val < n.val).map fun k => (k.natAdd 7, k.val) := by decide
  have few : l.savedCount.toInt.toNat < 9 := by omega
  have same : (List.finRange 8).filter (fun k => decide (k.val < l.savedCount.toInt.toNat)) =
      (List.finRange 8).filter fun k => decide ((k.val : Int) < l.savedCount.toInt) := by
    congr 1
    funext k
    exact decide_eq_decide.mpr (by omega)
  rw [saveSlots, savedParts, registers ⟨_, few⟩, List.map_map, List.map_map, same]
  refine List.map_congr_left fun k member => ?_
  have less : (k.val : Int) < l.savedCount.toInt := by simpa using (List.mem_filter.mp member).2
  simp only [Function.comp_apply, frameWord, measured.toInt_saveOffset less]
  rfl

theorem returnSlots_parts (measured : Measured f l) :
    returnSlots l = (returnPart l).map fun x => (x.1, x.2.word f l) := by
  unfold returnSlots returnPart
  split
  · rfl
  · rw [frameWord, measured.toInt_returnOffset]
    rfl

theorem Measured.toInt_bytes (measured : Measured f l) : l.bytes.toInt = 4 * l.totalWords.toInt := by
  obtain ⟨bottom, top⟩ := measured.total_bounds
  exact toInt_wordSize_mul (by omega) (by omega)

/-- The stores of the arguments that are passed in registers. -/
def argumentStores (l : Frame.Layout) (params : Nat) : List Asm.Instr :=
  (MachineReg.argumentRegs.take params).zipIdx.map fun (r, i) =>
    .sw r (frameWord (l.paramOffset (Int64.ofNat i)))

theorem prologue_opening (measured : Measured f l) (params : Nat) :
    prologue l params = opening f l ++ argumentStores l params := by
  simp only [prologue, opening, argumentStores, adjustStack, moveStack, saveSlots_parts measured,
    returnSlots_parts measured, measured.toInt_neg_bytes, List.map_append, List.map_map, List.append_assoc]
  rfl

theorem filter_delay (options : Options) (n : Nat) : (delay options n).filter (· ≠ .nop) = [] := by
  unfold delay
  split <;> simp

theorem epilogue_closing (options : Options) (measured : Measured f l) :
    (epilogue options l).filter (· ≠ .nop) = closing f l ++ [.jr .ra] := by
  have loads (xs : List (MachineReg × Mem)) :
      (xs.flatMap fun x => loadInstrs options x.1 x.2).filter (· ≠ .nop) = xs.map fun x => .lw x.1 x.2 := by
    induction xs with
    | nil => rfl
    | cons x xs ih =>
      rw [List.flatMap_cons, List.filter_append, ih, loadInstrs, List.filter_cons_of_pos (by simp), filter_delay]
      rfl
  have jump : (jumpInstrs options (.jr .ra)).filter (· ≠ .nop) = [.jr .ra] := by
    rw [jumpInstrs, List.filter_cons_of_pos (by simp), filter_delay]
  have adjust : (adjustStack l l.bytes).filter (· ≠ .nop) = moveStack l (4 * l.totalWords.toInt) := by
    unfold adjustStack moveStack
    rw [measured.toInt_bytes]
    split <;> simp
  have parts : epilogue options l =
      ((saveSlots l ++ returnSlots l).flatMap fun x => loadInstrs options x.1 x.2) ++ adjustStack l l.bytes ++
        jumpInstrs options (.jr .ra) := rfl
  rw [parts, List.filter_append, List.filter_append, jump, adjust, loads, saveSlots_parts measured,
    returnSlots_parts measured, ← List.map_append, List.map_map]
  rfl

/-! Instructions in between -/

/-- The offset of a parameter or scalar local is that of its part. -/
theorem Measured.scalar_part (measured : Measured f l) {x : Decl × Int64}
    (placed : x ∈ Codegen.scalarPlaces l f) :
    ∃ p : Part, p.Within f l ∧ p.keeps = false ∧ frameWord x.2 = p.word f l := by
  rcases List.mem_append.mp placed with param | data
  · obtain ⟨⟨d, i⟩, entry, rfl⟩ := List.mem_map.mp param
    obtain ⟨bound, _⟩ := List.getElem?_eq_some_iff.mp (List.mk_mem_zipIdx_iff_getElem?.mp entry)
    exact ⟨.param i, bound, rfl, by rw [frameWord, measured.toInt_paramOffset bound]; rfl⟩
  · rw [List.partition_eq_filter_filter] at data
    obtain ⟨j, here⟩ := List.mem_iff_getElem?.mp (List.mem_filter.mp data).1
    have found : f.locals[j]? = some x.1 := by
      rw [← map_placeLocals l 0 f.locals, List.getElem?_map, here]
      rfl
    obtain ⟨bound, _⟩ := List.getElem?_eq_some_iff.mp found
    obtain ⟨o, placed, offset, _⟩ := measured.localOffset_eq found
    have same : x = (x.1, o) := Option.some.inj (here.symm.trans placed)
    exact ⟨.localData j, bound, rfl, by rw [same, frameWord, offset]; rfl⟩

variable {options : Options} {table : Scope}

/-- The setting of a function that is not the entry function, with its outgoing slots. -/
def conventional (options : Options) (table : Scope) (f : Symbol) (l : Frame.Layout) : Setting :=
  settingOf options table f l l.outgoingSlots.toInt.toNat

/-- A word that the code stores to is a global variable, reached through a pointer, or a part of the
frame that keeps nothing for the caller. -/
theorem Setting.Storable.part {mem : Mem} (measured : Measured f l)
    (storable : (conventional options table f l).Storable mem) :
    (∃ name, mem = .global name ∧ isGlobalScalar table name = true) ∨ isPointed mem = true ∨
      ∃ p : Part, p.Within f l ∧ p.keeps = false ∧ mem = p.word f l := by
  cases storable with
  | global scalar => exact .inl ⟨_, rfl, scalar⟩
  | pointed pointed => exact .inr (.inl pointed)
  | declared placed => exact .inr (.inr (measured.scalar_part placed))
  | @spare i room =>
    have room : (totalWords f.locals).toInt + i < l.localWords.toInt := room
    rw [measured.locals] at room
    exact .inr (.inr ⟨.spare i, room, rfl, measured.spare_word room⟩)
  | @outgoing i few =>
    have few : i < l.outgoingSlots.toInt.toNat := few
    obtain ⟨_, room, saved, bit, covers, top⟩ := measured.counts
    refine .inr (.inr ⟨.outgoing i, show (i : Int) < l.outgoingSlots.toInt by omega, rfl, ?_⟩)
    rw [outgoingWord, frameWord, toInt_outgoingOffset (by omega)]
    rfl

/-- Names of global variables that do not read like words on the stack. -/
def PlainGlobals (table : Scope) : Prop := ∀ s ∈ table.globalVariables, '(' ∉ s.name.toList

theorem PlainGlobals.of_isGlobalScalar {name : String} (plain : PlainGlobals table)
    (scalar : isGlobalScalar table name = true) : '(' ∉ name.toList := by
  unfold isGlobalScalar at scalar
  obtain ⟨s, found, scalar⟩ := (Option.any_eq_true _ _).mp scalar
  have named : s.name = name := by simpa using List.find?_some found
  rw [Symbol.isScalar, Bool.and_eq_true] at scalar
  exact named ▸ plain s (List.mem_filter.mpr ⟨List.mem_of_find?_eq_some found, scalar.1⟩)

/-- A store leaves what the frame keeps for the caller. -/
theorem Setting.Storable.apart {mem : Mem} {p : Part} (measured : Measured f l) (plain : PlainGlobals table)
    (storable : (conventional options table f l).Storable mem) (within : p.Within f l)
    (keeps : p.keeps = true) : mem.text ≠ (p.word f l).text := by
  intro same
  rcases storable.part measured with ⟨name, rfl, scalar⟩ | pointed | ⟨q, within', other, rfl⟩
  · have word := Asm.Mem.eq_of_text (fun _ here => by cases here; exact plain.of_isGlobalScalar scalar)
      (by simp) same
    cases word
  · have word := Asm.Mem.eq_of_text (fun _ here => by rw [here] at pointed; contradiction)
      (fun _ here => by rw [here] at pointed; contradiction) same
    rw [word] at pointed
    contradiction
  · have word := Asm.Mem.eq_of_text (fun _ here => by cases here) (fun _ here => by cases here) same
    have distinct : q ≠ p := by
      rintro rfl
      rw [keeps] at other
      contradiction
    have apart := measured.place_apart within' within distinct
    have one : (p.place f l).words = 1 := by
      cases p <;> first | rfl | contradiction
    have some := (measured.place_region within').2.2.2
    have start : (q.place f l).start = (p.place f l).start := (Mem.offset.inj word).1
    simp only [Extent.Apart, Extent.stop, one, start] at apart
    omega

/-- A register that is saved for no one is not used. -/
theorem mayUse_saved {k : Fin 8} (other : f.name ≠ options.entry) (many : l.savedCount.toInt ≤ k) :
    mayUse options f l (k.natAdd 7) = false := by
  have value : (k.natAdd 7).val - 7 = k.val := by simp
  have count := Int64.toInt_ofNat_of_lt (n := k.val) (by omega)
  have beyond : ¬ Int64.ofNat k.val < l.savedCount := by
    rw [Int64.lt_iff_toInt_lt, count]
    omega
  have saved : Reg.isTemporary (k.natAdd 7) = false := by simp [Reg.isTemporary]
  simp only [mayUse, value, beyond, saved, other, decide_false, Bool.or_self]

/-- Code of the function keeps to the convention. -/
theorem Setting.Ordinary.between {i : Asm.Instr} (measured : Measured f l) (plain : PlainGlobals table)
    (other : f.name ≠ options.entry) (ordinary : (conventional options table f l).Ordinary i) :
    Between f l i := by
  refine ⟨fun same => ordinary.target _ same, fun same => ordinary.target _ same, fun k many same => ?_,
    fun r mem p here within keeps => (ordinary.stores r mem here).apart measured plain within keeps,
    fun g here => absurd here (ordinary.links g), ordinary.returns⟩
  have usable : mayUse options f l (k.natAdd 7) = true := ordinary.target _ same
  rw [mayUse_saved other many] at usable
  contradiction

theorem argumentStores_ordinary {i : Asm.Instr} (member : i ∈ argumentStores l f.params.length) :
    (conventional options table f l).Ordinary i := by
  obtain ⟨⟨r, k⟩, inside, rfl⟩ := List.mem_map.mp member
  obtain ⟨bound, _⟩ := List.getElem?_eq_some_iff.mp (List.mk_mem_zipIdx_iff_getElem?.mp inside)
  have less : k < f.params.length := by
    rw [List.length_take] at bound
    omega
  exact .save (.declared (mem_scalarPlaces_param (List.getElem?_eq_getElem less)))

theorem Coded.disciplined {x : Instr} {is : List Asm.Instr} (measured : Measured f l) (plain : PlainGlobals table)
    (other : f.name ≠ options.entry) (coded : Coded (conventional options table f l) options x is)
    (calls : ∀ g res, x = .call g res → l.leaf = false) : Disciplined f l (is.map Line.instr) := by
  have code {is : List Asm.Instr} (ordinary : ∀ i ∈ is, (conventional options table f l).Ordinary i) :
      Disciplined f l (is.map Line.instr) :=
    .of_between fun i member => (ordinary i member).between measured plain other
  cases coded with
  | ordinary _ ordinary => exact code ordinary
  | @call g res is js before after =>
    have jump : Between f l (.jal g) := by
      refine ⟨by simp [Asm.Instr.target?], by simp [Asm.Instr.target?], by simp [Asm.Instr.target?],
        by simp, fun _ _ => calls g res rfl, by simp⟩
    rw [List.map_append, List.map_append, jumpInstrs, List.map_cons]
    refine (code before).append (.append (.instr jump ?_) (code after))
    exact code (.delay options 1)
  | ret ordinary =>
    rw [List.map_append]
    refine (code ordinary).append ?_
    have undone := epilogue_closing options measured
    have ends : Disciplined f l ((epilogue options l).map Line.instr ++ []) := .ret undone .nil
    rw [List.append_nil] at ends
    exact ends

/-! Runs of the generator -/

section Runs

variable {code : List Quad} {instrs : List Instr} {symbols : List Symbol} {n : Nat} {b : Body} {out : Output}

/-- A function of a program that compiles: its sizes do not wrap around, it is not the entry function,
and calls are counted. -/
structure Conventional (options : Options) (table : Scope) (code : List Quad) (f : Symbol) : Prop where
  built : ∃ symbols, Scope.insertAll {} symbols = .ok table
  named : ∀ g ∈ table.functions, g.name ≠ ""
  globals : PlainGlobals table
  counted : options.assumeLeaf = false
  other : f.name ≠ options.entry
  range : Frame.InRange options (Frame.callSites table "" code) f

/-- A call of the function is counted, and its arguments have outgoing slots. -/
theorem Conventional.call {g : String} {res : Option String} {c : Body}
    (convention : Conventional options table code b.function) (decoded : decodeFrom 0 code = .ok instrs)
    (found : instrs[n]? = some (.call g res)) (reached : stateAt options table code n = .ok (.inside b))
    (measured : Measured b.function b.layout)
    (ran : Codegen.call (siteAt options table code n) g res { b with reserved := [], returned := false } =
      .ok ((), c)) :
    b.pending.length ≤ b.layout.outgoingSlots.toInt.toNat ∧ b.layout.leaf = false := by
  obtain ⟨bound, _⟩ := List.getElem?_eq_some_iff.mp found
  have provided : (State.inside b).Provided table (Frame.plan options table code) :=
    stateAt_provided decoded (Nat.le_of_lt bound) reached
  have consistent : (State.inside b).Consistent := stateAt_consistent reached
  have function : b.function ∈ table.functions :=
    List.mem_filter.mpr ⟨List.mem_of_find?_eq_some provided.symbol, provided.function⟩
  have calls : CallsAt options table code instrs n b g := ⟨⟨res, found⟩, reached⟩
  have counted := calls.counted decoded (convention.named _ function)
  obtain ⟨planned, own⟩ := Frame.find_ok provided.frame
  refine ⟨?_, (leaf_iff convention.counted planned).mpr ⟨_, counted, own.symm⟩⟩
  obtain ⟨_, _, _, _, _, _, _, _, called, _⟩ := call_ok
    (b := { b with reserved := [], returned := false }) consistent ran
  obtain ⟨f, callee, (arity : b.pending.length = f.params.length)⟩ := called.arity
  have length : Frame.arityOf table g = b.pending.length := by
    rw [Frame.arityOf, show table.lookup g = some f from callee]
    exact arity.symm
  have layout := Frame.find_plan_function provided.symbol provided.function provided.frame
  have words := convention.range.toInt_localWords
  have room := measured.room
  rw [← layout] at words
  have enough := convention.range.arity_le (by omega) convention.counted counted rfl
  simp only [← layout, length] at enough
  omega

/-- What an instruction of the function adds to its code. -/
theorem step_disciplined {x : Instr} {st : State} (convention : Conventional options table code b.function)
    (decoded : decodeFrom 0 code = .ok instrs) (found : instrs[n]? = some x)
    (reached : stateAt options table code n = .ok (.inside b))
    (next : stateAt options table code (n + 1) = .ok st) :
    ∃ ls, st.out.lines.toList = b.out.lines.toList ++ ls ∧ Disciplined b.function b.layout ls ∧
      ((∃ label, x = .label ⟨label, .exit b.function.name⟩) ∨
        ∃ c, st = .inside c ∧ c.function = b.function ∧ c.layout = b.layout) := by
  obtain ⟨symbols, built⟩ := convention.built
  have measured := (stateAt_surveyed built reached convention.range).measured
  have globals := convention.globals
  have other := convention.other
  have consistent : (State.inside b).Consistent := stateAt_consistent reached
  have set : (State.inside b).Set options table := stateAt_set reached
  have holds := set b.layout.outgoingSlots.toInt.toNat
  obtain ⟨_, before, steps⟩ := (stateAt_succ decoded found).mp next
  cases Except.ok.inj (reached.symm.trans before)
  cases step_stepped steps with
  | nop => exact ⟨[], (List.append_nil _).symm, .nil, .inr ⟨b, rfl, rfl, rfl⟩⟩
  | @exit label b c boundary left =>
    obtain ⟨name, _⟩ := label
    cases boundary
    obtain ⟨is, emits, ordinary⟩ := leave_coded rfl holds left
    refine ⟨_, emits, ?_, .inl ⟨name, rfl⟩⟩
    rw [List.map_append]
    refine Disciplined.append (.of_between fun i member => (ordinary i member).between measured globals other) ?_
    split
    · exact .nil
    · have coded : Coded (conventional options table b.function b.layout) options (.ret none)
        ([] ++ epilogue options b.layout) := .ret (by simp)
      exact coded.disciplined measured globals other (by simp)
  | @lower x b c real plain lowers =>
    have call (g : String) (res : Option String) (same : x = .call g res) :
        b.pending.length ≤ b.layout.outgoingSlots.toInt.toNat ∧ b.layout.leaf = false := by
      subst same
      exact convention.call decoded found reached measured lowers
    have holds := holds.congr (c := { b with reserved := [], returned := false }) rfl rfl rfl rfl
    obtain ⟨is, lines, coded, holds⟩ := lower_coded (b := { b with reserved := [], returned := false })
      consistent rfl holds (fun g res same => (call g res same).1) plain lowers
    have coded : Coded (conventional options table b.function b.layout) options x is := coded
    refine ⟨linesOf x is, lines, ?_, .inr ⟨c, rfl, holds.function, holds.layout⟩⟩
    exact (coded.disciplined measured globals other fun g res same => (call g res same).2).append (.labels _)

/-- The rest of the function's code, up to its exit. -/
theorem rest_disciplined (convention : Conventional options table code b.function)
    (decoded : decodeFrom 0 code = .ok instrs)
    (finished : stateAt options table code instrs.length = .ok (.idle out))
    (reached : stateAt options table code n = .ok (.inside b)) (bound : n ≤ instrs.length) :
    ∃ m label st ls, n ≤ m ∧ instrs[m]? = some (.label ⟨label, .exit b.function.name⟩) ∧
      stateAt options table code (m + 1) = .ok st ∧ st.out.lines.toList = b.out.lines.toList ++ ls ∧
      Disciplined b.function b.layout ls := by
  -- by induction on the instructions that are left: they end outside of a procedure
  induction left : instrs.length - n generalizing n b with
  | zero =>
    have last : n = instrs.length := by omega
    rw [last, finished] at reached
    cases Except.ok.inj reached
  | succ k ih =>
    have less : n < instrs.length := by omega
    have found := List.getElem?_eq_getElem less
    obtain ⟨st, _, next, _⟩ := stateAt_of_finished decoded finished less
    obtain ⟨ls, lines, disciplined, ends⟩ := step_disciplined convention decoded found reached next
    rcases ends with ⟨label, exit⟩ | ⟨c, rfl, function, layout⟩
    · exact ⟨n, label, st, ls, Nat.le_refl n, exit ▸ found, next, lines, disciplined⟩
    · obtain ⟨m, label, st, ks, after, exit, finish, more, more_disciplined⟩ :=
        ih (function ▸ convention) next less (by omega)
      rw [function, layout] at more_disciplined
      refine ⟨m, label, st, ls ++ ks, by omega, function ▸ exit, finish, ?_, disciplined.append more_disciplined⟩
      rw [more, show c.out.lines.toList = _ from lines, List.append_assoc]

end Runs

/-- The code of a function: it is named and opened, and what disciplined keeps to the convention. -/
def Procedure (f : Symbol) (l : Frame.Layout) (block : List Line) : Prop :=
  ∃ ls, block = .label f.name :: ((opening f l).map Line.instr ++ ls) ∧ Disciplined f l ls

/-- What each function keeps for its caller. In a loaded program that compiles, with calls counted, every
entry of a function other than the entry function has an exit, and the block of lines between them is
a procedure, in the frame that the function is given. -/
theorem procedure_disciplined {name : String} {d : Declarations} {p : Program} {options : Options}
    {listing : Listing} (loaded : Program.ofDeclarations name d = .ok p)
    (compiled : p.compile options = .ok listing) (calls : options.assumeLeaf = false)
    (globals : ∀ s ∈ p.table.globalVariables, '(' ∉ s.name.toList) :
    ∃ instrs, decodeFrom 0 p.code = .ok instrs ∧
      ∀ f ∈ p.table.functions, f.name ≠ options.entry →
      Frame.InRange options (Frame.callSites p.table "" p.code) f →
      ∀ n label, instrs[n]? = some (.label ⟨label, .entry f.name⟩) →
      ∃ l m label' st st' block rest, Frame.find listing.frames f.name = .ok l ∧
        (0 ≤ l.savedCount.toInt ∧ l.savedCount.toInt ≤ 8) ∧
        n < m ∧ instrs[m]? = some (.label ⟨label', .exit f.name⟩) ∧
        stateAt options p.table p.code n = .ok st ∧ stateAt options p.table p.code (m + 1) = .ok st' ∧
        st'.out.lines.toList = st.out.lines.toList ++ block ∧
        listing.lines = st.out.lines.toList ++ block ++ rest ∧ Procedure f l block := by
  obtain ⟨symbols, built, named⟩ := Program.ofDeclarations_ok loaded
  have compiled : compile options p.table p.code = .ok listing := inContext_ok.mp compiled
  obtain ⟨instrs, out, decoded, finished, all⟩ := compile_ok compiled
  refine ⟨instrs, decoded, fun f function other range n label found => ?_⟩
  have convention : Conventional options p.table p.code f :=
    ⟨⟨symbols, built⟩, named, globals, calls, other, range⟩
  obtain ⟨less, _⟩ := List.getElem?_eq_some_iff.mp found
  obtain ⟨_, _, next, _⟩ := stateAt_of_finished decoded finished less
  have symbol := Scope.lookup_of_insertAll built (by simp) f (List.mem_filter.mp function).1
  obtain ⟨out', g, l, reached, rfl, symbol', _, frame⟩ := stateAt_entry decoded found next
  cases Option.some.inj (symbol.symm.trans symbol')
  have measured : Measured f l := (stateAt_surveyed built next range).measured
  obtain ⟨m, label', st', ls, after, exit, ends, lines, disciplined⟩ :=
    rest_disciplined (b := .start options out' f l) convention decoded finished next less
  obtain ⟨bound, _⟩ := List.getElem?_eq_some_iff.mp exit
  obtain ⟨_, rest, ends', more⟩ := stateAt_of_finished decoded finished bound
  cases Except.ok.inj (ends.symm.trans ends')
  rw [start_lines, prologue_opening measured, List.map_append, List.append_assoc] at lines
  have stores (i : Asm.Instr) (member : i ∈ argumentStores l f.params.length) : Between f l i := by
    have ordinary : (conventional options p.table f l).Ordinary i := argumentStores_ordinary member
    exact ordinary.between measured globals other
  refine ⟨l, m, label', .idle out', st', _, rest, compile_frames compiled ▸ frame, measured.stacked.saved,
    after, exit, reached, ends, lines, ?_, _, ?_, (Disciplined.of_between stores).append disciplined⟩
  · exact all.trans (more.trans (congrArg (· ++ rest) lines))
  · rw [List.cons_append, List.append_assoc]

/-- A function that saves six registers and keeps a temporary across a call. -/
def savingUnit : Declarations :=
  { globals := [{ name := "x" }]
    functions := [{ name := "h" }, { name := "f", locals := [{ name := "a", size := 40, isArray := true }] }]
    code := "(label,func_f,,)\n(=,1,,t)\n(call,h,,x)\n(return,,,t)\n(label,end_f,,)\n" }

def savingFunction : Symbol :=
  { name := "f", kind := .function, type := "int"
    locals := [{ name := "a", type := "int", size := 40, isArray := true }] }

def savingTable : Scope :=
  ⟨[{ name := "x", type := "int", size := 4 }, { name := "h", kind := .function, type := "int" },
    savingFunction]⟩

def savingCode : List Quad :=
  Quad.numberedFrom 0 [
    { op := "label", arg1 := "func_f" },
    { op := "=", arg1 := "1", res := "t" },
    { op := "call", arg1 := "h", res := "x" },
    { op := "return", res := "t" },
    { op := "label", arg1 := "end_f" }]

theorem procedure_disciplined_saving :
    ∃ listing l before block rest, compile {} savingTable savingCode = .ok listing ∧
      Frame.find listing.frames "f" = .ok l ∧ l.savedCount = 6 ∧ l.leaf = false ∧
      listing.lines = before ++ block ++ rest ∧ Procedure savingFunction l block := by
  have loaded : Program.ofDeclarations "u" savingUnit = .ok ⟨"u", savingTable, savingCode⟩ :=
    eq_ok_of_toOption (by decide +kernel)
  have accepted : (Program.compile ⟨"u", savingTable, savingCode⟩ {}).toOption.isSome = true := by
    decide +kernel
  obtain ⟨listing, compiled⟩ := Option.isSome_iff_exists.mp accepted
  have compiled := eq_ok_of_toOption compiled
  have range : Frame.InRange {} (Frame.callSites savingTable "" savingCode) savingFunction := by
    decide +kernel
  obtain ⟨instrs, decoded, discipline⟩ := procedure_disciplined loaded compiled rfl (by decide)
  have entry : (decodeFrom 0 savingCode).toOption.bind (·[0]?) =
      some (.label ⟨"func_f", .entry "f"⟩) := by
    decide +kernel
  rw [show decodeFrom 0 savingCode = .ok instrs from decoded] at entry
  obtain ⟨l, m, label, st, st', block, rest, frame, bounds, _, _, _, _, _, lines, procedure⟩ :=
    discipline savingFunction (by decide) (by decide) range 0 _ entry
  have compiled : compile {} savingTable savingCode = .ok listing := inContext_ok.mp compiled
  have planned : (Frame.find (Frame.plan {} savingTable savingCode) "f").toOption.map
      (fun l => (l.savedCount, l.leaf)) = some (6, false) := by
    decide +kernel
  rw [← compile_frames compiled, show Frame.find listing.frames "f" = .ok l from frame] at planned
  obtain ⟨saved, leaf⟩ := Prod.mk.inj (Option.some.inj planned)
  exact ⟨listing, l, _, block, rest, compiled, frame, saved, leaf, lines, procedure⟩

end Codegen

end ThreeAddress
