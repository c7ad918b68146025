import ThreeAddress.Proofs.Emission
import ThreeAddress.Proofs.Loading

/-! The scan that plans the frames finds the calls that the generator emits: a function is planned as one
that calls if it does, with room for the arguments of each of its calls. -/
namespace ThreeAddress.Codegen

open Asm (Line Mem Listing)
open Descriptor (Store Var Entry)

variable {site : Site} {b c : Body} {is : List Asm.Instr}

/-! Stores of arguments -/

theorem Copied.isStore {i : Fin 8} {x : Operand} (copied : Copied site i b x is c) :
    ∀ k ∈ is, isStore k = false := by
  have loads (mem : Mem) : ∀ k ∈ loadInstrs site.options (.arg i) mem, Codegen.isStore k = false := by
    unfold loadInstrs delay
    split <;> simp [Codegen.isStore]
  cases copied with
  | literal n =>
    unfold immediateInstrs
    split <;> simp [Codegen.isStore]
  | register => simp [Codegen.isStore]
  | home => exact loads _
  | unresolved => simp

/-- The arguments from the fifth on are stored to their outgoing slots, and nothing else is stored. -/
theorem Passed.stores {i : Nat} {x : Operand} (passed : Passed site b i x is c) :
    (∀ r mem, .sw r mem ∈ is → 4 ≤ i ∧ mem = outgoingWord b.layout i) ∧
      (4 ≤ i → ∃ r, .sw r (outgoingWord b.layout i) ∈ is) := by
  have none {js : List Asm.Instr} (plain : ∀ k ∈ js, isStore k = false) (r : MachineReg) (mem : Mem) :
      .sw r mem ∉ js := by
    intro member
    have wrong := plain _ member
    contradiction
  cases passed with
  | register same few copied =>
    exact ⟨fun r mem member => absurd member (none copied.isStore r mem), fun many => by omega⟩
  | resident many moves resides =>
    refine ⟨fun r mem member => ⟨many, ?_⟩, fun _ => ⟨_, List.mem_singleton_self _⟩⟩
    cases List.mem_singleton.mp member
    rfl
  | slot many moves copied =>
    refine ⟨fun r mem member => ⟨many, ?_⟩, fun _ => ⟨.arg 7, by simp⟩⟩
    rcases List.mem_append.mp member with member | member
    · exact absurd member (none copied.isStore r mem)
    · cases List.mem_singleton.mp member
      rfl

theorem PassedAll.stores {i : Nat} {xs : List Operand} (passed : PassedAll site i xs b is c) :
    (∀ r mem, .sw r mem ∈ is →
      ∃ k, 4 ≤ k ∧ i ≤ k ∧ k < i + xs.length ∧ mem = outgoingWord b.layout k) ∧
    ∀ k, 4 ≤ k → i ≤ k → k < i + xs.length → ∃ r, .sw r (outgoingWord b.layout k) ∈ is := by
  induction passed with
  | nil => exact ⟨by simp, fun k _ low high => by simp at high; omega⟩
  | @cons i x xs b c d is js first others ih =>
    obtain ⟨stores, stored⟩ := first.stores
    obtain ⟨more, stored'⟩ := ih
    rw [(first.moves (Nat.lt_succ_self i)).sameProcedure.layout] at more stored'
    simp only [List.length_cons]
    constructor
    · intro r mem member
      rcases List.mem_append.mp member with member | member
      · obtain ⟨many, same⟩ := stores r mem member
        exact ⟨i, many, Nat.le_refl i, by omega, same⟩
      · obtain ⟨k, many, low, high, same⟩ := more r mem member
        exact ⟨k, many, by omega, by omega, same⟩
    · intro k many low high
      by_cases here : k = i
      · subst here
        obtain ⟨r, member⟩ := stored many
        exact ⟨r, List.mem_append_left _ member⟩
      · obtain ⟨r, member⟩ := stored' k many (by omega) (by omega)
        exact ⟨r, List.mem_append_right _ member⟩

/-! Jumps of calls -/

theorem epilogue_links (options : Options) (l : Frame.Layout) (g : String) :
    .jal g ∉ epilogue options l := by
  intro member
  simp only [epilogue, List.mem_append, List.mem_flatMap] at member
  have waits (n : Nat) : .jal g ∉ delay options n := by
    unfold delay
    split <;> simp
  rcases member with (⟨x, _, member⟩ | member) | member
  · rcases List.mem_cons.mp member with wrong | member
    · contradiction
    · exact waits 2 member
  · unfold adjustStack at member
    split at member
    · contradiction
    · simp at member
  · rcases List.mem_cons.mp member with wrong | member
    · contradiction
    · exact waits 1 member

/-- Only a call has a jump to a function in its code, and it has one. -/
theorem Coded.links {S : Setting} {options : Options} {x : Instr} (coded : Coded S options x is)
    (g : String) : .jal g ∈ is ↔ ∃ res, x = .call g res := by
  have none {js : List Asm.Instr} (plain : ∀ i ∈ js, S.Ordinary i) : .jal g ∉ js :=
    fun member => (plain _ member).links g rfl
  cases coded with
  | ordinary other plain =>
    exact ⟨fun member => absurd member (none plain), fun ⟨res, same⟩ => absurd same (other g res)⟩
  | @call f res is js before after =>
    have waits : .jal g ∉ delay options 1 := none (.delay options 1)
    have there : .jal g ∈ is ++ (jumpInstrs options (.jal f) ++ js) ↔ g = f := by
      simp [jumpInstrs, none before, none after, waits]
    rw [there]
    exact ⟨fun same => ⟨res, by rw [same]⟩, fun ⟨_, same⟩ => (Instr.call.inj same).1.symm⟩
  | @ret x is plain =>
    have absent : .jal g ∉ is ++ epilogue options S.layout := by
      simp [none plain, epilogue_links]
    exact ⟨fun member => absurd member absent, fun ⟨_, same⟩ => by cases same⟩

section Runs

variable {options : Options} {table : Scope} {code : List Quad} {instrs : List Instr} {n : Nat}

/-- The generator adds the line while it is in a function of the name. -/
def EmittedInside (options : Options) (table : Scope) (code : List Quad) (name : String) (line : Line) :
    Prop :=
  ∃ n b st ls, stateAt options table code n = .ok (.inside b) ∧ b.function.name = name ∧
    stateAt options table code (n + 1) = .ok st ∧ st.out.lines.toList = b.out.lines.toList ++ ls ∧ line ∈ ls

/-- What the generator adds at an instruction inside of a procedure. -/
theorem stateAt_emits {x : Instr} {st : State} (decoded : decodeFrom 0 code = .ok instrs)
    (found : instrs[n]? = some x) (reached : stateAt options table code n = .ok (.inside b))
    (next : stateAt options table code (n + 1) = .ok st) :
    ∃ (is : List Asm.Instr) (ls : List String),
      st.out.lines.toList = b.out.lines.toList ++ (is.map Line.instr ++ ls.map Line.label) ∧
      ∀ g, .jal g ∈ is ↔ ∃ res, x = .call g res := by
  obtain ⟨_, before, steps⟩ := (stateAt_succ decoded found).mp next
  cases Except.ok.inj (reached.symm.trans before)
  have consistent : (State.inside b).Consistent := stateAt_consistent reached
  have set : (State.inside b).Set options table := stateAt_set reached
  cases step_stepped steps with
  | nop => exact ⟨[], [], by simp [State.out], by simp⟩
  | exit boundary left =>
    obtain ⟨is, emits, plain⟩ := leave_coded rfl (set 0) left
    refine ⟨is ++ if b.returned = true then [] else epilogue options b.layout, [], ?_, fun g => ⟨fun member => ?_, ?_⟩⟩
    · rw [List.map_nil, List.append_nil]
      exact emits
    rotate_left
    · rintro ⟨_, wrong⟩
      cases wrong
    rcases List.mem_append.mp member with member | member
    · exact absurd rfl ((plain _ member).links g)
    · split at member
      · contradiction
      · exact absurd member (epilogue_links options b.layout g)
  | lower real plain lowers =>
    have held := (set b.pending.length).congr (c := { b with reserved := [], returned := false })
      rfl rfl rfl rfl
    obtain ⟨is, lines, coded, _⟩ := lower_coded (b := { b with reserved := [], returned := false })
      consistent rfl held (fun _ _ _ => Nat.le_refl _) plain lowers
    exact ⟨is, x.plainLabel?.toList, lines, coded.links⟩

/-! Functions that call -/

/-- A function is planned as one that calls if the scan finds a call in it. -/
theorem leaf_iff {l : Frame.Layout} (calls : options.assumeLeaf = false)
    (planned : l ∈ Frame.plan options table code) :
    l.leaf = false ↔ ∃ s ∈ Frame.callSites table "" code, s.caller = l.name := by
  obtain ⟨f, _, rfl⟩ := List.mem_map.mp planned
  have leaf : (Frame.layout (Frame.demand options (Frame.callSites table "" code) f)).leaf =
      (Frame.maxArity? (Frame.callSites table "" code) f.name).isNone := by
    simp [Frame.layout, Frame.demand, calls]
  rw [leaf, show (Frame.layout (Frame.demand options _ f)).name = f.name from rfl]
  constructor
  · intro some
    unfold Frame.maxArity? at some
    split at some
    · contradiction
    · rename_i other
      obtain ⟨s, member⟩ := List.exists_mem_of_ne_nil _ other
      obtain ⟨inside, own⟩ := List.mem_filter.mp member
      exact ⟨s, inside, of_decide_eq_true own⟩
  · rintro ⟨s, member, own⟩
    rw [← own, maxArity?_of_mem member]
    rfl

/-- The scan finds the calls that the generator reaches. -/
theorem scanned_iff {out : Output} {name : String} (decoded : decodeFrom 0 code = .ok instrs)
    (finished : stateAt options table code instrs.length = .ok (.idle out)) (named : name ≠ "") :
    (∃ s ∈ Frame.callSites table "" code, s.caller = name) ↔
      ∃ n b function, CallsAt options table code instrs n b function ∧ b.function.name = name := by
  constructor
  · rintro ⟨s, member, rfl⟩
    obtain ⟨before, all, seen⟩ := stateAt_callSites decoded (Nat.le_refl _) finished
    rw [decodeFrom_length decoded, List.drop_length, Frame.callSites, List.append_nil] at all
    obtain ⟨n, b, function, calls, rfl⟩ := seen s (all ▸ member)
    exact ⟨n, b, function, calls, rfl⟩
  · rintro ⟨n, b, function, calls, rfl⟩
    exact ⟨_, calls.counted decoded named, rfl⟩

/-- The generator emits a jump to a function while it is in a procedure if it reaches a call there. -/
theorem emittedInside_jal_iff {out : Output} {name function : String}
    (decoded : decodeFrom 0 code = .ok instrs)
    (finished : stateAt options table code instrs.length = .ok (.idle out)) :
    EmittedInside options table code name (.instr (.jal function)) ↔
      ∃ n b, CallsAt options table code instrs n b function ∧ b.function.name = name := by
  constructor
  · rintro ⟨n, b, st, ls, reached, own, next, lines, member⟩
    by_cases bound : n < instrs.length
    · have found := List.getElem?_eq_getElem bound
      obtain ⟨is, ks, emitted, links⟩ := stateAt_emits decoded found reached next
      have same := List.append_cancel_left (lines.symm.trans emitted)
      have inside : .jal function ∈ is := by simpa [same] using member
      obtain ⟨res, call⟩ := (links function).mp inside
      exact ⟨n, b, ⟨⟨res, call ▸ found⟩, reached⟩, own⟩
    · rw [stateAt_beyond decoded (by omega), reached] at next
      cases Except.ok.inj next
      have none : ls = [] := by simpa [State.out] using lines
      simp [none] at member
  · rintro ⟨n, b, ⟨⟨res, found⟩, reached⟩, own⟩
    obtain ⟨bound, _⟩ := List.getElem?_eq_some_iff.mp found
    obtain ⟨st, _, next, _⟩ := stateAt_of_finished decoded finished bound
    obtain ⟨is, ks, emitted, links⟩ := stateAt_emits decoded found reached next
    have inside := (links function).mpr ⟨res, rfl⟩
    exact ⟨n, b, st, _, reached, own, next, emitted, by simp [inside]⟩

/-! Room for the arguments -/

/-- The frame of a procedure has room for the arguments of a call in it: the arguments from the fifth
on are stored to its outgoing slots, and the parameters of the callee are words of them. -/
structure CallFits (options : Options) (table : Scope) (code : List Quad) (frames : List Frame.Layout)
    (n : Nat) (b : Body) (function : String) : Prop where
  planned : b.layout ∈ frames ∧ b.layout.name = b.function.name
  room : max 4 (b.pending.length : Int) ≤ b.layout.outgoingSlots.toInt
  stores : ∃ is js c d,
    passArguments (siteAt options table code n) 0 b.pending
      { b with pending := [], reserved := [], returned := false } = .ok ((), d) ∧
    Emits b is d ∧ stateAt options table code (n + 1) = .ok (.inside c) ∧
    Emits b (is ++ js) c ∧ .jal function ∈ js ∧
    ∀ mem, (∃ r, .sw r mem ∈ is) ↔
      ∃ i : Nat, 4 ≤ i ∧ i < b.pending.length ∧ mem = .offset (4 * i) .sp
  homes : ∃ f l, table.lookup function = some f ∧ f.params.length = b.pending.length ∧
    Frame.find frames function = .ok l ∧
    ∀ (i : Nat) (x : Decl × Int64), (placeParams l f.params)[i]? = some x →
      (x.2 - l.bytes).toInt = 4 * i ∧ (i : Int) < b.layout.outgoingSlots.toInt

theorem paramOffset_sub_bytes {l : Frame.Layout} {i : Nat} (small : i < 2 ^ 61) :
    (l.paramOffset (Int64.ofNat i) - l.bytes).toInt = 4 * i := by
  have count := Int64.toInt_ofNat_of_lt (n := i) (by omega)
  rw [Frame.Layout.paramOffset, Frame.Layout.bytes, Int64.mul_add, Int64.add_comm, Int64.add_sub_cancel,
    toInt_wordSize_mul (by omega) (by omega), count]

/-- A call that the generator reaches in a program that compiles is lowered. -/
theorem CallsAt.next {function : String} {res : Option String} {out : Output}
    (calls : CallsAt options table code instrs n b function) (decoded : decodeFrom 0 code = .ok instrs)
    (finished : stateAt options table code instrs.length = .ok (.idle out))
    (found : instrs[n]? = some (.call function res)) :
    ∃ c, stateAt options table code (n + 1) = .ok (.inside c) ∧
      Codegen.call (siteAt options table code n) function res { b with reserved := [], returned := false } =
        .ok ((), c) := by
  obtain ⟨bound, _⟩ := List.getElem?_eq_some_iff.mp found
  obtain ⟨_, _, next, _⟩ := stateAt_of_finished decoded finished bound
  obtain ⟨_, before, steps⟩ := (stateAt_succ decoded found).mp next
  cases Except.ok.inj (calls.reached.symm.trans before)
  cases step_stepped steps with
  | lower real plain lowers => exact ⟨_, next, lowers⟩

theorem CallsAt.fits {function : String} {out : Output}
    (calls : CallsAt options table code instrs n b function) (decoded : decodeFrom 0 code = .ok instrs)
    (finished : stateAt options table code instrs.length = .ok (.idle out))
    (plain : options.assumeLeaf = false) (named : ∀ f ∈ table.functions, f.name ≠ "")
    (few : ∀ s ∈ table.symbols, s.params.length < 2 ^ 61) :
    CallFits options table code (Frame.plan options table code) n b function := by
  obtain ⟨res, found⟩ := calls.call
  obtain ⟨bound, _⟩ := List.getElem?_eq_some_iff.mp found
  have provided : (State.inside b).Provided table (Frame.plan options table code) :=
    stateAt_provided decoded (Nat.le_of_lt bound) calls.reached
  have consistent : (State.inside b).Consistent := stateAt_consistent calls.reached
  have symbol : b.function ∈ table.functions :=
    List.mem_filter.mpr ⟨List.mem_of_find?_eq_some provided.symbol, provided.function⟩
  obtain ⟨c, next, ran⟩ := calls.next decoded finished found
  obtain ⟨is, js, ks, ls, b₁, b₂, b₃, b₄, called, _⟩ := call_ok
    (b := { b with reserved := [], returned := false }) consistent ran
  obtain ⟨f, callee, (arity : b.pending.length = f.params.length)⟩ := called.arity
  obtain ⟨l, frame⟩ := called.planned
  have length : Frame.arityOf table function = b.pending.length := by
    rw [Frame.arityOf, show table.lookup function = some f from callee]
    exact arity.symm
  have short : b.pending.length < 2 ^ 61 :=
    arity ▸ few f (List.mem_of_find?_eq_some callee)
  have room := stateAt_outgoing decoded found calls.reached plain (named _ symbol) fun s member =>
    Nat.lt_of_lt_of_le (few s member) (by decide)
  rw [length] at room
  refine ⟨?_, room, ?_, f, l, callee, arity.symm, frame, ?_⟩
  · exact Frame.find_ok provided.frame
  · refine ⟨is, js ++ ks ++ (jumpInstrs options (.jal function) ++ ls), c, b₁, called.passes,
      (called.passed.moves (Nat.le_refl _)).lines, next, ?_, by simp [jumpInstrs], fun mem => ?_⟩
    · have emits : Emits b (is ++ js ++ ks ++ (jumpInstrs options (.jal function) ++ ls)) c :=
        called.emits_before.trans called.emits_after
      simpa using emits
    · obtain ⟨stores, stored⟩ := called.passed.stores
      have word {i : Nat} (less : i < b.pending.length) :
          outgoingWord b.layout i = .offset (4 * i) .sp := by
        rw [outgoingWord, frameWord, toInt_outgoingOffset (by omega)]
      constructor
      · rintro ⟨r, member⟩
        obtain ⟨i, many, _, less, rfl⟩ := stores r mem member
        rw [Nat.zero_add] at less
        exact ⟨i, many, less, word less⟩
      · rintro ⟨i, many, less, rfl⟩
        obtain ⟨r, member⟩ := stored i many (Nat.zero_le i) ((Nat.zero_add _).symm ▸ less)
        exact ⟨r, word less ▸ member⟩
  · intro i x here
    have less : i < f.params.length := by
      have bound := (List.getElem?_eq_some_iff.mp here).1
      simpa [placeParams] using bound
    have offset : x.2 = l.paramOffset (Int64.ofNat i) := by
      simp only [placeParams, List.getElem?_map, List.getElem?_zipIdx, List.getElem?_eq_getElem less,
        Option.map_some, Option.some.injEq] at here
      rw [← here, Nat.zero_add]
    rw [offset, paramOffset_sub_bytes (by omega)]
    exact ⟨rfl, by omega⟩

end Runs

/-- The frames are planned from the calls that the generator emits. For a loaded program that compiles,
a function is planned as one that calls if and only if a jump to a function is emitted in it, and its
frame has room for the arguments of each of its calls. -/
theorem callScan_agrees {name : String} {d : Declarations} {p : Program} {options : Options}
    {listing : Listing} (loaded : Program.ofDeclarations name d = .ok p)
    (compiled : p.compile options = .ok listing) (calls : options.assumeLeaf = false)
    (few : ∀ s ∈ p.table.symbols, s.params.length < 2 ^ 61) :
    (∀ l ∈ listing.frames,
      l.leaf = false ↔ ∃ g, EmittedInside options p.table p.code l.name (.instr (.jal g))) ∧
    ∀ instrs n b g, decodeFrom 0 p.code = .ok instrs → CallsAt options p.table p.code instrs n b g →
      CallFits options p.table p.code listing.frames n b g := by
  obtain ⟨_, _, named⟩ := Program.ofDeclarations_ok loaded
  have compiled : compile options p.table p.code = .ok listing := inContext_ok.mp compiled
  obtain ⟨instrs, out, decoded, finished, _⟩ := compile_ok compiled
  rw [compile_frames compiled]
  refine ⟨fun l planned => ?_, fun instrs' n b g decoded' at_ => ?_⟩
  · have own : l.name ≠ "" := by
      obtain ⟨f, function, rfl⟩ := List.mem_map.mp planned
      exact named f function
    rw [leaf_iff calls planned, scanned_iff decoded finished own]
    simp only [emittedInside_jal_iff decoded finished]
    exact ⟨fun ⟨n, b, g, calls⟩ => ⟨g, n, b, calls⟩, fun ⟨g, n, b, calls⟩ => ⟨n, b, g, calls⟩⟩
  · cases Except.ok.inj (decoded.symm.trans decoded')
    exact at_.fits decoded finished calls named few

/-- A function that passes five arguments, the last of them in an outgoing slot. -/
def passingUnit : Declarations :=
  { functions := [
      { name := "g", params := ["a", "b", "c", "d", "e"].map fun name => { name := name } },
      { name := "f", params := [{ name := "p" }] }]
    code := "(label,func_f,,)\n(param,1,,)\n(param,p,,)\n(param,3,,)\n(param,4,,)\n(param,p,,)\n" ++
      "(call,g,,t)\n(return,,,t)\n(label,end_f,,)\n" }

def passingTable : Scope :=
  let word (name : String) : Decl := { name := name, type := "int", size := 4 }
  ⟨[{ name := "g", kind := .function, type := "int", params := ["a", "b", "c", "d", "e"].map word },
    { name := "f", kind := .function, type := "int", params := [word "p"] }]⟩

def passingCode : List Quad :=
  Quad.numberedFrom 0 [
    { op := "label", arg1 := "func_f" },
    { op := "param", arg1 := "1" },
    { op := "param", arg1 := "p" },
    { op := "param", arg1 := "3" },
    { op := "param", arg1 := "4" },
    { op := "param", arg1 := "p" },
    { op := "call", arg1 := "g", res := "t" },
    { op := "return", res := "t" },
    { op := "label", arg1 := "end_f" }]

def passingListing : Listing := (compile {} passingTable passingCode).toOption.getD default

def passingInstrs : List Instr := (decodeFrom 0 passingCode).toOption.getD []

theorem callScan_agrees_passing :
    (∃ g, EmittedInside {} passingTable passingCode "f" (.instr (.jal g))) ∧
    (¬ ∃ g, EmittedInside {} passingTable passingCode "g" (.instr (.jal g))) ∧
    ∃ b, CallsAt {} passingTable passingCode passingInstrs 6 b "g" ∧
      CallFits {} passingTable passingCode passingListing.frames 6 b "g" := by
  have loaded : Program.ofDeclarations "u" passingUnit = .ok ⟨"u", passingTable, passingCode⟩ :=
    eq_ok_of_toOption (by decide +kernel)
  have compiled : Program.compile ⟨"u", passingTable, passingCode⟩ {} = .ok passingListing :=
    eq_ok_of_toOption (by decide +kernel)
  have decoded : decodeFrom 0 passingCode = .ok passingInstrs := eq_ok_of_toOption (by decide +kernel)
  obtain ⟨leaves, fits⟩ := callScan_agrees loaded compiled rfl (by decide)
  have inside : isInside (stateAt {} passingTable passingCode 6) = true := by decide +kernel
  obtain ⟨b, reached⟩ := exists_of_isInside inside
  have calls : CallsAt {} passingTable passingCode passingInstrs 6 b "g" :=
    ⟨⟨some "t", by decide +kernel⟩, reached⟩
  have caller : ∃ l ∈ passingListing.frames, l.name = "f" ∧ l.leaf = false := by decide +kernel
  have callee : ∃ l ∈ passingListing.frames, l.name = "g" ∧ ¬ l.leaf = false := by decide +kernel
  refine ⟨?_, ?_, b, calls, fits passingInstrs 6 b "g" decoded calls⟩
  · obtain ⟨l, planned, named, calls⟩ := caller
    exact named ▸ (leaves l planned).mp calls
  · obtain ⟨l, planned, named, leaf⟩ := callee
    exact named ▸ fun emitted => leaf ((leaves l planned).mpr emitted)

end ThreeAddress.Codegen
