import ThreeAddress.Proofs.FrameParts
import ThreeAddress.Proofs.Loading

/-! Storage of arrays. An array has the bytes that it is declared with as long as its end can be counted in 64 bits:
the three largest sizes get storage of negative size, and where the locals of a frame go beyond the 64 bits the next
one lies below the array. -/
namespace ThreeAddress

/-! Sizes that are rounded up to words -/

namespace Decl

variable {d : Decl}

theorem size_le_wordCount (array : d.isArray = true) : d.size.toInt ≤ 4 * d.wordCount := by
  have four : wordSize.toInt = 4 := rfl
  unfold wordCount
  split
  · rename_i one
    have size : d.size ≤ wordSize := by simpa [array] using one
    rw [Int64.le_iff_toInt_le, four] at size
    omega
  · omega

theorem wordCount_lt_iff (array : d.isArray = true) : d.wordCount < 2 ^ 61 ↔ d.isCountable := by
  refine ⟨isCountable_of_wordCount, fun countable => ?_⟩
  have small := countable array
  unfold wordCount
  split
  · decide
  · omega

/-- The sum that rounds the size up is negative, and so is the count of words. -/
theorem words_of_not_countable (huge : ¬ d.isCountable) :
    d.isArray = true ∧ d.wordCount = 2 ^ 61 ∧ -2 ^ 61 ≤ d.words.toInt ∧ d.words.toInt ≤ -2 ^ 61 + 1 := by
  obtain ⟨array, large⟩ : d.isArray = true ∧ ¬ d.size.toInt + 3 < 2 ^ 63 := Classical.not_imp.mp huge
  have four : wordSize.toInt = 4 := rfl
  have three : (3 : Int64).toInt = 3 := rfl
  have top := d.size.toInt_lt
  have many : ¬ (!d.isArray || decide (d.size ≤ wordSize)) = true := by
    simp only [array, Bool.not_true, Bool.false_or, decide_eq_true_eq, Int64.le_iff_toInt_le, four]
    omega
  have padded : (d.size + wordSize - 1).toInt = d.size.toInt + 3 - 2 ^ 64 := by
    have wraps := Int.bmod_def (d.size.toInt + 3) (2 ^ 64)
    rw [show d.size + wordSize - 1 = d.size + 3 by rw [Int64.sub_eq_add_neg, Int64.add_assoc]; rfl,
      Int64.toInt_add, three]
    omega
  have words : d.words.toInt = -((2 ^ 64 - d.size.toInt - 3) / 4) := by
    have quotient : (d.size.toInt + 3 - 2 ^ 64).tdiv 4 = -((2 ^ 64 - d.size.toInt - 3) / 4) := by
      rw [show d.size.toInt + 3 - 2 ^ 64 = -(2 ^ 64 - d.size.toInt - 3) by omega, Int.neg_tdiv,
        Int.tdiv_eq_ediv_of_nonneg (by omega)]
    rw [words, storageWords, if_neg many, Int64.toInt_div, padded, four, quotient,
      Int.bmod_eq_of_le (by omega) (by omega)]
  have count : d.wordCount = ((d.size.toInt + 3) / 4).toNat := if_neg many
  exact ⟨array, by omega, by omega, by omega⟩

/-- From a start that has not wrapped around, the words of an array and a gap behind them cover its bytes exactly
if they end within the 64 bits. -/
theorem covers_iff (start gap : Int64) (array : d.isArray = true) (size : 0 ≤ d.size.toInt)
    (low : 0 ≤ start.toInt) (nonneg : 0 ≤ gap.toInt) (small : gap.toInt < 2 ^ 61) :
    d.size.toInt ≤ (start + wordSize * (gap + d.words)).toInt - start.toInt ↔
      start.toInt + 4 * (gap.toInt + d.wordCount) < 2 ^ 63 := by
  have four : wordSize.toInt = 4 := rfl
  have high := start.toInt_lt
  have covered := size_le_wordCount array
  by_cases countable : d.isCountable
  · have words := toInt_words countable
    have few := (wordCount_lt_iff array).mpr countable
    have sum := toInt_add_of_le (x := gap) (y := d.words) (by omega) (by omega)
    have bytes : (start + wordSize * (gap + d.words)).toInt =
        (start.toInt + 4 * (gap.toInt + d.wordCount)).bmod (2 ^ 64) := by
      rw [Int64.toInt_add, Int64.toInt_mul, four, sum, words, Int.add_bmod_bmod]
    have wraps := Int.bmod_def (start.toInt + 4 * (gap.toInt + d.wordCount)) (2 ^ 64)
    omega
  · have large : ¬ d.size.toInt + 3 < 2 ^ 63 := fun small => countable fun _ => small
    obtain ⟨_, count, bottom, top⟩ := words_of_not_countable countable
    have sum := toInt_add_of_le (x := gap) (y := d.words) (by omega) (by omega)
    have product := toInt_wordSize_mul (x := gap + d.words) (by omega) (by omega)
    have bytes := toInt_add_of_le (x := start) (y := wordSize * (gap + d.words)) (by omega) (by omega)
    omega

/-- The storage of a global array. -/
theorem space_covers_iff (array : d.isArray = true) (size : 0 ≤ d.size.toInt) :
    d.size.toInt ≤ (d.words * wordSize).toInt ↔ d.size.toInt + 3 < 2 ^ 63 := by
  have zero : (0 : Int64).toInt = 0 := rfl
  have covers := covers_iff 0 0 array size (by omega) (by omega) (by omega)
  rw [Int64.zero_add, Int64.zero_add, zero, Int64.mul_comm, Int.sub_zero] at covers
  have countable : d.isCountable ↔ d.size.toInt + 3 < 2 ^ 63 :=
    ⟨fun countable => countable array, fun small _ => small⟩
  rw [covers, ← countable, ← wordCount_lt_iff array]
  omega

/-! Declarations that are completed -/

theorem complete_ok {v : Decl} (made : d.complete = .ok v) :
    v.name = d.name ∧ v.isArray = d.isArray ∧ v.wordCount = d.wordCount ∧
      (d.isArray = true → v.size = d.size ∧ 0 ≤ d.size.toInt) := by
  unfold complete at made
  split at made
  · simp [fail] at made
  · split at made
    · simp [fail] at made
    · rename_i nonneg
      cases Except.ok.inj made
      have zero : (0 : Int64).toInt = 0 := rfl
      rw [Int64.lt_iff_toInt_lt, zero, Int.not_lt] at nonneg
      cases array : d.isArray with
      | false => simp [wordCount, array]
      | true => simp [wordCount, array, nonneg]

end Decl

theorem completeAll_ok {ds vs : List Decl} (made : completeAll ds = .ok vs) :
    vs.map Decl.wordCount = ds.map Decl.wordCount ∧
      ∀ (j : Nat) d, ds[j]? = some d → ∃ v, vs[j]? = some v ∧ d.complete = .ok v := by
  induction ds generalizing vs with
  | nil =>
    cases Except.ok.inj made
    simp
  | cons d ds ih =>
    simp only [completeAll, Codegen.except_bind_ok] at made
    obtain ⟨v, completed, rest, others, same⟩ := made
    cases Except.ok.inj same
    obtain ⟨counts, each⟩ := ih others
    refine ⟨by simp [counts, (Decl.complete_ok completed).2.2.1], fun j e found => ?_⟩
    cases j with
    | zero =>
      cases Option.some.inj found
      exact ⟨v, rfl, completed⟩
    | succ j => exact each j e found

theorem isCountable_of_completeAll {ds vs : List Decl} (made : completeAll ds = .ok vs)
    (countable : ∀ d ∈ ds, d.isCountable) : ∀ v ∈ vs, v.isCountable := by
  obtain ⟨counts, each⟩ := completeAll_ok made
  have length : vs.length = ds.length := by simpa using congrArg List.length counts
  intro v member array
  obtain ⟨j, found⟩ := List.mem_iff_getElem?.mp member
  have declared := List.getElem?_eq_getElem (length ▸ (List.getElem?_eq_some_iff.mp found).1)
  obtain ⟨v', found', completed⟩ := each j _ declared
  cases Option.some.inj (found.symm.trans found')
  obtain ⟨_, kind, _, sizes⟩ := Decl.complete_ok completed
  have small := countable _ (List.mem_of_getElem? declared) (kind ▸ array)
  rwa [(sizes (kind ▸ array)).1]

theorem addGlobals_completed {t t' : Scope} {ds : List Decl} (added : addGlobals t ds = .ok t') :
    ∃ vs, completeAll ds = .ok vs ∧ t.insertAll (vs.map Decl.toSymbol) = .ok t' := by
  induction ds generalizing t with
  | nil => exact ⟨[], rfl, added⟩
  | cons d ds ih =>
    simp only [addGlobals, Codegen.except_bind_ok, Codegen.inContext_ok] at added
    obtain ⟨v, completed, next, inserted, rest⟩ := added
    obtain ⟨vs, others, built⟩ := ih rest
    exact ⟨v :: vs, by simp [completeAll, Codegen.except_bind_ok, completed, others],
      Codegen.except_bind_ok.mpr ⟨next, inserted, built⟩⟩

theorem addFunctions_made {t t' : Scope} {fs : List FunctionDecl} (added : addFunctions t fs = .ok t') :
    ∃ symbols, (∀ s ∈ symbols, ∃ f ∈ fs, f.toSymbol = .ok s) ∧ t.insertAll symbols = .ok t' := by
  induction fs generalizing t with
  | nil => exact ⟨[], by simp, added⟩
  | cons f fs ih =>
    simp only [addFunctions, Codegen.except_bind_ok, Codegen.inContext_ok] at added
    obtain ⟨s, made, next, inserted, rest⟩ := added
    obtain ⟨symbols, each, built⟩ := ih rest
    refine ⟨s :: symbols, ?_, Codegen.except_bind_ok.mpr ⟨next, inserted, built⟩⟩
    refine List.forall_mem_cons.mpr ⟨⟨f, List.mem_cons_self, made⟩, fun u member => ?_⟩
    obtain ⟨g, inside, made⟩ := each u member
    exact ⟨g, List.mem_cons_of_mem _ inside, made⟩

/-- The symbols of a loaded program are those of its declarations. -/
theorem Program.ofDeclarations_symbols {name : String} {d : Declarations} {p : Program}
    (loaded : ofDeclarations name d = .ok p) :
    ∃ vs symbols, completeAll d.globals = .ok vs ∧ (∀ s ∈ symbols, ∃ f ∈ d.functions, f.toSymbol = .ok s) ∧
      Scope.insertAll {} (vs.map Decl.toSymbol ++ symbols) = .ok p.table := by
  simp only [ofDeclarations, Codegen.except_bind_ok, Codegen.inContext_ok] at loaded
  obtain ⟨t, globals, table, functions, code, _, same⟩ := loaded
  cases Except.ok.inj same
  obtain ⟨vs, completed, built⟩ := addGlobals_completed globals
  obtain ⟨symbols, made, more⟩ := addFunctions_made functions
  exact ⟨vs, symbols, completed, made, Scope.insertAll_append built more⟩

theorem FunctionDecl.toSymbol_locals {f : FunctionDecl} {s : Symbol} (made : f.toSymbol = .ok s) :
    completeAll f.locals = .ok s.locals ∧ s.isFunction = true := by
  unfold toSymbol at made
  split at made
  · simp [fail] at made
  · simp only [Codegen.except_bind_ok, Codegen.inContext_ok] at made
    obtain ⟨params, _, locals, completed, same⟩ := made
    cases Except.ok.inj same
    exact ⟨completed, rfl⟩

namespace Codegen

open Asm (Line Listing)

/-! Storage of global arrays -/

section Lines

variable {site : Site} {options : Options} {table : Scope} {code : List Quad} {n : Nat}
variable {name : String} {bytes : Int}

/-- Storage is reserved in the header only. -/
theorem step_space {x : Instr} {st st' : State} (consistent : st.Consistent) (ran : step site x st = .ok st') :
    .space name bytes ∈ st'.out.lines.toList ↔ .space name bytes ∈ st.out.lines.toList := by
  cases step_stepped ran with
  | nop => rfl
  | outside => simp [State.out, Output.push]
  | @entry l out name b boundary entered =>
    obtain ⟨f, l, entered⟩ := enter_ok entered
    have lines := (congrArg (·.out.lines.toList) entered.start).trans (start_lines ..)
    simp [State.out, lines]
  | @exit l b c boundary left =>
    have sound : Consistent b.store := consistent
    obtain ⟨is, emits⟩ := leave_emits sound.sound left
    have lines : c.out.lines.toList = _ := emits
    simp [State.out, lines]
  | @lower x b c real plain lowers =>
    obtain ⟨is, lines⟩ :=
      lower_emits (b := { b with reserved := [], returned := false }) consistent plain lowers
    simp [State.out, lines, linesOf]

theorem stateAt_space {st : State} (reached : stateAt options table code n = .ok st) :
    .space name bytes ∈ st.out.lines.toList ↔ .space name bytes ∈ header table := by
  refine (stateAt_induction (P := fun st => st.Consistent ∧
    (.space name bytes ∈ st.out.lines.toList ↔ .space name bytes ∈ header table)) ⟨trivial, by simp [State.out]⟩
    ?_ reached).2
  rintro n x st st' ⟨consistent, same⟩ steps
  exact ⟨step_consistent consistent steps, (step_space consistent steps).trans same⟩

theorem mem_header_space : .space name bytes ∈ header table ↔
    ∃ s ∈ table.symbols, s.isVariable = true ∧ s.isArray = true ∧ s.name = name ∧
      (s.words * wordSize).toInt = bytes := by
  simp only [header, List.mem_append, List.mem_cons, List.mem_map, Scope.globalVariables, List.mem_filter]
  constructor
  · rintro ((same | ⟨s, ⟨member, isVariable⟩, same⟩) | same | same)
    · cases same
    · split at same
      · rename_i array
        cases same
        exact ⟨s, member, isVariable, array, rfl, rfl⟩
      · cases same
    · cases same
    · cases same
  · rintro ⟨s, member, isVariable, array, rfl, rfl⟩
    exact .inl (.inr ⟨s, ⟨member, isVariable⟩, if_pos array⟩)

theorem compile_space {listing : Listing} (compiled : compile options table code = .ok listing) :
    .space name bytes ∈ listing.lines ↔ .space name bytes ∈ header table := by
  obtain ⟨instrs, out, _, finished, lines⟩ := compile_ok compiled
  rw [lines]
  exact stateAt_space finished

end Lines

/-! Storage of local arrays -/

/-- The words that the local data of a frame is given. -/
def localCount (options : Options) (ds : List Decl) : Int :=
  options.placeholderWords.toInt + if options.countLocals then wordCounts ds else 0

/-- The offsets where the locals of a frame start, and the one where the local data ends. -/
def localBounds (l : Frame.Layout) (ds : List Decl) : List Int64 :=
  (placeLocals l 0 ds).map Prod.snd ++ [l.localOffset l.localWords]

/-- The bytes from the stack pointer to the end of a local can be counted in 64 bits. Behind the last one stand the
other words of the local data. -/
structure Fits (options : Options) (l : Frame.Layout) (ds : List Decl) (j : Nat) : Prop where
  words : 4 * (l.outgoingSlots.toInt + wordCounts (ds.take (j + 1))) < 2 ^ 63
  last : j + 1 = ds.length → 4 * (l.outgoingSlots.toInt + localCount options ds) < 2 ^ 63

/-- The words from an array up to the next local hold its bytes. -/
def Covers (l : Frame.Layout) (ds : List Decl) (j : Nat) (size : Int64) : Prop :=
  ∃ start stop, (localBounds l ds)[j]? = some start ∧ (localBounds l ds)[j + 1]? = some stop ∧
    size.toInt ≤ stop.toInt - start.toInt

theorem foldl_words (ds : List Decl) (n : Int64) :
    ds.foldl (fun n d => n + d.words) n = n + totalWords ds := by
  induction ds generalizing n with
  | nil => exact (Int64.add_zero n).symm
  | cons d ds ih =>
    rw [totalWords, List.foldl_cons, List.foldl_cons, ih, ih (0 + d.words), Int64.zero_add, Int64.add_assoc]

theorem totalWords_take_succ {ds : List Decl} {j : Nat} {d : Decl} (found : ds[j]? = some d) :
    totalWords (ds.take (j + 1)) = totalWords (ds.take j) + d.words := by
  rw [totalWords, List.take_add_one, found, List.foldl_append]
  rfl

variable {l : Frame.Layout} {ds : List Decl} {j : Nat} {d : Decl}

theorem localOffset_add (l : Frame.Layout) (w x : Int64) :
    l.localOffset (w + x) = l.localOffset w + wordSize * x := by
  rw [Frame.Layout.localOffset, Frame.Layout.localOffset, ← Int64.add_assoc, Int64.mul_add]

theorem length_placeLocals (l : Frame.Layout) (w : Int64) (ds : List Decl) :
    (placeLocals l w ds).length = ds.length := by
  have same := congrArg List.length (map_placeLocals l w ds)
  rwa [List.length_map] at same

theorem localBounds_start (found : ds[j]? = some d) :
    (localBounds l ds)[j]? = some (l.localOffset (totalWords (ds.take j))) := by
  have placed := placeLocals_getElem? (l := l) (w := 0) found
  have bound := (List.getElem?_eq_some_iff.mp found).1
  rw [localBounds, List.getElem?_append_left (by simpa [length_placeLocals] using bound), List.getElem?_map, placed]
  rfl

theorem localBounds_next {e : Decl} (found : ds[j]? = some d) (next : ds[j + 1]? = some e) :
    (localBounds l ds)[j + 1]? = some (l.localOffset (totalWords (ds.take j)) + wordSize * d.words) := by
  rw [localBounds_start next, totalWords_take_succ found, localOffset_add]

theorem localBounds_last (last : j = ds.length) :
    (localBounds l ds)[j]? = some (l.localOffset l.localWords) := by
  rw [localBounds, List.getElem?_append_right (by simp [length_placeLocals, last])]
  simp [length_placeLocals, last]

/-- What a procedure that is entered knows of its local data. -/
structure Granted (options : Options) (l : Frame.Layout) (ds : List Decl) : Prop where
  placeholder : 0 ≤ options.placeholderWords.toInt
  outgoing : 0 ≤ l.outgoingSlots.toInt
  words : l.localWords = options.placeholderWords + if options.countLocals then totalWords ds else 0
  room : (totalWords ds).toInt ≤ l.localWords.toInt

namespace Granted

variable {options : Options}

/-- A count that goes beyond the 64 bits only at the placeholder words is noticed. -/
theorem toInt_localWords (granted : Granted options l ds) (countable : ∀ d ∈ ds, d.isCountable)
    (small : wordCounts ds < 2 ^ 63) : l.localWords.toInt = localCount options ds := by
  have total := toInt_totalWords countable small
  have room := granted.room
  have placeholder := granted.placeholder
  have top := options.placeholderWords.toInt_lt
  rw [granted.words] at room ⊢
  unfold localCount
  cases counted : options.countLocals with
  | false => simp
  | true =>
    simp only [counted, if_true] at room ⊢
    have wraps := Int.bmod_def (options.placeholderWords.toInt + wordCounts ds) (2 ^ 64)
    rw [Int64.toInt_add, total] at room ⊢
    omega

theorem toInt_start (granted : Granted options l ds)
    (start : 4 * (l.outgoingSlots.toInt + wordCounts (ds.take j)) < 2 ^ 63) :
    (l.localOffset (totalWords (ds.take j))).toInt = 4 * (l.outgoingSlots.toInt + wordCounts (ds.take j)) := by
  have outgoing := granted.outgoing
  have countable : ∀ d ∈ ds.take j, d.isCountable := isCountable_of_wordCounts (by omega)
  have words := toInt_totalWords countable (by omega)
  rw [toInt_localOffset outgoing (by omega) (by omega), words]

/-- An array with a local behind it. -/
theorem covers_next (granted : Granted options l ds) (found : ds[j]? = some d) (more : j + 1 < ds.length)
    (array : d.isArray = true) (size : 0 ≤ d.size.toInt)
    (start : 4 * (l.outgoingSlots.toInt + wordCounts (ds.take j)) < 2 ^ 63) :
    ∃ stop, (localBounds l ds)[j + 1]? = some stop ∧
      (d.size.toInt ≤ stop.toInt - (l.localOffset (totalWords (ds.take j))).toInt ↔ Fits options l ds j) := by
  have offset := granted.toInt_start start
  have outgoing := granted.outgoing
  have zero : (0 : Int64).toInt = 0 := rfl
  have covers := Decl.covers_iff (l.localOffset (totalWords (ds.take j))) 0 array size
    (by omega) (by omega) (by omega)
  rw [Int64.zero_add] at covers
  refine ⟨_, localBounds_next found (List.getElem?_eq_getElem more), covers.trans ?_⟩
  have split := wordCounts_take_succ found
  exact ⟨fun small => ⟨by omega, fun last => by omega⟩, fun fits => by have := fits.words; omega⟩

/-- The last array, where the locals are counted. -/
theorem covers_counted (granted : Granted options l ds) (counted : options.countLocals = true)
    (found : ds[j]? = some d) (last : j + 1 = ds.length) (array : d.isArray = true) (size : 0 ≤ d.size.toInt)
    (start : 4 * (l.outgoingSlots.toInt + wordCounts (ds.take j)) < 2 ^ 63)
    (few : options.placeholderWords.toInt < 2 ^ 61) :
    d.size.toInt ≤ (l.localOffset l.localWords).toInt - (l.localOffset (totalWords (ds.take j))).toInt ↔
      Fits options l ds j := by
  have offset := granted.toInt_start start
  have outgoing := granted.outgoing
  have placeholder := granted.placeholder
  have all : ds.take (j + 1) = ds := List.take_of_length_le (by omega)
  have split := wordCounts_take_succ found
  have words : l.localWords = totalWords (ds.take j) + (options.placeholderWords + d.words) := by
    have total := totalWords_take_succ found
    rw [all] at total
    rw [granted.words, if_pos counted, total, ← Int64.add_assoc, Int64.add_comm options.placeholderWords,
      Int64.add_assoc]
  have covers := Decl.covers_iff (l.localOffset (totalWords (ds.take j))) options.placeholderWords array size
    (by omega) placeholder few
  rw [words, localOffset_add, covers]
  have count : localCount options ds = options.placeholderWords.toInt + wordCounts ds := by
    simp [localCount, counted]
  rw [all] at split
  exact ⟨fun small => ⟨by rw [all]; omega, fun _ => by omega⟩, fun fits => by have := fits.last last; omega⟩

/-- The last array, where only the placeholder words are counted. -/
theorem covers_uncounted (granted : Granted options l ds) (uncounted : options.countLocals = false)
    (found : ds[j]? = some d) (last : j + 1 = ds.length) (array : d.isArray = true) (size : 0 ≤ d.size.toInt)
    (start : 4 * (l.outgoingSlots.toInt + wordCounts (ds.take j)) < 2 ^ 63)
    (few : options.placeholderWords.toInt < 2 ^ 61) :
    d.size.toInt ≤ (l.localOffset l.localWords).toInt - (l.localOffset (totalWords (ds.take j))).toInt ↔
      Fits options l ds j := by
  have offset := granted.toInt_start start
  have outgoing := granted.outgoing
  have placeholder := granted.placeholder
  have room := granted.room
  have all : ds.take (j + 1) = ds := List.take_of_length_le (by omega)
  have split := wordCounts_take_succ found
  rw [all] at split
  have words : l.localWords = options.placeholderWords := by simp [granted.words, uncounted]
  have count : localCount options ds = options.placeholderWords.toInt := by simp [localCount, uncounted]
  have sum := toInt_add_of_le (x := l.outgoingSlots) (y := options.placeholderWords) (by omega) (by omega)
  have stop : (l.localOffset l.localWords).toInt =
      (4 * (l.outgoingSlots.toInt + options.placeholderWords.toInt)).bmod (2 ^ 64) := by
    rw [Frame.Layout.localOffset, words, Int64.toInt_mul, sum]
    rfl
  have wraps := Int.bmod_def (4 * (l.outgoingSlots.toInt + options.placeholderWords.toInt)) (2 ^ 64)
  have covered := Decl.size_le_wordCount array
  rw [words] at room
  by_cases countable : d.isCountable
  · -- the locals are compared with the placeholder words, so that they end below these
    have fewer := (Decl.wordCount_lt_iff array).mpr countable
    have earlier : ∀ e ∈ ds.take j, e.isCountable := isCountable_of_wordCounts (by omega)
    have each : ∀ e ∈ ds, e.isCountable := by
      intro e member
      rw [← all, List.take_add_one, found, List.mem_append] at member
      rcases member with before | own
      · exact earlier e before
      · exact List.mem_singleton.mp own ▸ countable
    have total := toInt_totalWords each (by omega)
    refine ⟨fun covers => ⟨by rw [all]; omega, fun _ => by omega⟩, fun fits => ?_⟩
    have small := fits.last last
    omega
  · have large : ¬ d.size.toInt + 3 < 2 ^ 63 := fun small => countable fun _ => small
    obtain ⟨_, count', _⟩ := Decl.words_of_not_countable countable
    refine ⟨fun covers => ?_, fun fits => ?_⟩
    · omega
    · have small := fits.words
      rw [all] at small
      omega

/-- An array that starts within the 64 bits has its bytes exactly if it fits. Placeholder words that wrap around by
themselves are left out. -/
theorem covers_iff (granted : Granted options l ds) (found : ds[j]? = some d) (array : d.isArray = true)
    (size : 0 ≤ d.size.toInt) (start : 4 * (l.outgoingSlots.toInt + wordCounts (ds.take j)) < 2 ^ 63)
    (few : j + 1 < ds.length ∨ options.placeholderWords.toInt < 2 ^ 61) :
    Covers l ds j d.size ↔ Fits options l ds j := by
  obtain ⟨stop, ends, covers⟩ : ∃ stop, (localBounds l ds)[j + 1]? = some stop ∧
      (d.size.toInt ≤ stop.toInt - (l.localOffset (totalWords (ds.take j))).toInt ↔ Fits options l ds j) := by
    by_cases more : j + 1 < ds.length
    · exact granted.covers_next found more array size start
    · have bound := (List.getElem?_eq_some_iff.mp found).1
      have last : j + 1 = ds.length := by omega
      have few := few.resolve_left more
      refine ⟨_, localBounds_last last, ?_⟩
      cases counted : options.countLocals with
      | true => exact granted.covers_counted counted found last array size start few
      | false => exact granted.covers_uncounted counted found last array size start few
  rw [← covers]
  constructor
  · rintro ⟨_, _, begins, ends', holds⟩
    cases Option.some.inj (begins.symm.trans (localBounds_start found))
    cases Option.some.inj (ends'.symm.trans ends)
    exact holds
  · exact fun holds => ⟨_, stop, localBounds_start found, ends, holds⟩

end Granted

/-- The local arrays of a procedure have the bytes that they are declared with, as long as these can be counted in
64 bits. -/
structure Reserved (options : Options) (ds : List Decl) (b : Body) : Prop where
  words : (∀ d ∈ ds, d.isCountable) → wordCounts ds < 2 ^ 63 →
    b.layout.localWords.toInt = localCount options ds ∧ 0 ≤ b.layout.localWords.toInt
  offset : ∀ (j : Nat) d, ds[j]? = some d → d.isArray = true → ∃ start,
    b.arrays.lookup d.name = some (.frame start) ∧ (localBounds b.layout b.function.locals)[j]? = some start
  covered : ∀ (j : Nat) d, ds[j]? = some d → d.isArray = true → Fits options b.layout ds j →
    Covers b.layout b.function.locals j d.size
  fits : ∀ (j : Nat) d, ds[j]? = some d → d.isArray = true →
    4 * (b.layout.outgoingSlots.toInt + wordCounts (ds.take j)) < 2 ^ 63 →
    (j + 1 < ds.length ∨ options.placeholderWords.toInt < 2 ^ 61) →
    Covers b.layout b.function.locals j d.size → Fits options b.layout ds j

theorem wordCounts_take_eq {ds vs : List Decl} (counts : vs.map Decl.wordCount = ds.map Decl.wordCount) (j : Nat) :
    wordCounts (vs.take j) = wordCounts (ds.take j) := by
  rw [wordCounts, wordCounts, List.map_take, List.map_take, counts]

theorem fits_of_counts {options : Options} {vs : List Decl} (counts : vs.map Decl.wordCount = ds.map Decl.wordCount)
    (fits : Fits options l vs j) : Fits options l ds j := by
  have all : wordCounts vs = wordCounts ds := congrArg List.sum counts
  have length : vs.length = ds.length := by simpa using congrArg List.length counts
  have count : localCount options vs = localCount options ds := by rw [localCount, localCount, all]
  exact ⟨wordCounts_take_eq counts (j + 1) ▸ fits.words, fun last => count ▸ fits.last (length ▸ last)⟩

/-- What is known of the local data covers the arrays as they are declared. -/
theorem reserved_of_granted {options : Options} {b : Body} (completed : completeAll ds = .ok b.function.locals)
    (granted : Granted options b.layout b.function.locals)
    (names : ((b.function.params ++ b.function.locals).map Decl.name).Nodup)
    (arranged : b.arrays = arrayPlaces b.layout b.function) : Reserved options ds b := by
  obtain ⟨counts, each⟩ := completeAll_ok completed
  have all : wordCounts b.function.locals = wordCounts ds := congrArg List.sum counts
  have length : b.function.locals.length = ds.length := by simpa using congrArg List.length counts
  have placeholder := granted.placeholder
  have outgoing := granted.outgoing
  have covers {j : Nat} {d : Decl} (found : ds[j]? = some d) (array : d.isArray = true)
      (start : 4 * (b.layout.outgoingSlots.toInt + wordCounts (ds.take j)) < 2 ^ 63)
      (few : j + 1 < ds.length ∨ options.placeholderWords.toInt < 2 ^ 61) :
      Covers b.layout b.function.locals j d.size ↔ Fits options b.layout ds j := by
    obtain ⟨v, found', made⟩ := each j d found
    obtain ⟨_, kind, _, sizes⟩ := Decl.complete_ok made
    obtain ⟨same, nonneg⟩ := sizes array
    rw [← same, granted.covers_iff found' (kind.trans array) (same ▸ nonneg)
      (wordCounts_take_eq counts j ▸ start) (length ▸ few)]
    exact ⟨fits_of_counts counts, fits_of_counts counts.symm⟩
  refine ⟨fun countable small => ?_, fun j d found array => ?_, fun j d found array fits => ?_,
    fun j d found array start few => (covers found array start few).mp⟩
  · have words := granted.toInt_localWords (isCountable_of_completeAll completed countable) (all ▸ small)
    rw [localCount, all, ← localCount] at words
    refine ⟨words, words ▸ ?_⟩
    unfold localCount
    split <;> omega
  · obtain ⟨v, found', made⟩ := each j d found
    obtain ⟨named, kind, _, _⟩ := Decl.complete_ok made
    refine ⟨_, ?_, localBounds_start found'⟩
    rw [arranged, ← named]
    exact arrayPlaces_lookup names (kind.trans array) (placeLocals_getElem? found')
  · have before := wordCounts_take_mono ds (show j ≤ j + 1 by omega)
    have words := fits.words
    refine (covers found array (by omega) ?_).mpr fits
    by_cases more : j + 1 < ds.length
    · exact .inl more
    · have bound := (List.getElem?_eq_some_iff.mp found).1
      have small := fits.last (by omega)
      unfold localCount at small
      split at small <;> exact .inr (by omega)

/-- A procedure that the generator is in has local data of the planned size. -/
theorem stateAt_granted {options : Options} {table : Scope} {code : List Quad} {n : Nat} {b : Body}
    (placeholder : 0 ≤ options.placeholderWords.toInt)
    (reached : stateAt options table code n = .ok (.inside b)) :
    table.lookup b.function.name = some b.function ∧ b.function.isFunction = true ∧
      Frame.find (Frame.plan options table code) b.function.name = .ok b.layout ∧
      Granted options b.layout b.function.locals := by
  obtain ⟨instrs, decoded, _⟩ := except_bind_ok.mp reached
  have housed : (State.inside b).Housed table := stateAt_housed reached
  rw [stateAt_min decoded] at reached
  have provided : (State.inside b).Provided table (Frame.plan options table code) :=
    stateAt_provided decoded (Nat.min_le_right n instrs.length) reached
  have layout := Frame.find_plan_function provided.symbol provided.function provided.frame
  refine ⟨provided.symbol, provided.function, provided.frame, placeholder, ?_, ?_, ?_⟩
  · rw [layout]
    exact Frame.outgoingSlots_nonneg _
  · have words : b.layout.localWords =
        (if options.countLocals then b.function.locals else []).foldl (fun n d => n + d.words)
          options.placeholderWords := by
      rw [layout]
      rfl
    rw [words, foldl_words]
    cases options.countLocals <;> rfl
  · have roomy := provided.roomy
    unfold Roomy at roomy
    rw [housed.first, provided.limit] at roomy
    omega

/-- A global array has one storage line. -/
theorem compile_global {options : Options} {table : Scope} {code : List Quad} {listing : Listing} {vs : List Decl}
    {symbols : List Symbol} {v : Decl} (compiled : compile options table code = .ok listing)
    (built : Scope.insertAll {} (vs.map Decl.toSymbol ++ symbols) = .ok table) (member : v ∈ vs)
    (array : v.isArray = true) (n : Int) :
    .space v.name n ∈ listing.lines ↔ n = (v.words * wordSize).toInt := by
  have own := Scope.lookup_of_insertAll built (by simp)
  have inside : v.toSymbol ∈ table.symbols := by
    rw [Scope.insertAll_symbols built]
    exact List.mem_append_right _ (List.mem_append_left _ (List.mem_map_of_mem member))
  rw [compile_space compiled, mem_header_space]
  constructor
  · rintro ⟨s, member, _, _, shared, rfl⟩
    have equal := own s member
    rw [shared] at equal
    cases Option.some.inj (equal.symm.trans (own _ inside))
    rfl
  · rintro rfl
    exact ⟨_, inside, rfl, array, rfl, rfl⟩

/-- The procedures of a loaded program are declared functions. -/
theorem exists_declared {name : String} {d : Declarations} {p : Program} {f : Symbol}
    (loaded : Program.ofDeclarations name d = .ok p) (member : f ∈ p.table.symbols)
    (function : f.isFunction = true) : ∃ g ∈ d.functions, g.toSymbol = .ok f := by
  obtain ⟨vs, symbols, _, made, built⟩ := Program.ofDeclarations_symbols loaded
  rw [Scope.insertAll_symbols built, List.nil_append, List.mem_append] at member
  rcases member with global | member
  · obtain ⟨v, _, rfl⟩ := List.mem_map.mp global
    cases function
  · exact made f member

/-- The generator gets into the procedure of every entry. -/
theorem exists_inside_of_entry {options : Options} {table : Scope} {code : List Quad} {instrs : List Instr}
    {out : Output} {n : Nat} {label f : String} (decoded : decodeFrom 0 code = .ok instrs)
    (finished : stateAt options table code instrs.length = .ok (.idle out))
    (found : instrs[n]? = some (.label ⟨label, .entry f⟩)) :
    ∃ b, stateAt options table code (n + 1) = .ok (.inside b) ∧ b.function.name = f := by
  obtain ⟨less, _⟩ := List.getElem?_eq_some_iff.mp found
  obtain ⟨_, _, next, _⟩ := stateAt_of_finished decoded finished less
  obtain ⟨_, g, l, _, rfl, _, named, _⟩ := stateAt_entry decoded found next
  exact ⟨_, next, named⟩

/-- Declared storage is reserved as far as its sizes can be counted. In a program that is loaded and compiled every
global array has one storage line, of at least its bytes unless it has one of the three largest sizes. A procedure
has its words of local data, not a negative count of them, and a local array has its bytes, if the locals up to it
end within the 64 bits. The first one that does not is not rejected: it gets fewer bytes. -/
theorem storage_reserved (name : String) (d : Declarations) (p : Program) (options : Options) (listing : Listing)
    (loaded : Program.ofDeclarations name d = .ok p) (compiled : p.compile options = .ok listing) :
    (∀ g ∈ d.globals, g.isArray = true → ∃ bytes, (∀ n, .space g.name n ∈ listing.lines ↔ n = bytes) ∧
      (g.size.toInt ≤ bytes ↔ g.size.toInt + 3 < 2 ^ 63)) ∧
    (0 ≤ options.placeholderWords.toInt →
      (∀ n b, stateAt options p.table p.code n = .ok (.inside b) → ∃ f ∈ d.functions,
        f.name = b.function.name ∧ Frame.find listing.frames f.name = .ok b.layout ∧
          Reserved options f.locals b) ∧
      ∃ instrs, decodeFrom 0 p.code = .ok instrs ∧ ∀ n label f, instrs[n]? = some (.label ⟨label, .entry f⟩) →
        ∃ b, stateAt options p.table p.code (n + 1) = .ok (.inside b) ∧ b.function.name = f) := by
  have compiled : compile options p.table p.code = .ok listing := inContext_ok.mp compiled
  obtain ⟨vs, symbols, completed, _, built⟩ := Program.ofDeclarations_symbols loaded
  refine ⟨fun g member array => ?_, fun placeholder => ⟨fun n b reached => ?_, ?_⟩⟩
  · obtain ⟨j, found⟩ := List.mem_iff_getElem?.mp member
    obtain ⟨v, found', made⟩ := (completeAll_ok completed).2 j g found
    obtain ⟨named, kind, _, sizes⟩ := Decl.complete_ok made
    obtain ⟨same, nonneg⟩ := sizes array
    rw [← named, ← same]
    exact ⟨_, compile_global compiled built (List.mem_of_getElem? found') (kind.trans array),
      Decl.space_covers_iff (kind.trans array) (same ▸ nonneg)⟩
  · obtain ⟨symbol, function, frame, granted⟩ := stateAt_granted placeholder reached
    have member : b.function ∈ p.table.symbols := List.mem_of_find?_eq_some symbol
    have arranged : (State.inside b).Arranged := stateAt_arranged reached
    have names := Scope.nodup_of_insertAll built (by simp) _ member
    obtain ⟨f, declared, made⟩ := exists_declared loaded member function
    have named := (FunctionDecl.toSymbol_ok made).1
    refine ⟨f, declared, named.symm, ?_, ?_⟩
    · rw [compile_frames compiled, ← named]
      exact frame
    · exact reserved_of_granted (FunctionDecl.toSymbol_locals made).1 granted names arranged
  · obtain ⟨instrs, out, decoded, finished, _⟩ := compile_ok compiled
    exact ⟨instrs, decoded, fun n label f found => exists_inside_of_entry decoded finished found⟩

/-- The largest sizes that are reserved, of a global array and of a local one next to others. -/
def storedLocals : List Decl :=
  [{ name := "a", size := 10, isArray := true }, { name := "x" },
    { name := "b", size := 9223372036854775772, isArray := true }]

def storedUnit : Declarations :=
  { globals := [{ name := "g", size := 9223372036854775804, isArray := true }]
    functions := [{ name := "f", locals := storedLocals }]
    code := "(label,func_f,,)\n(label,end_f,,)\n" }

theorem storage_reserved_stored : ∃ p listing, Program.ofDeclarations "unit" storedUnit = .ok p ∧
    p.compile {} = .ok listing ∧
    (∃ bytes : Int, .space "g" bytes ∈ listing.lines ∧ 9223372036854775804 ≤ bytes) ∧
    ∃ b, stateAt {} p.table p.code 1 = .ok (.inside b) ∧ 0 ≤ b.layout.localWords.toInt ∧
      Covers b.layout b.function.locals 0 10 ∧ Covers b.layout b.function.locals 2 9223372036854775772 := by
  have accepted : ((Program.ofDeclarations "unit" storedUnit).bind (·.compile {})).toOption.isSome = true := by
    decide +kernel
  obtain ⟨listing, compiled⟩ := Option.isSome_iff_exists.mp accepted
  obtain ⟨p, loaded, compiled⟩ := except_bind_ok.mp (eq_ok_of_toOption compiled)
  obtain ⟨globals, locals⟩ := storage_reserved "unit" storedUnit p {} listing loaded compiled
  obtain ⟨bytes, lines, large⟩ := globals _ List.mem_cons_self rfl
  have inside : ((Program.ofDeclarations "unit" storedUnit).toOption.any fun p =>
      insideWith (·.layout.outgoingSlots = 0) (stateAt {} p.table p.code 1)) = true := by
    decide +kernel
  rw [loaded] at inside
  obtain ⟨b, reached, outgoing⟩ := exists_of_insideWith inside
  obtain ⟨f, declared, _, _, reserved⟩ := (locals (by decide)).1 1 b reached
  obtain rfl := List.mem_singleton.mp declared
  have zero : b.layout.outgoingSlots = 0 := of_decide_eq_true outgoing
  have fits {j : Nat} (words : 4 * ((0 : Int64).toInt + wordCounts (storedLocals.take (j + 1))) < 2 ^ 63)
      (last : 4 * ((0 : Int64).toInt + localCount {} storedLocals) < 2 ^ 63) : Fits {} b.layout storedLocals j :=
    ⟨zero ▸ words, fun _ => zero ▸ last⟩
  have words := reserved.words (by decide +kernel) (by decide +kernel)
  have first := reserved.covered 0 storedLocals[0] rfl rfl (fits (by decide +kernel) (by decide +kernel))
  have last := reserved.covered 2 storedLocals[2] rfl rfl (fits (by decide +kernel) (by decide +kernel))
  exact ⟨p, listing, loaded, compiled, ⟨bytes, (lines bytes).mpr rfl, large.mpr (by decide)⟩, b, reached,
    words.2, first, last⟩

/-- The sizes of `g` and `a` cannot be rounded up to words. Those of the locals of `h` cannot be summed up, and neither
can those of the locals of `k` in bytes. -/
def hugeUnit : Declarations :=
  { globals := [{ name := "g", size := 9223372036854775807, isArray := true }]
    functions := [
      { name := "f", locals := [{ name := "a", size := 9223372036854775807, isArray := true }] },
      { name := "h", locals := ["a", "b", "c", "d", "e"].map fun name =>
          { name, size := 9223372036854775804, isArray := true } },
      { name := "k", locals := ["a", "b", "c"].map fun name => { name, size := 4611686018427387904, isArray := true } }]
    code := "(label,func_f,,)\n(label,end_f,,)\n(label,func_h,,)\n(label,end_h,,)\n(label,func_k,,)\n(label,end_k,,)\n" }

/-- It compiles all the same. -/
theorem hugeUnit_not_reserved : ∃ p listing, Program.ofDeclarations "unit" hugeUnit = .ok p ∧
    p.compile {} = .ok listing ∧ .space "g" (-9223372036854775804) ∈ listing.lines ∧
    listing.frames.map (·.localWords.toInt) = [-2305843009213693947, -6917529027641081857, 3458764513820540932] ∧
    ∀ l ∈ listing.frames, l.name = "k" → (p.table.lookup "k").map (fun k => localBounds l k.locals) =
      some [0, 4611686018427387904, -9223372036854775808, -4611686018427387888] := by
  have accepted : ((Program.ofDeclarations "unit" hugeUnit).toOption.any fun p =>
      (p.compile {}).toOption.any fun listing => decide (.space "g" (-9223372036854775804) ∈ listing.lines ∧
        listing.frames.map (·.localWords.toInt) =
          [-2305843009213693947, -6917529027641081857, 3458764513820540932] ∧
        ∀ l ∈ listing.frames, l.name = "k" → (p.table.lookup "k").map (fun k => localBounds l k.locals) =
          some [0, 4611686018427387904, -9223372036854775808, -4611686018427387888])) = true := by
    decide +kernel
  obtain ⟨p, loaded, accepted⟩ := (Option.any_eq_true _ _).mp accepted
  obtain ⟨listing, compiled, holds⟩ := (Option.any_eq_true _ _).mp accepted
  exact ⟨p, listing, eq_ok_of_toOption loaded, eq_ok_of_toOption compiled, of_decide_eq_true holds⟩

end Codegen

end ThreeAddress
