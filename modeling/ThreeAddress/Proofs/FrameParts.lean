import ThreeAddress.Proofs.Capacity

/-! The parts of a frame: outgoing slots, locals, spare words, save slots and the return address, with
the parameters above them. As long as no count of words leaves the 64 bits, each part has words of its
own, and a parameter is the word of the caller that passed it. -/
namespace ThreeAddress

/-! Sizes counted exactly -/

namespace Frame

/-- The words of local data that a function is given. -/
def exactLocals (options : Options) (f : Symbol) : Int :=
  options.placeholderWords.toInt + if options.countLocals then wordCounts f.locals else 0

def exactSaved (options : Options) (f : Symbol) : Int :=
  if f.name ≠ options.entry ∧ 10 < exactLocals options f then min 8 (exactLocals options f - 8) else 0

/-- The most parameters of a callee, where calls are counted. -/
def countedArity? (options : Options) (sites : List CallSite) (f : Symbol) : Option Nat :=
  if options.assumeLeaf then none else maxArity? sites f.name

def exactOutgoing (calls : Option Nat) : Int := calls.elim 0 fun n => max 4 n

/-- The words of a frame. -/
def exactTotal (options : Options) (sites : List CallSite) (f : Symbol) : Int :=
  let calls := countedArity? options sites f
  let sum := (if calls.isNone then 0 else 1) + exactLocals options f + 2 * exactSaved options f +
    exactOutgoing calls
  sum + sum % 2

/-- No sum that gives a size of the frame or an offset into it leaves the 64 bits. -/
structure InRange (options : Options) (sites : List CallSite) (f : Symbol) : Prop where
  sizes : ∀ d ∈ f.locals, d.isCountable
  declared : wordCounts f.locals < 2 ^ 63
  locals : exactLocals options f < 2 ^ 63
  bytes : 4 * (exactTotal options sites f + (f.params.length - 1 : Nat)) < 2 ^ 63

instance (options : Options) (sites : List CallSite) (f : Symbol) : Decidable (InRange options sites f) :=
  decidable_of_iff ((∀ d ∈ f.locals, d.isCountable) ∧ wordCounts f.locals < 2 ^ 63 ∧
      exactLocals options f < 2 ^ 63 ∧ 4 * (exactTotal options sites f + (f.params.length - 1 : Nat)) < 2 ^ 63)
    ⟨fun ⟨sizes, declared, locals, bytes⟩ => ⟨sizes, declared, locals, bytes⟩,
      fun range => ⟨range.sizes, range.declared, range.locals, range.bytes⟩⟩

variable {options : Options} {sites : List CallSite} {f : Symbol}

theorem InRange.toInt_localWords (range : InRange options sites f) :
    (layout (demand options sites f)).localWords.toInt = exactLocals options f := by
  have locals := range.locals
  unfold exactLocals at *
  simp only [layout, demand]
  cases counted : options.countLocals with
  | false => simp
  | true =>
    simp only [counted, if_true] at locals ⊢
    exact toInt_foldl_words range.sizes locals

theorem InRange.toInt_savedCount (range : InRange options sites f) :
    (layout (demand options sites f)).savedCount.toInt = exactSaved options f := by
  have words : (demand options sites f).localWords.toInt = _ := range.toInt_localWords
  have entry : (demand options sites f).entry = false ↔ f.name ≠ options.entry := by simp [demand]
  rw [Frame.toInt_savedCount, words]
  simp only [entry, exactSaved]

theorem exactSaved_bounds (options : Options) (f : Symbol) :
    0 ≤ exactSaved options f ∧ exactSaved options f ≤ 8 := by
  unfold exactSaved
  split <;> omega

theorem InRange.toInt_outgoingSlots (range : InRange options sites f) (nonneg : 0 ≤ exactLocals options f) :
    (layout (demand options sites f)).outgoingSlots.toInt = exactOutgoing (countedArity? options sites f) := by
  have bytes := range.bytes
  have saved := exactSaved_bounds options f
  have leaf : (demand options sites f).leaf = (countedArity? options sites f).isNone := rfl
  have most : (demand options sites f).maxCalleeParams =
      Int64.ofNat ((countedArity? options sites f).getD 0) := rfl
  rw [Frame.toInt_outgoingSlots, leaf, most]
  cases calls : countedArity? options sites f with
  | none => rfl
  | some n =>
    simp only [exactTotal, calls, exactOutgoing, Option.isNone_some, Option.elim_some] at bytes
    have count := Int64.toInt_ofNat_of_lt (n := n) (by omega)
    simp [exactOutgoing, count]

/-- A frame whose sizes do not wrap around has an outgoing slot for every argument of a call. -/
theorem InRange.arity_le {s : CallSite} (range : InRange options sites f)
    (nonneg : 0 ≤ exactLocals options f) (calls : options.assumeLeaf = false) (member : s ∈ sites)
    (own : s.caller = f.name) :
    (s.arity : Int) ≤ (layout (demand options sites f)).outgoingSlots.toInt := by
  have most := Codegen.maxArity?_of_mem member
  rw [own] at most
  have large := (Codegen.foldl_arity (sites.filter (·.caller = f.name)) 0).2.1 s (by simp [member, own])
  rw [range.toInt_outgoingSlots nonneg, countedArity?, calls, most]
  simp only [Bool.false_eq_true, if_false, exactOutgoing, Option.elim_some]
  omega

/-- The sizes of a frame are those that exact counting gives. -/
theorem InRange.measured (range : InRange options sites f)
    (room : totalWords f.locals ≤ (layout (demand options sites f)).localWords) :
    Codegen.Measured f (layout (demand options sites f)) := by
  have declared := toInt_totalWords range.sizes range.declared
  have words := range.toInt_localWords
  have bytes := range.bytes
  have bounds := exactSaved_bounds options f
  rw [Int64.le_iff_toInt_le, declared, words] at room
  have outgoing := range.toInt_outgoingSlots (by omega)
  have slots := outgoingSlots_nonneg (demand options sites f)
  have saved := range.toInt_savedCount
  have even := layout_even (demand options sites f)
  have leaf : (layout (demand options sites f)).leaf = (countedArity? options sites f).isNone := rfl
  simp only [exactTotal] at bytes
  rw [← outgoing, ← saved, ← words, ← leaf] at bytes
  have bit : (0 : Int) ≤ (if (layout (demand options sites f)).leaf then 0 else 1) := by
    split <;> omega
  have stacked := layout_stacked (d := demand options sites f) (words ▸ by omega) (by
    have same : (demand options sites f).localWords.toInt = _ := words
    rw [same]
    omega)
  have covers := stacked.covers
  have padded := stacked.padded
  exact ⟨stacked, declared, by omega, by omega⟩

/-- The frame of a function is laid out for that function. -/
theorem find_plan_function {table : Scope} {code : List Quad} {name : String} {l : Layout}
    (symbol : table.lookup name = some f) (function : f.isFunction = true)
    (found : find (plan options table code) name = .ok l) :
    l = layout (demand options (callSites table "" code) f) := by
  obtain ⟨named, before, after, split, others⟩ := List.find?_eq_some_iff_append.mp symbol
  have first : table.functions.find? (·.name = name) = some f := by
    rw [Scope.functions, List.find?_filter]
    refine List.find?_eq_some_iff_append.mpr ⟨by simpa [function] using named, before, after, split, ?_⟩
    intro g member
    have other : g.name ≠ name := by simpa using others g member
    simp [other]
  have same : (plan options table code).find? (·.name = name) =
      some (layout (demand options (callSites table "" code) f)) := by
    rw [plan, List.find?_map]
    exact congrArg (Option.map _) first
  rw [find, same] at found
  exact (Except.ok.inj found).symm

end Frame

namespace Codegen

open Asm (Mem)
open Descriptor (Store Var Entry)

/-! Where the parts of a frame belong -/

/-- A part of a frame, or a parameter above it. -/
inductive Part
  | outgoing (i : Nat)
  | localData (j : Nat)
  | spare (i : Nat)
  | saved (k : Nat)
  | returnAddress
  | param (i : Nat)
deriving DecidableEq, Repr

/-- Consecutive words from an offset on, which is in bytes from the stack pointer up. -/
structure Extent where
  start : Int
  words : Nat
deriving DecidableEq, Repr

def Extent.stop (x : Extent) : Int := x.start + 4 * x.words

/-- No word belongs to both. -/
def Extent.Apart (x y : Extent) : Prop := x.stop ≤ y.start ∨ y.stop ≤ x.start

/-- The frame has this part. -/
def Part.Within (f : Symbol) (l : Frame.Layout) : Part → Prop
  | .outgoing i => i < l.outgoingSlots.toInt
  | .localData j => j < f.locals.length
  | .spare i => wordCounts f.locals + i < l.localWords.toInt
  | .saved k => k < l.savedCount.toInt
  | .returnAddress => l.leaf = false
  | .param i => i < f.params.length

def Part.place (f : Symbol) (l : Frame.Layout) : Part → Extent
  | .outgoing i => ⟨4 * i, 1⟩
  | .localData j =>
    ⟨4 * (l.outgoingSlots.toInt + wordCounts (f.locals.take j)), (f.locals[j]?.map Decl.wordCount).getD 1⟩
  | .spare i => ⟨4 * (l.outgoingSlots.toInt + wordCounts f.locals + i), 1⟩
  | .saved k => ⟨4 * (l.outgoingSlots.toInt + l.localWords.toInt + k), 1⟩
  | .returnAddress => ⟨4 * (l.totalWords.toInt - 1), 1⟩
  | .param i => ⟨4 * (l.totalWords.toInt + i), 1⟩

/-- Parts of one kind make up a region of the frame. The regions lie one above the other. -/
def Part.region : Part → Nat
  | .outgoing _ => 0
  | .localData _ => 1
  | .spare _ => 2
  | .saved _ => 3
  | .returnAddress => 4
  | .param _ => 5

/-- Where a region starts, and the one below it ends. -/
def boundary (f : Symbol) (l : Frame.Layout) : Nat → Int
  | 0 => 0
  | 1 => 4 * l.outgoingSlots.toInt
  | 2 => 4 * (l.outgoingSlots.toInt + wordCounts f.locals)
  | 3 => 4 * (l.outgoingSlots.toInt + l.localWords.toInt)
  | 4 => 4 * (l.outgoingSlots.toInt + l.localWords.toInt + l.savedCount.toInt)
  | 5 => 4 * l.totalWords.toInt
  | _ => 4 * (l.totalWords.toInt + f.params.length)

variable {f : Symbol} {l : Frame.Layout}

theorem Measured.boundary_mono (measured : Measured f l) {i j : Nat} (below : i ≤ j) :
    boundary f l i ≤ boundary f l j := by
  obtain ⟨outgoing, room, saved, bit, covers, _⟩ := measured.counts
  have next (i : Nat) : boundary f l i ≤ boundary f l (i + 1) := by
    match i with
    | 0 | 1 | 2 | 3 | 4 | 5 | _ + 6 =>
      simp only [boundary]
      omega
  induction below with
  | refl => exact Int.le_refl _
  | step _ ih => exact Int.le_trans ih (next _)

theorem wordCounts_append (ds es : List Decl) : wordCounts (ds ++ es) = wordCounts ds + wordCounts es := by
  simp [wordCounts]

theorem wordCounts_take_succ {ds : List Decl} {j : Nat} {d : Decl} (found : ds[j]? = some d) :
    wordCounts (ds.take (j + 1)) = wordCounts (ds.take j) + d.wordCount := by
  rw [List.take_add_one, found, wordCounts_append]
  simp [wordCounts]

theorem wordCounts_take_mono (ds : List Decl) {j k : Nat} (less : j ≤ k) :
    wordCounts (ds.take j) ≤ wordCounts (ds.take k) := by
  have split := List.take_append_drop j (ds.take k)
  rw [List.take_take, Nat.min_eq_left less] at split
  rw [← split, wordCounts_append]
  exact Nat.le_add_right _ _

theorem wordCounts_take_le (ds : List Decl) (j : Nat) : wordCounts (ds.take j) ≤ wordCounts ds := by
  rw [← List.take_append_drop j ds, wordCounts_append, List.take_append_drop]
  exact Nat.le_add_right _ _

/-- A part lies inside of its region. -/
theorem Measured.place_region {p : Part} (measured : Measured f l) (within : p.Within f l) :
    boundary f l p.region ≤ (p.place f l).start ∧ (p.place f l).stop ≤ boundary f l (p.region + 1) ∧
      (p.place f l).start % 4 = 0 ∧ 0 < (p.place f l).words := by
  obtain ⟨_, room, saved, _, covers, _⟩ := measured.counts
  cases p with
  | localData j =>
    have bound : j < f.locals.length := within
    have found := List.getElem?_eq_getElem bound
    have next := wordCounts_take_succ found
    have inside := wordCounts_take_le f.locals (j + 1)
    have some := f.locals[j].wordCount_pos
    simp only [Part.region, Part.place, boundary, Extent.stop, found, Option.map_some, Option.getD_some]
    omega
  | returnAddress =>
    have calls : l.leaf = false := within
    simp only [calls, Bool.false_eq_true, if_false] at covers
    simp only [Part.region, Part.place, boundary, Extent.stop]
    omega
  | _ =>
    simp only [Part.region, Part.place, Part.Within, boundary, Extent.stop] at *
    omega

/-- A region above another starts where the other has ended. -/
theorem Measured.place_below {p q : Part} (measured : Measured f l) (left : p.Within f l)
    (right : q.Within f l) (below : p.region < q.region) : (p.place f l).stop ≤ (q.place f l).start := by
  obtain ⟨_, high, _, _⟩ := measured.place_region left
  obtain ⟨low, _, _, _⟩ := measured.place_region right
  have between := measured.boundary_mono below
  rw [Nat.succ_eq_add_one] at between
  omega

/-- Two parts of a frame have no word in common. -/
theorem Measured.place_apart {p q : Part} (measured : Measured f l) (left : p.Within f l)
    (right : q.Within f l) (other : p ≠ q) : (p.place f l).Apart (q.place f l) := by
  rcases Nat.lt_trichotomy p.region q.region with below | same | above
  · exact .inl (measured.place_below left right below)
  · -- parts of one region lie in the order of their numbers
    cases p <;> cases q <;> simp only [Part.region, reduceCtorEq] at same
    case localData.localData j k =>
      have first := wordCounts_take_succ (List.getElem?_eq_getElem left)
      have second := wordCounts_take_succ (List.getElem?_eq_getElem right)
      have distinct : j ≠ k := fun same => other (same ▸ rfl)
      simp only [Extent.Apart, Extent.stop, Part.place, List.getElem?_eq_getElem left,
        List.getElem?_eq_getElem right, Option.map_some, Option.getD_some]
      rcases Nat.lt_or_gt_of_ne distinct with less | more
      · have := wordCounts_take_mono f.locals (show j + 1 ≤ k from less)
        omega
      · have := wordCounts_take_mono f.locals (show k + 1 ≤ j from more)
        omega
    case returnAddress.returnAddress => exact absurd rfl other
    all_goals
      simp only [ne_eq, Part.outgoing.injEq, Part.spare.injEq, Part.saved.injEq, Part.param.injEq] at other
      simp only [Extent.Apart, Extent.stop, Part.place]
      omega
  · exact .inr (measured.place_below right left above)

/-- All parts but the parameters lie below the words of the caller. -/
theorem Measured.place_framed {p : Part} (measured : Measured f l) (within : p.Within f l)
    (framed : ∀ i, p ≠ .param i) :
    0 ≤ (p.place f l).start ∧ (p.place f l).stop ≤ 4 * l.totalWords.toInt := by
  obtain ⟨low, high, _, _⟩ := measured.place_region within
  have few : p.region + 1 ≤ 5 := by
    cases p with
    | param i => exact absurd rfl (framed i)
    | _ => simp [Part.region]
  have bottom : 0 ≤ boundary f l p.region := measured.boundary_mono (Nat.zero_le _)
  have top : _ ≤ 4 * l.totalWords.toInt := measured.boundary_mono few
  omega

/-! Where the generator has them -/

theorem placeLocals_getElem? {w : Int64} {ds : List Decl} {j : Nat} {d : Decl} (found : ds[j]? = some d) :
    (placeLocals l w ds)[j]? =
      some (d, l.localOffset ((ds.take j).foldl (fun n d => n + d.words) w)) := by
  induction ds generalizing w j with
  | nil => simp at found
  | cons x ds ih =>
    cases j with
    | zero =>
      cases Option.some.inj found
      rfl
    | succ j => exact ih found

/-- The offset of a local counts the words of those before it. -/
theorem Measured.localOffset_eq (measured : Measured f l) {j : Nat} {d : Decl}
    (found : f.locals[j]? = some d) :
    ∃ o, (Codegen.placeLocals l 0 f.locals)[j]? = some (d, o) ∧
      o.toInt = ((Part.localData j).place f l).start ∧
      ((Part.localData j).place f l).words = d.words.toInt.toNat := by
  obtain ⟨outgoing, room, saved, bit, covers, top⟩ := measured.counts
  have inside := wordCounts_take_le f.locals j
  have countable : ∀ d ∈ f.locals, d.isCountable := isCountable_of_wordCounts (by omega)
  have zero : (0 : Int64).toInt = 0 := rfl
  have count := toInt_foldl_words (n := 0)
    (fun d (member : d ∈ f.locals.take j) => countable d (List.mem_of_mem_take member)) (by omega)
  refine ⟨_, placeLocals_getElem? found, ?_, ?_⟩
  · rw [measured.toInt_localOffset (by omega) (by omega), count, zero, Int.zero_add]
    rfl
  · have words := Decl.toInt_words (countable d (List.mem_of_getElem? found))
    simp only [Part.place, found, Option.map_some, Option.getD_some, words, Int.toNat_natCast]

/-- How the arrays of a function are addressed. -/
def arrayPlaces (l : Frame.Layout) (f : Symbol) : List (String × ArrayPlace) :=
  ((placeParams l f.params).filter (·.1.isArray)).map (fun (d, _) => (d.name, .pointer)) ++
    ((placeLocals l 0 f.locals).partition (·.1.isArray)).1.map fun (d, offset) => (d.name, .frame offset)

/-- Every array of a function has a place. -/
theorem map_arrayPlaces (l : Frame.Layout) (f : Symbol) :
    (arrayPlaces l f).map Prod.fst =
      (f.params.filter (·.isArray) ++ f.locals.filter (·.isArray)).map Decl.name := by
  have params : ((placeParams l f.params).filter (·.1.isArray)).map Prod.fst =
      f.params.filter (·.isArray) := by
    have mapped : (placeParams l f.params).map Prod.fst = f.params := by
      simp [placeParams, Function.comp_def]
    have filtered : ((placeParams l f.params).map Prod.fst).filter (·.isArray) = _ := List.filter_map
    rw [mapped] at filtered
    rw [filtered]
    rfl
  have locals : ((placeLocals l 0 f.locals).filter (·.1.isArray)).map Prod.fst =
      f.locals.filter (·.isArray) := by
    have filtered : ((placeLocals l 0 f.locals).map Prod.fst).filter (·.isArray) = _ := List.filter_map
    rw [map_placeLocals] at filtered
    rw [filtered]
    rfl
  rw [← params, ← locals]
  simp only [arrayPlaces, List.partition_eq_filter_filter, List.map_append, List.map_map]
  rfl

theorem map_arrayPlaces_sublist (l : Frame.Layout) (f : Symbol) :
    ((arrayPlaces l f).map Prod.fst).Sublist ((f.params ++ f.locals).map Decl.name) := by
  rw [map_arrayPlaces]
  exact (List.filter_sublist.append List.filter_sublist).map Decl.name

theorem lookup_of_nodup {α : Type} {xs : List (String × α)} {k : String} {v : α}
    (nodup : (xs.map Prod.fst).Nodup) (member : (k, v) ∈ xs) : xs.lookup k = some v := by
  induction xs with
  | nil => contradiction
  | cons x xs ih =>
    obtain ⟨fresh, nodup⟩ := List.nodup_cons.mp nodup
    rcases List.mem_cons.mp member with rfl | member
    · simp
    · have other : k ≠ x.1 := fun same => fresh (same ▸ List.mem_map_of_mem member)
      rw [List.lookup_cons, beq_eq_false_iff_ne.mpr other]
      exact ih nodup member

/-- A local array is at its place. -/
theorem arrayPlaces_lookup {j : Nat} {d : Decl} {o : Int64}
    (names : ((f.params ++ f.locals).map Decl.name).Nodup) (array : d.isArray = true)
    (placed : (placeLocals l 0 f.locals)[j]? = some (d, o)) :
    (arrayPlaces l f).lookup d.name = some (.frame o) := by
  refine lookup_of_nodup (names.sublist (map_arrayPlaces_sublist l f)) (List.mem_append_right _ ?_)
  rw [List.partition_eq_filter_filter]
  exact List.mem_map.mpr ⟨(d, o), List.mem_filter.mpr ⟨List.mem_of_getElem? placed, array⟩, rfl⟩

/-- The arrays of a procedure stay where they are. -/
def State.Arranged : State → Prop
  | .idle _ => True
  | .inside b => b.arrays = arrayPlaces b.layout b.function

theorem stateAt_arranged {options : Options} {table : Scope} {code : List Quad} {n : Nat} {st : State}
    (reached : stateAt options table code n = .ok st) : st.Arranged := by
  refine (stateAt_induction (P := fun st => st.Consistent ∧ st.Arranged) ⟨trivial, trivial⟩ ?_ reached).2
  rintro n x st st' ⟨consistent, arranged⟩ steps
  refine ⟨step_consistent consistent steps, ?_⟩
  cases step_stepped steps with
  | nop => exact arranged
  | outside => trivial
  | entry _ entered =>
    obtain ⟨f, l, entered⟩ := enter_ok entered
    rw [entered.start]
    rfl
  | exit => trivial
  | @lower x b c real plain lowers =>
    have same := lower_frame (b := { b with reserved := [], returned := false }) consistent lowers
    change c.arrays = arrayPlaces c.layout c.function
    rw [same.arrays, same.layout, same.function]
    exact arranged

/-- The part has these words in the descriptors of the generator. -/
inductive Occupies (b : Body) : Part → Extent → Prop
  | outgoing {i : Nat} :
      i < b.layout.outgoingSlots.toInt →
      Occupies b (.outgoing i) ⟨(b.layout.outgoingOffset (Int64.ofNat i)).toInt, 1⟩
  | scalar {j : Nat} {d : Decl} {v : Var} {e : Entry Mem} {o : Int} :
      b.function.locals[j]? = some d → d.isArray = false → b.store.Has v e → e.name = d.name →
      e.home = some (.offset o .sp) → Occupies b (.localData j) ⟨o, 1⟩
  | array {j : Nat} {d : Decl} {o : Int64} :
      b.function.locals[j]? = some d → d.isArray = true → b.arrays.lookup d.name = some (.frame o) →
      Occupies b (.localData j) ⟨o.toInt, d.words.toInt.toNat⟩
  | spare {i : Nat} {o : Int} :
      b.spare.first.toInt + i < b.spare.limit.toInt → spareWord b i = .offset o .sp →
      Occupies b (.spare i) ⟨o, 1⟩
  | saved {k : Nat} {r : MachineReg} {o : Int} :
      (saveSlots b.layout)[k]? = some (r, .offset o .sp) → Occupies b (.saved k) ⟨o, 1⟩
  | returnAddress {r : MachineReg} {o : Int} :
      (r, .offset o .sp) ∈ returnSlots b.layout → Occupies b .returnAddress ⟨o, 1⟩
  | param {i : Nat} {d : Decl} {v : Var} {e : Entry Mem} {o : Int} :
      b.function.params[i]? = some d → b.store.Has v e → e.name = d.name →
      e.home = some (.offset o .sp) → Occupies b (.param i) ⟨o, 1⟩

/-- What the generator knows of a procedure whose frame is measured. -/
structure Surveyed (table : Scope) (b : Body) : Prop where
  measured : Measured b.function b.layout
  names : ((b.function.params ++ b.function.locals).map Decl.name).Nodup
  housed : Housed table b
  arrays : b.arrays = arrayPlaces b.layout b.function
  limit : b.spare.limit = b.layout.localWords
  roomy : Roomy b.spare

variable {table : Scope} {b : Body}

/-- The home of a declared name is the word that was placed for it. -/
theorem Surveyed.home (surveyed : Surveyed table b) {x : Decl × Int64} {v : Var} {e : Entry Mem} {h : Mem}
    (placed : x ∈ scalarPlaces b.layout b.function) (known : b.store.Has v e) (named : e.name = x.1.name)
    (home : e.home = some h) : h = frameWord x.2 := by
  have declared : placeOf table b.function e.name = .frame e.name := by
    rw [placeOf_eq_frame, ← map_scalarPlaces b.layout b.function, named, List.map_map]
    exact List.mem_map_of_mem (f := Decl.name ∘ Prod.fst) placed
  obtain ⟨t, slot, rfl⟩ := surveyed.housed.home v e h known home
  rw [← word_declared surveyed.names placed, ← named]
  cases slot with
  | declared => rfl
  | global other => cases declared.symm.trans other
  | spare other => cases declared.symm.trans other

theorem mem_scalarPlaces_param {i : Nat} {d : Decl} (found : f.params[i]? = some d) :
    (d, l.paramOffset (Int64.ofNat i)) ∈ scalarPlaces l f :=
  List.mem_append_left _ (List.mem_map.mpr ⟨(d, i), List.mk_mem_zipIdx_iff_getElem?.mpr found, rfl⟩)

theorem mem_scalarPlaces_local {j : Nat} {d : Decl} {o : Int64} (scalar : d.isArray = false)
    (placed : (placeLocals l 0 f.locals)[j]? = some (d, o)) : (d, o) ∈ scalarPlaces l f := by
  refine List.mem_append_right _ ?_
  rw [List.partition_eq_filter_filter]
  exact List.mem_filter.mpr ⟨List.mem_of_getElem? placed, by simp [scalar]⟩

theorem Measured.spare_word (measured : Measured f l) {i : Nat}
    (room : wordCounts f.locals + i < l.localWords.toInt) :
    (Slot.spare i).word f l = .offset ((Part.spare i).place f l).start .sp := by
  obtain ⟨slots, _, bounds, bit, covers, top⟩ := measured.counts
  have count := Int64.toInt_ofNat_of_lt (n := i) (by omega)
  have sum := toInt_add_of_le (x := totalWords f.locals) (y := Int64.ofNat i)
    (by rw [measured.locals]; omega) (by rw [measured.locals]; omega)
  rw [measured.locals, count] at sum
  have offset := measured.toInt_localOffset (w := totalWords f.locals + Int64.ofNat i)
    (by omega) (by omega)
  rw [sum, ← Int.add_assoc] at offset
  rw [Slot.word, frameWord, offset]
  rfl

theorem Surveyed.spareWord_eq (surveyed : Surveyed table b) {i : Nat}
    (room : b.spare.first.toInt + i < b.spare.limit.toInt) :
    spareWord b i = .offset ((Part.spare i).place b.function b.layout).start .sp := by
  rw [surveyed.housed.first, surveyed.measured.locals, surveyed.limit] at room
  rw [← surveyed.measured.spare_word room, spareWord, surveyed.housed.first]
  rfl

theorem saveSlots_getElem? {k : Nat} {x : MachineReg × Mem} :
    (saveSlots l)[k]? = some x ↔ ∃ r, Reg.savedRegs[k]? = some r ∧ k < l.savedCount.toInt ∧
      x = (.pool r, frameWord (l.saveOffset (Int64.ofNat k))) := by
  simp only [saveSlots, List.getElem?_map, List.getElem?_zipIdx, List.getElem?_take]
  split
  · rename_i few
    have less : (k : Int) < l.savedCount.toInt := by omega
    cases Reg.savedRegs[k]? <;> simp [less, eq_comm]
  · rename_i many
    have more : ¬ (k : Int) < l.savedCount.toInt := by omega
    simp [more]

/-- Every part is where it belongs. -/
theorem Surveyed.occupies {p : Part} {x : Extent} (surveyed : Surveyed table b) (occupies : Occupies b p x) :
    p.Within b.function b.layout ∧ x = p.place b.function b.layout := by
  have measured := surveyed.measured
  cases occupies with
  | outgoing few =>
    obtain ⟨_, room, saved, bit, covers, top⟩ := measured.counts
    refine ⟨few, ?_⟩
    rw [toInt_outgoingOffset (by omega)]
    rfl
  | @scalar j d v e o found single known named home =>
    obtain ⟨bound, _⟩ := List.getElem?_eq_some_iff.mp found
    obtain ⟨o', placed, offset, words⟩ := measured.localOffset_eq found
    have same := surveyed.home (mem_scalarPlaces_local single placed) known named home
    have one : d.words.toInt.toNat = 1 := by simp [Decl.words, storageWords, single]
    rw [frameWord, Mem.offset.injEq, offset] at same
    exact ⟨bound, by rw [same.1, ← words.trans one]⟩
  | @array j d o found several looked =>
    obtain ⟨bound, _⟩ := List.getElem?_eq_some_iff.mp found
    obtain ⟨o', placed, offset, words⟩ := measured.localOffset_eq found
    rw [surveyed.arrays, arrayPlaces_lookup surveyed.names several placed] at looked
    cases Option.some.inj looked
    exact ⟨bound, by rw [offset, ← words]⟩
  | @spare i o room word =>
    rw [surveyed.spareWord_eq room, Mem.offset.injEq] at word
    rw [surveyed.housed.first, measured.locals, surveyed.limit] at room
    exact ⟨room, by rw [← word.1]; rfl⟩
  | @saved k r o slot =>
    obtain ⟨q, _, few, same⟩ := saveSlots_getElem?.mp slot
    rw [Prod.mk.injEq, frameWord, measured.toInt_saveOffset few, Mem.offset.injEq] at same
    exact ⟨few, by rw [same.2.1]; rfl⟩
  | @returnAddress r o slot =>
    unfold returnSlots at slot
    split at slot
    · contradiction
    · rename_i calls
      have same := (Prod.mk.inj (List.mem_singleton.mp slot)).2
      rw [frameWord, Mem.offset.injEq, measured.toInt_returnOffset] at same
      exact ⟨eq_false_of_ne_true calls, by rw [same.1]; rfl⟩
  | @param i d v e o found known named home =>
    obtain ⟨bound, _⟩ := List.getElem?_eq_some_iff.mp found
    have same := surveyed.home (mem_scalarPlaces_param found) known named home
    rw [frameWord, Mem.offset.injEq, measured.toInt_paramOffset bound] at same
    exact ⟨bound, by rw [same.1]; rfl⟩

theorem Surveyed.declared_home (surveyed : Surveyed table b) {x : Decl × Int64}
    (placed : x ∈ scalarPlaces b.layout b.function) :
    ∃ v e, b.store.Has v e ∧ e.name = x.1.name ∧ e.home = some (frameWord x.2) := by
  have declared : x.1.name ∈ (scalarDecls b.function).map Decl.name := by
    rw [← map_scalarPlaces b.layout b.function, List.map_map]
    exact List.mem_map_of_mem (f := Decl.name ∘ Prod.fst) placed
  obtain ⟨v, e, known, named, homed⟩ := surveyed.housed.declared x.1.name declared
  obtain ⟨h, home⟩ := Option.isSome_iff_exists.mp homed
  exact ⟨v, e, known, named, surveyed.home placed known named home ▸ home⟩

/-- Every part that a frame has is there. -/
theorem Surveyed.exists_occupies {p : Part} (surveyed : Surveyed table b)
    (within : p.Within b.function b.layout) : ∃ x, Occupies b p x := by
  have measured := surveyed.measured
  cases p with
  | outgoing i => exact ⟨_, .outgoing within⟩
  | localData j =>
    have bound : j < b.function.locals.length := within
    have found := List.getElem?_eq_getElem bound
    obtain ⟨o, placed, _⟩ := measured.localOffset_eq found
    cases several : b.function.locals[j].isArray with
    | true =>
      refine ⟨_, .array found several (o := o) ?_⟩
      rw [surveyed.arrays]
      exact arrayPlaces_lookup surveyed.names several placed
    | false =>
      obtain ⟨v, e, known, named, home⟩ := surveyed.declared_home (mem_scalarPlaces_local several placed)
      exact ⟨_, .scalar found several known named home⟩
  | spare i =>
    have room : b.spare.first.toInt + i < b.spare.limit.toInt := by
      rw [surveyed.housed.first, measured.locals, surveyed.limit]
      exact within
    exact ⟨_, .spare room (surveyed.spareWord_eq room)⟩
  | saved k =>
    have few : (k : Int) < b.layout.savedCount.toInt := within
    have bounds := measured.stacked.saved
    have register := List.getElem?_eq_getElem (l := Reg.savedRegs) (i := k) (by simp [Reg.savedRegs]; omega)
    exact ⟨_, .saved (saveSlots_getElem?.mpr ⟨_, register, few, rfl⟩)⟩
  | returnAddress =>
    have calls : b.layout.leaf = false := within
    exact ⟨_, .returnAddress (r := .ra) (by simp [returnSlots, calls]; rfl)⟩
  | param i =>
    have found := List.getElem?_eq_getElem (l := b.function.params) within
    obtain ⟨v, e, known, named, home⟩ := surveyed.declared_home (mem_scalarPlaces_param found)
    exact ⟨_, .param found known named home⟩

theorem Surveyed.occupies_iff {p : Part} {x : Extent} (surveyed : Surveyed table b) :
    Occupies b p x ↔ p.Within b.function b.layout ∧ x = p.place b.function b.layout := by
  refine ⟨surveyed.occupies, ?_⟩
  rintro ⟨within, rfl⟩
  obtain ⟨x, occupies⟩ := surveyed.exists_occupies within
  exact (surveyed.occupies occupies).2 ▸ occupies

/-- The part is the home of the name. -/
def Part.IsOf (b : Body) (name : String) : Part → Prop
  | .param i => ∃ d, b.function.params[i]? = some d ∧ d.name = name
  | .localData j => ∃ d, b.function.locals[j]? = some d ∧ d.isArray = false ∧ d.name = name
  | .spare i => b.spare.owners[i]? = some name
  | _ => False

theorem Part.IsOf.injective {m n : String} {p : Part} (left : p.IsOf b m) (right : p.IsOf b n) : m = n := by
  cases p with
  | param i =>
    obtain ⟨d, found, rfl⟩ := left
    obtain ⟨e, found', rfl⟩ := right
    rw [Option.some.inj (found.symm.trans found')]
  | localData j =>
    obtain ⟨d, found, _, rfl⟩ := left
    obtain ⟨e, found', _, rfl⟩ := right
    rw [Option.some.inj (found.symm.trans found')]
  | spare i => exact Option.some.inj (Eq.trans (Eq.symm left) right)
  | _ => exact left.elim

theorem mem_scalarPlaces_cases {x : Decl × Int64} (member : x ∈ scalarPlaces l f) :
    (∃ i : Nat, f.params[i]? = some x.1) ∨ ∃ j : Nat, f.locals[j]? = some x.1 ∧ x.1.isArray = false := by
  rcases List.mem_append.mp member with param | data
  · obtain ⟨⟨d, i⟩, entry, rfl⟩ := List.mem_map.mp param
    exact .inl ⟨i, List.mk_mem_zipIdx_iff_getElem?.mp entry⟩
  · rw [List.partition_eq_filter_filter] at data
    obtain ⟨inside, scalar⟩ := List.mem_filter.mp data
    have found : x.1 ∈ (placeLocals l 0 f.locals).map Prod.fst := List.mem_map_of_mem inside
    rw [map_placeLocals] at found
    obtain ⟨j, found⟩ := List.mem_iff_getElem?.mp found
    exact .inr ⟨j, found, by simpa using scalar⟩

/-- A home in the frame is the part of its variable. -/
theorem Surveyed.home_part (surveyed : Surveyed table b) {v : Var} {e : Entry Mem} {o : Int}
    {base : MachineReg} (known : b.store.Has v e) (home : e.home = some (.offset o base)) :
    base = .sp ∧ ∃ p, p.IsOf b e.name ∧ Occupies b p ⟨o, 1⟩ := by
  obtain ⟨t, slot, word⟩ := surveyed.housed.home v e _ known home
  cases slot with
  | declared declared =>
    obtain ⟨x, placed, named, same⟩ :=
      mem_scalarPlaces_of_declared (l := b.layout) (placeOf_eq_frame.mp declared)
    have base_eq : base = .sp := (Mem.offset.inj (word.trans same)).2
    subst base_eq
    refine ⟨rfl, ?_⟩
    rcases mem_scalarPlaces_cases placed with ⟨i, found⟩ | ⟨j, found, scalar⟩
    · exact ⟨.param i, ⟨_, found, named⟩, .param found known named.symm home⟩
    · exact ⟨.localData j, ⟨_, found, scalar, named⟩, .scalar found scalar known named.symm home⟩
  | global => cases word
  | @spare i temporary owner =>
    have bound := (List.getElem?_eq_some_iff.mp owner).1
    have roomy := surveyed.roomy
    unfold Roomy at roomy
    have here : spareWord b i = .offset o base := by
      rw [spareWord, surveyed.housed.first]
      exact word.symm
    have base_eq : base = .sp := (Mem.offset.inj here).2.symm
    subst base_eq
    exact ⟨rfl, .spare i, owner, .spare (by omega) here⟩

/-- The frame of a procedure is divided among its parts. -/
structure Apportioned (b : Body) : Prop where
  /-- The generator has every part of the frame, each at its place. -/
  occupied : ∀ p x, Occupies b p x ↔
    p.Within b.function b.layout ∧ x = p.place b.function b.layout
  /-- Two parts have no word in common. -/
  apart : ∀ p q x y, Occupies b p x → Occupies b q y → p ≠ q → x.Apart y
  aligned : ∀ p x, Occupies b p x → x.start % 4 = 0 ∧ 0 < x.words
  /-- All parts but the parameters lie inside of the frame. -/
  framed : ∀ p x, Occupies b p x → (∀ i, p ≠ .param i) →
    0 ≤ x.start ∧ x.stop ≤ 4 * b.layout.totalWords.toInt
  /-- The parameters lie right above it. -/
  params : ∀ i, i < b.function.params.length →
    Occupies b (.param i) ⟨4 * (b.layout.totalWords.toInt + i), 1⟩
  /-- A parameter is the word that passes the argument in the frame of any caller, whose stack pointer
  the prologue lowers. -/
  incoming : ∀ (caller : Frame.Layout) (sp : Int) (i : Nat), i < b.function.params.length →
    sp + (-b.layout.bytes).toInt + 4 * (b.layout.totalWords.toInt + i) =
      sp + (caller.outgoingOffset (Int64.ofNat i)).toInt
  /-- The home of a variable, if it is no global one, is a part of its own. -/
  homes : ∀ v e o base, b.store.Has v e → e.home = some (.offset o base) →
    base = .sp ∧ ∃ p, p.IsOf b e.name ∧ Occupies b p ⟨o, 1⟩
  /-- Two variables have two homes. -/
  distinct : ∀ v w e e' o o', b.store.Has v e → b.store.Has w e' → v ≠ w →
    e.home = some (.offset o .sp) → e'.home = some (.offset o' .sp) → o ≠ o'

theorem Measured.toInt_neg_bytes (measured : Measured f l) :
    (-l.bytes).toInt = -(4 * l.totalWords.toInt) := by
  obtain ⟨bottom, top⟩ := measured.total_bounds
  have bytes : l.bytes.toInt = 4 * l.totalWords.toInt := toInt_wordSize_mul (by omega) (by omega)
  rw [Int64.toInt_neg, bytes, Int.bmod_eq_of_le (by omega) (by omega)]

theorem Surveyed.apportioned (surveyed : Surveyed table b) (sound : b.store.Sound) : Apportioned b := by
  have measured := surveyed.measured
  have apart (p q : Part) (x y : Extent) (left : Occupies b p x) (right : Occupies b q y) (other : p ≠ q) :
      x.Apart y := by
    obtain ⟨within, rfl⟩ := surveyed.occupies left
    obtain ⟨within', rfl⟩ := surveyed.occupies right
    exact measured.place_apart within within' other
  refine ⟨fun p x => surveyed.occupies_iff, apart, ?_, ?_, ?_, ?_,
    fun v e o base known home => surveyed.home_part known home, ?_⟩
  · intro p x occupies
    obtain ⟨within, rfl⟩ := surveyed.occupies occupies
    exact (measured.place_region within).2.2
  · intro p x occupies framed
    obtain ⟨within, rfl⟩ := surveyed.occupies occupies
    exact measured.place_framed within framed
  · exact fun i bound => surveyed.occupies_iff.mpr ⟨bound, rfl⟩
  · intro caller sp i bound
    have small := measured.small
    obtain ⟨bottom, _⟩ := measured.total_bounds
    rw [measured.toInt_neg_bytes, toInt_outgoingOffset (by omega)]
    omega
  · intro v w e e' o o' known known' other home home' same
    obtain ⟨_, p, own, occupies⟩ := surveyed.home_part known home
    obtain ⟨_, q, own', occupies'⟩ := surveyed.home_part known' home'
    have parts : p ≠ q := by
      rintro rfl
      exact other (sound.unique v w e e' known known' (own.injective own'))
    have clear := apart p q _ _ occupies occupies' parts
    simp only [Extent.Apart, Extent.stop, same] at clear
    omega

section Runs

variable {options : Options} {code : List Quad} {instrs : List Instr} {n : Nat}

theorem stateAt_surveyed {symbols : List Symbol} (built : Scope.insertAll {} symbols = .ok table)
    (reached : stateAt options table code n = .ok (.inside b))
    (range : Frame.InRange options (Frame.callSites table "" code) b.function) : Surveyed table b := by
  obtain ⟨instrs, decoded, _⟩ := except_bind_ok.mp reached
  have housed : (State.inside b).Housed table := stateAt_housed reached
  have arranged : (State.inside b).Arranged := stateAt_arranged reached
  rw [stateAt_min decoded] at reached
  have provided : (State.inside b).Provided table (Frame.plan options table code) :=
    stateAt_provided decoded (Nat.min_le_right n instrs.length) reached
  have layout := Frame.find_plan_function provided.symbol provided.function provided.frame
  have room : totalWords b.function.locals ≤ b.layout.localWords := by
    have roomy := provided.roomy
    unfold Roomy at roomy
    rw [housed.first, provided.limit] at roomy
    rw [Int64.le_iff_toInt_le]
    omega
  have member : b.function ∈ table.symbols := List.mem_of_find?_eq_some provided.symbol
  refine ⟨?_, Scope.nodup_of_insertAll built (by simp) _ member, housed, arranged, provided.limit,
    provided.roomy⟩
  rw [layout] at room ⊢
  exact range.measured room

/-- The total of a frame is even, whatever wraps around. Where nothing does, every procedure that the
generator enters has its frame divided among its parts, after each of its instructions. -/
theorem frame_apportioned :
    (∀ d : Frame.Demand, (Frame.layout d).totalWords.toInt % 2 = 0) ∧
    ∀ (options : Options) (symbols : List Symbol) (table : Scope) (code : List Quad) (n : Nat) (b : Body),
      Scope.insertAll {} symbols = .ok table → stateAt options table code n = .ok (.inside b) →
      Frame.InRange options (Frame.callSites table "" code) b.function → Apportioned b := by
  refine ⟨Frame.layout_even, fun options symbols table code n b built reached range => ?_⟩
  have consistent : (State.inside b).Consistent := stateAt_consistent reached
  exact (stateAt_surveyed built reached range).apportioned consistent.sound

end Runs

/-- A function with parameters, arrays and a scalar, that calls one with five parameters. -/
def dividedFunction : Symbol :=
  { name := "f", kind := .function
    params := [{ name := "p" }, { name := "q", size := 40, isArray := true }]
    locals := [{ name := "a", size := 10, isArray := true }, { name := "x" },
      { name := "c", size := 12, isArray := true }] }

def dividedSymbols : List Symbol :=
  [{ name := "h", kind := .function,
     params := [{ name := "p" }, { name := "q" }, { name := "r" }, { name := "s" }, { name := "t" }] },
   dividedFunction]

/-- Four temporaries are kept across the call: three in saved registers, one in a spare word. -/
def dividedCode : List Quad :=
  Quad.numberedFrom 0 [
    { op := "label", arg1 := "func_f" },
    { op := "+", arg1 := "p", arg2 := "1", res := "t1" },
    { op := "+", arg1 := "p", arg2 := "2", res := "t2" },
    { op := "+", arg1 := "p", arg2 := "3", res := "t3" },
    { op := "+", arg1 := "p", arg2 := "4", res := "t4" },
    { op := "param", arg1 := "p" },
    { op := "param", arg1 := "t1" },
    { op := "param", arg1 := "t2" },
    { op := "param", arg1 := "t3" },
    { op := "param", arg1 := "t4" },
    { op := "call", arg1 := "h", res := "x" },
    { op := "+", arg1 := "t1", arg2 := "t2", res := "x" },
    { op := "+", arg1 := "t3", arg2 := "t4", res := "x" },
    { op := "return", arg1 := "x" },
    { op := "label", arg1 := "end_f" }]

theorem frame_apportioned_divided :
    ∃ b, stateAt {} ⟨dividedSymbols⟩ dividedCode 11 = .ok (.inside b) ∧ Apportioned b := by
  have inside : insideWith (·.function = dividedFunction) (stateAt {} ⟨dividedSymbols⟩ dividedCode 11) =
      true := by
    decide +kernel
  have built : Scope.insertAll {} dividedSymbols = .ok ⟨dividedSymbols⟩ := by rfl
  have range : Frame.InRange {} (Frame.callSites ⟨dividedSymbols⟩ "" dividedCode) dividedFunction := by
    decide +kernel
  obtain ⟨b, reached, function⟩ := exists_of_insideWith inside
  exact ⟨b, reached, frame_apportioned.2 {} dividedSymbols ⟨dividedSymbols⟩ dividedCode 11 b built reached
    (of_decide_eq_true function ▸ range)⟩

end Codegen

end ThreeAddress
