import ThreeAddress.Proofs.Frames

/-! The words of a frame are apart. Sizes are counted in wrapping arithmetic, so this holds of frames
whose sizes do not wrap around and that fit into memory. -/
namespace ThreeAddress

/-! Counts that do not wrap around -/

theorem toInt_add_of_le {x y : Int64} (low : -2 ^ 63 ≤ x.toInt + y.toInt)
    (high : x.toInt + y.toInt < 2 ^ 63) : (x + y).toInt = x.toInt + y.toInt := by
  rw [Int64.toInt_add, Int.bmod_eq_of_le (by omega) (by omega)]

theorem toInt_wordSize_mul {x : Int64} (low : -2 ^ 61 ≤ x.toInt) (high : x.toInt < 2 ^ 61) :
    (wordSize * x).toInt = 4 * x.toInt := by
  have four : wordSize.toInt = 4 := rfl
  rw [Int64.toInt_mul, four, Int.bmod_eq_of_le (by omega) (by omega)]

theorem toInt_and_one (x : Int64) : (x &&& 1).toInt = x.toInt % 2 := by
  have bit : (x &&& 1).toBitVec.toNat = x.toBitVec.toNat % 2 := by
    rw [Int64.toBitVec_and, BitVec.toNat_and]
    exact Nat.and_one_is_mod _
  have bound := x.toBitVec.isLt
  change (x &&& 1).toBitVec.toInt = x.toBitVec.toInt % 2
  rw [BitVec.toInt_eq_toNat_cond, BitVec.toInt_eq_toNat_cond, bit]
  split <;> split <;> omega

/-- The words that a variable takes. -/
def Decl.wordCount (d : Decl) : Nat :=
  if !d.isArray || d.size ≤ wordSize then 1 else ((d.size.toInt + 3) / 4).toNat

def wordCounts (ds : List Decl) : Nat := (ds.map Decl.wordCount).sum

theorem Decl.wordCount_pos (d : Decl) : 0 < d.wordCount := by
  unfold wordCount
  split
  · decide
  · rename_i large
    simp only [Bool.or_eq_true, decide_eq_true_eq, not_or] at large
    have four : wordSize.toInt = 4 := rfl
    have size := large.2
    rw [Int64.le_iff_toInt_le, four] at size
    omega

/-- The size of the variable can be rounded up to whole words. -/
def Decl.isCountable (d : Decl) : Prop := d.isArray = true → d.size.toInt + 3 < 2 ^ 63

instance (d : Decl) : Decidable d.isCountable :=
  inferInstanceAs (Decidable (d.isArray = true → d.size.toInt + 3 < 2 ^ 63))

theorem Decl.isCountable_of_wordCount {d : Decl} (small : d.wordCount < 2 ^ 61) : d.isCountable := by
  intro array
  unfold wordCount at small
  split at small
  · rename_i one
    have size : d.size ≤ wordSize := by simpa [array] using one
    have four : wordSize.toInt = 4 := rfl
    rw [Int64.le_iff_toInt_le, four] at size
    omega
  · omega

theorem Decl.toInt_words {d : Decl} (countable : d.isCountable) : d.words.toInt = d.wordCount := by
  unfold words storageWords wordCount
  split
  · rfl
  · rename_i large
    simp only [Bool.or_eq_true, decide_eq_true_eq, not_or, Bool.not_eq_true', Bool.not_eq_false] at large
    have four : wordSize.toInt = 4 := rfl
    have small := countable large.1
    have size := large.2
    rw [Int64.le_iff_toInt_le, four] at size
    have padded : (d.size + wordSize - 1).toInt = d.size.toInt + 3 := by
      have three : (3 : Int64).toInt = 3 := rfl
      rw [show d.size + wordSize - 1 = d.size + 3 by rw [Int64.sub_eq_add_neg, Int64.add_assoc]; rfl,
        toInt_add_of_le (by omega) (by omega), three]
    rw [Int64.toInt_div, padded, four, Int.tdiv_eq_ediv_of_nonneg (by omega),
      Int.bmod_eq_of_le (by omega) (by omega)]
    omega

theorem toInt_foldl_words {ds : List Decl} {n : Int64} (countable : ∀ d ∈ ds, d.isCountable)
    (small : n.toInt + wordCounts ds < 2 ^ 63) :
    (ds.foldl (fun n d => n + d.words) n).toInt = n.toInt + wordCounts ds := by
  induction ds generalizing n with
  | nil => simp [wordCounts]
  | cons d ds ih =>
    have split : wordCounts (d :: ds) = d.wordCount + wordCounts ds := by simp [wordCounts]
    have words := Decl.toInt_words (countable d (by simp))
    have bottom := n.le_toInt
    have next := toInt_add_of_le (x := n) (y := d.words) (by omega) (by omega)
    rw [List.foldl_cons, ih (fun d member => countable d (by simp [member])) (by omega), next, words, split]
    omega

theorem toInt_totalWords {ds : List Decl} (countable : ∀ d ∈ ds, d.isCountable)
    (small : wordCounts ds < 2 ^ 63) : (totalWords ds).toInt = wordCounts ds := by
  have sum : (totalWords ds).toInt = (0 : Int64).toInt + wordCounts ds :=
    toInt_foldl_words countable (by rw [Int64.toInt_zero]; omega)
  simpa using sum

theorem wordCount_le_wordCounts {d : Decl} {ds : List Decl} (member : d ∈ ds) :
    d.wordCount ≤ wordCounts ds := by
  induction ds with
  | nil => contradiction
  | cons x ds ih =>
    simp only [wordCounts, List.map_cons, List.sum_cons]
    rcases List.mem_cons.mp member with rfl | member
    · omega
    · exact Nat.le_add_left_of_le (ih member)

theorem isCountable_of_wordCounts {ds : List Decl} (small : wordCounts ds < 2 ^ 61) :
    ∀ d ∈ ds, d.isCountable := by
  intro d member
  have less := wordCount_le_wordCounts member
  exact Decl.isCountable_of_wordCount (by omega)

/-! Sizes of frames -/

namespace Frame

/-- The parts of a frame lie one above the other, with at most a word of padding. -/
structure Layout.Stacked (l : Layout) : Prop where
  outgoing : 0 ≤ l.outgoingSlots.toInt
  saved : 0 ≤ l.savedCount.toInt ∧ l.savedCount.toInt ≤ 8
  covers : l.outgoingSlots.toInt + l.localWords.toInt + 2 * l.savedCount.toInt +
    (if l.leaf then 0 else 1) ≤ l.totalWords.toInt
  padded : l.totalWords.toInt ≤ l.outgoingSlots.toInt + l.localWords.toInt + 2 * l.savedCount.toInt +
    (if l.leaf then 0 else 1) + 1

theorem Layout.Stacked.total_le {l : Layout} (stacked : l.Stacked) :
    l.totalWords.toInt ≤ l.outgoingSlots.toInt + l.localWords.toInt + 18 := by
  have saved := stacked.saved
  have padded := stacked.padded
  have bit : (if l.leaf then 0 else 1 : Int) ≤ 1 := by
    split <;> omega
  omega

theorem toInt_outgoingSlots (d : Demand) : (layout d).outgoingSlots.toInt =
    if d.leaf then 0 else max 4 d.maxCalleeParams.toInt := by
  have four : minOutgoing.toInt = 4 := rfl
  simp only [layout]
  split
  · rfl
  · rw [show max minOutgoing d.maxCalleeParams =
      if minOutgoing ≤ d.maxCalleeParams then d.maxCalleeParams else minOutgoing from rfl]
    split <;> rename_i less <;> rw [Int64.le_iff_toInt_le] at less <;> omega

theorem outgoingSlots_nonneg (d : Demand) : 0 ≤ (layout d).outgoingSlots.toInt := by
  rw [toInt_outgoingSlots]
  split <;> omega

/-- The subtraction never wraps around, as only many words are reduced. -/
theorem toInt_savedCount (d : Demand) : (layout d).savedCount.toInt =
    if d.entry = false ∧ 10 < d.localWords.toInt then min 8 (d.localWords.toInt - 8) else 0 := by
  have ten : saveThreshold.toInt = 10 := rfl
  have eight : (8 : Int64).toInt = 8 := rfl
  have top : maxSaved.toInt = 8 := rfl
  have range := d.localWords.toInt_lt
  have saves : (!d.entry && d.localWords > saveThreshold) = true ↔
      d.entry = false ∧ 10 < d.localWords.toInt := by
    rw [Bool.and_eq_true, Bool.not_eq_true', decide_eq_true_eq, GT.gt, Int64.lt_iff_toInt_lt, ten]
  simp only [layout, saves]
  split
  · rename_i many
    have left : (d.localWords - 8).toInt = d.localWords.toInt - 8 := by
      rw [Int64.toInt_sub, eight, Int.bmod_eq_of_le (by omega) (by omega)]
    rw [show min maxSaved (d.localWords - 8) =
      if maxSaved ≤ d.localWords - 8 then maxSaved else d.localWords - 8 from rfl]
    split <;> rename_i less <;> rw [Int64.le_iff_toInt_le] at less <;> omega
  · rfl

theorem savedCount_bounds (d : Demand) :
    0 ≤ (layout d).savedCount.toInt ∧ (layout d).savedCount.toInt ≤ 8 := by
  rw [toInt_savedCount]
  split <;> omega

theorem layout_stacked {d : Demand} (nonneg : 0 ≤ d.localWords.toInt)
    (small : d.localWords.toInt + (layout d).outgoingSlots.toInt < 2 ^ 61) : (layout d).Stacked := by
  have outgoing := outgoingSlots_nonneg d
  have saved := savedCount_bounds d
  let ret : Int64 := if (layout d).leaf then 0 else 1
  let sum := ret + (layout d).localWords + 2 * (layout d).savedCount + (layout d).outgoingSlots
  have total : (layout d).totalWords = sum + (sum &&& 1) := rfl
  have words : (layout d).localWords = d.localWords := rfl
  have one : ret.toInt = if (layout d).leaf then 0 else 1 := by
    simp only [ret]
    split <;> rfl
  have bit : 0 ≤ ret.toInt ∧ ret.toInt ≤ 1 := by
    rw [one]
    split <;> omega
  have twice : (2 * (layout d).savedCount).toInt = 2 * (layout d).savedCount.toInt := by
    rw [Int64.toInt_mul, show (2 : Int64).toInt = 2 from rfl,
      Int.bmod_eq_of_le (by omega) (by omega)]
  have whole : sum.toInt = (layout d).outgoingSlots.toInt + (layout d).localWords.toInt +
      2 * (layout d).savedCount.toInt + ret.toInt := by
    have first : (ret + (layout d).localWords).toInt = ret.toInt + (layout d).localWords.toInt :=
      toInt_add_of_le (by rw [words]; omega) (by rw [words]; omega)
    have second := toInt_add_of_le (x := ret + (layout d).localWords) (y := 2 * (layout d).savedCount)
      (by rw [first, twice, words]; omega) (by rw [first, twice, words]; omega)
    rw [first, twice] at second
    have third := toInt_add_of_le (y := (layout d).outgoingSlots)
      (by rw [second, words]; omega) (by rw [second, words]; omega)
    rw [second] at third
    rw [show sum.toInt = _ from third]
    omega
  have parity := toInt_and_one sum
  have rounded : (layout d).totalWords.toInt = sum.toInt + (sum &&& 1).toInt := by
    rw [total]
    exact toInt_add_of_le (by rw [whole, words]; omega) (by rw [whole, words]; omega)
  rw [one] at whole
  exact ⟨outgoing, saved, by omega, by omega⟩

/-- The total is even, also where it wraps around. -/
theorem layout_even (d : Demand) : (layout d).totalWords.toInt % 2 = 0 := by
  have even (x : Int64) : (x + (x &&& 1)).toInt % 2 = 0 := by
    have wraps := Int.bmod_def (x.toInt + x.toInt % 2) (2 ^ 64)
    rw [Int64.toInt_add, toInt_and_one]
    omega
  exact even _

/-- Every frame of a program is laid out for a function of it. -/
theorem find_ok {frames : List Layout} {name : String} {l : Layout} (found : find frames name = .ok l) :
    l ∈ frames ∧ l.name = name := by
  unfold find at found
  split at found
  · rename_i search
    cases Except.ok.inj found
    have named := List.find?_some search
    exact ⟨List.mem_of_find?_eq_some search, of_decide_eq_true named⟩
  · simp [fail] at found

theorem find_plan {options : Options} {table : Scope} {code : List Quad} {name : String} {l : Layout}
    (found : find (plan options table code) name = .ok l) :
    ∃ f, f.name = name ∧ l = layout (demand options (callSites table "" code) f) := by
  unfold find at found
  split at found
  · rename_i l' search
    cases Except.ok.inj found
    obtain ⟨f, _, same⟩ := List.mem_map.mp (List.mem_of_find?_eq_some search)
    have named := List.find?_some search
    rw [← same] at named
    exact ⟨f, of_decide_eq_true named, same.symm⟩
  · simp [fail] at found

end Frame

namespace Codegen

open Asm (Mem)

/-- No size of the frame and no offset into it wraps around. -/
structure Measured (f : Symbol) (l : Frame.Layout) : Prop where
  stacked : l.Stacked
  locals : (totalWords f.locals).toInt = wordCounts f.locals
  room : (wordCounts f.locals : Int) ≤ l.localWords.toInt
  small : 4 * (l.totalWords.toInt + (f.params.length - 1 : Nat)) < 2 ^ 63

variable {f : Symbol} {l : Frame.Layout}

/-! Offsets -/

theorem toInt_outgoingOffset {i : Nat} (small : i < 2 ^ 61) :
    (l.outgoingOffset (Int64.ofNat i)).toInt = 4 * i := by
  have count := Int64.toInt_ofNat_of_lt (n := i) (by omega)
  rw [Frame.Layout.outgoingOffset, toInt_wordSize_mul (by omega) (by omega), count]

/-- The counts of words in a frame. -/
theorem Measured.counts (measured : Measured f l) :
    0 ≤ l.outgoingSlots.toInt ∧ (wordCounts f.locals : Int) ≤ l.localWords.toInt ∧
    (0 ≤ l.savedCount.toInt ∧ l.savedCount.toInt ≤ 8) ∧ 0 ≤ (if l.leaf then 0 else 1 : Int) ∧
    l.outgoingSlots.toInt + l.localWords.toInt + 2 * l.savedCount.toInt + (if l.leaf then 0 else 1) ≤
      l.totalWords.toInt ∧
    l.totalWords.toInt < 2 ^ 61 := by
  have stacked := measured.stacked
  have small := measured.small
  have bit : (0 : Int) ≤ (if l.leaf then 0 else 1) := by
    split <;> omega
  exact ⟨stacked.outgoing, measured.room, stacked.saved, bit, stacked.covers, by omega⟩

theorem Measured.total_bounds (measured : Measured f l) :
    0 ≤ l.totalWords.toInt ∧ l.totalWords.toInt < 2 ^ 61 := by
  obtain ⟨_, _, _, _, _, top⟩ := measured.counts
  exact ⟨by omega, top⟩

theorem toInt_localOffset (outgoing : 0 ≤ l.outgoingSlots.toInt) {w : Int64} (low : 0 ≤ w.toInt)
    (high : l.outgoingSlots.toInt + w.toInt < 2 ^ 61) :
    (l.localOffset w).toInt = 4 * (l.outgoingSlots.toInt + w.toInt) := by
  have sum := toInt_add_of_le (x := l.outgoingSlots) (y := w) (by omega) (by omega)
  rw [Frame.Layout.localOffset, toInt_wordSize_mul (by omega) (by omega), sum]

theorem Measured.toInt_localOffset (measured : Measured f l) {w : Int64} (low : 0 ≤ w.toInt)
    (high : l.outgoingSlots.toInt + w.toInt < 2 ^ 61) :
    (l.localOffset w).toInt = 4 * (l.outgoingSlots.toInt + w.toInt) :=
  Codegen.toInt_localOffset measured.stacked.outgoing low high

theorem Measured.toInt_saveOffset (measured : Measured f l) {k : Nat}
    (few : (k : Int) < l.savedCount.toInt) :
    (l.saveOffset (Int64.ofNat k)).toInt = 4 * (l.outgoingSlots.toInt + l.localWords.toInt + k) := by
  obtain ⟨outgoing, room, _, bit, covers, top⟩ := measured.counts
  have count := Int64.toInt_ofNat_of_lt (n := k) (by omega)
  have first := toInt_add_of_le (x := l.outgoingSlots) (y := l.localWords) (by omega) (by omega)
  have sum := toInt_add_of_le (x := l.outgoingSlots + l.localWords) (y := Int64.ofNat k)
    (by omega) (by omega)
  rw [Frame.Layout.saveOffset, toInt_wordSize_mul (by omega) (by omega), sum, first, count]

theorem Measured.toInt_returnOffset (measured : Measured f l) :
    l.returnOffset.toInt = 4 * (l.totalWords.toInt - 1) := by
  obtain ⟨bottom, top⟩ := measured.total_bounds
  have one : (1 : Int64).toInt = 1 := rfl
  have less : (l.totalWords - 1).toInt = l.totalWords.toInt - 1 := by
    rw [Int64.toInt_sub, one, Int.bmod_eq_of_le (by omega) (by omega)]
  rw [Frame.Layout.returnOffset, toInt_wordSize_mul (by omega) (by omega), less]

theorem Measured.toInt_paramOffset (measured : Measured f l) {i : Nat} (bound : i < f.params.length) :
    (l.paramOffset (Int64.ofNat i)).toInt = 4 * (l.totalWords.toInt + i) := by
  obtain ⟨bottom, _⟩ := measured.total_bounds
  have small := measured.small
  have count := Int64.toInt_ofNat_of_lt (n := i) (by omega)
  have sum := toInt_add_of_le (x := l.totalWords) (y := Int64.ofNat i) (by omega) (by omega)
  rw [Frame.Layout.paramOffset, toInt_wordSize_mul (by omega) (by omega), sum, count]

/-- Locals lie one above the other. -/
theorem Measured.placeLocals (measured : Measured f l) {w : Int64} {ds : List Decl} (low : 0 ≤ w.toInt)
    (high : l.outgoingSlots.toInt + w.toInt + wordCounts ds < 2 ^ 61) :
    (∀ x ∈ placeLocals l w ds, 4 * (l.outgoingSlots.toInt + w.toInt) ≤ x.2.toInt ∧
      x.2.toInt < 4 * (l.outgoingSlots.toInt + w.toInt + wordCounts ds) ∧ x.2.toInt % 4 = 0) ∧
    (placeLocals l w ds).Pairwise fun x y => x.2.toInt < y.2.toInt := by
  induction ds generalizing w with
  | nil => simp [Codegen.placeLocals]
  | cons d ds ih =>
    have outgoing := measured.stacked.outgoing
    have split : wordCounts (d :: ds) = d.wordCount + wordCounts ds := by simp [wordCounts]
    have words := Decl.toInt_words (Decl.isCountable_of_wordCount (d := d) (by omega))
    have some := d.wordCount_pos
    have next := toInt_add_of_le (x := w) (y := d.words) (by omega) (by omega)
    have here := measured.toInt_localOffset low (by omega)
    obtain ⟨above, sorted⟩ := ih (w := w + d.words) (by omega) (by omega)
    refine ⟨List.forall_mem_cons.mpr ⟨by dsimp only; omega, fun x member => ?_⟩,
      List.pairwise_cons.mpr ⟨fun x member => ?_, sorted⟩⟩
    · have := above x member
      omega
    · have := above x member
      dsimp only
      omega

/-- Parameters and scalar locals have words of their own. -/
theorem Measured.scalarPlaces (measured : Measured f l) :
    (∀ x ∈ scalarPlaces l f, x.2.toInt % 4 = 0 ∧
      ((4 * l.outgoingSlots.toInt ≤ x.2.toInt ∧
          x.2.toInt < 4 * (l.outgoingSlots.toInt + wordCounts f.locals)) ∨
        (4 * l.totalWords.toInt ≤ x.2.toInt ∧
          x.2.toInt < 4 * (l.totalWords.toInt + f.params.length)))) ∧
    (scalarPlaces l f).Pairwise fun x y => x.2.toInt ≠ y.2.toInt := by
  obtain ⟨outgoing, room, saved, bit, covers, _⟩ := measured.counts
  have zero : (0 : Int64).toInt = 0 := rfl
  obtain ⟨inside, sorted⟩ : (∀ x ∈ Codegen.placeLocals l 0 f.locals, _) ∧ _ :=
    measured.placeLocals (by omega) (by omega)
  have locals (x : Decl × Int64) (member : x ∈ ((Codegen.placeLocals l 0 f.locals).partition (·.1.isArray)).2) :
      x ∈ Codegen.placeLocals l 0 f.locals := by
    rw [List.partition_eq_filter_filter] at member
    exact (List.mem_filter.mp member).1
  have params (x : Decl × Int64) (member : x ∈ placeParams l f.params) :
      ∃ i : Nat, f.params[i]? = some x.1 ∧ x.2.toInt = 4 * (l.totalWords.toInt + i) := by
    obtain ⟨⟨d, i⟩, entry, rfl⟩ := List.mem_map.mp member
    have found := List.mk_mem_zipIdx_iff_getElem?.mp entry
    exact ⟨i, found, measured.toInt_paramOffset (List.getElem?_eq_some_iff.mp found).1⟩
  constructor
  · intro x member
    rcases List.mem_append.mp member with member | member
    · obtain ⟨i, found, offset⟩ := params x member
      have bound := (List.getElem?_eq_some_iff.mp found).1
      omega
    · have := inside x (locals x member)
      omega
  · refine List.pairwise_append.mpr ⟨?_, ?_, fun x left y right => ?_⟩
    · refine List.pairwise_iff_getElem.mpr fun i j first second less => ?_
      simp only [placeParams, List.length_map, List.length_zipIdx] at first second
      simp only [placeParams, List.getElem_map, List.getElem_zipIdx, Nat.zero_add]
      rw [measured.toInt_paramOffset first, measured.toInt_paramOffset second]
      omega
    · rw [List.partition_eq_filter_filter]
      exact (sorted.filter _).imp fun less => by omega
    · obtain ⟨i, _, offset⟩ := params x left
      have := inside y (locals y right)
      omega

/-! The words of a procedure -/

/-- Where a word of the frame lies, in bytes from the stack pointer up. -/
def Slot.Lies (f : Symbol) (l : Frame.Layout) (o : Int) : Slot → Prop
  | .declared name => ∃ x ∈ scalarPlaces l f, x.1.name = name ∧ x.2.toInt = o
  | .global _ => False
  | .spare i => o = 4 * (l.outgoingSlots.toInt + wordCounts f.locals + i) ∧
      wordCounts f.locals + i < l.localWords.toInt
  | .outgoing i => o = 4 * i ∧ i < l.outgoingSlots.toInt
  | .saved k => o = 4 * (l.outgoingSlots.toInt + l.localWords.toInt + k) ∧ k < l.savedCount.toInt
  | .returnAddress => o = 4 * (l.totalWords.toInt - 1) ∧ l.leaf = false

theorem Measured.range {s : Slot} {o : Int} (measured : Measured f l) (lies : s.Lies f l o) :
    o % 4 = 0 ∧ 0 ≤ o ∧ o < 4 * (l.totalWords.toInt + f.params.length) := by
  obtain ⟨outgoing, room, saved, bit, covers, _⟩ := measured.counts
  cases s with
  | declared name =>
    obtain ⟨x, member, _, rfl⟩ := lies
    have := measured.scalarPlaces.1 x member
    omega
  | global name => exact lies.elim
  | spare i =>
    obtain ⟨rfl, _⟩ := lies
    omega
  | outgoing i =>
    obtain ⟨rfl, _⟩ := lies
    omega
  | saved k =>
    obtain ⟨rfl, _⟩ := lies
    omega
  | returnAddress =>
    obtain ⟨rfl, calls⟩ := lies
    simp only [calls, Bool.false_eq_true, if_false] at covers
    omega

/-- The word of the frame at a place. -/
def slotAt (f : Symbol) (l : Frame.Layout) (o : Int) : Slot :=
  match (scalarPlaces l f).find? (·.2.toInt = o) with
  | some x => .declared x.1.name
  | none =>
    if o < 4 * l.outgoingSlots.toInt then .outgoing (o / 4).toNat
    else if o < 4 * (l.outgoingSlots.toInt + l.localWords.toInt) then
      .spare (o / 4 - l.outgoingSlots.toInt - wordCounts f.locals).toNat
    else if o < 4 * (l.outgoingSlots.toInt + l.localWords.toInt + l.savedCount.toInt) then
      .saved (o / 4 - l.outgoingSlots.toInt - l.localWords.toInt).toNat
    else .returnAddress

theorem eq_of_pairwise_ne {α β : Type} {key : α → β} {xs : List α} {x y : α}
    (distinct : xs.Pairwise fun x y => key x ≠ key y) (left : x ∈ xs) (right : y ∈ xs)
    (same : key x = key y) : x = y := by
  obtain ⟨i, first, rfl⟩ := List.getElem_of_mem left
  obtain ⟨j, second, rfl⟩ := List.getElem_of_mem right
  have apart := List.pairwise_iff_getElem.mp distinct
  rcases Nat.lt_trichotomy i j with less | equal | more
  · exact absurd same (apart i j first second less)
  · simp [equal]
  · exact absurd same.symm (apart j i second first more)

/-- The place of a word tells which word it is. -/
theorem Measured.slotAt_eq {s : Slot} {o : Int} (measured : Measured f l) (lies : s.Lies f l o) :
    slotAt f l o = s := by
  obtain ⟨outgoing, room, saved, bit, covers, _⟩ := measured.counts
  obtain ⟨within, distinct⟩ := measured.scalarPlaces
  have undeclared (low : o < 4 * l.outgoingSlots.toInt ∨
      4 * (l.outgoingSlots.toInt + wordCounts f.locals) ≤ o) (high : o < 4 * l.totalWords.toInt) :
      (Codegen.scalarPlaces l f).find? (·.2.toInt = o) = none := by
    refine List.find?_eq_none.mpr fun x member same => ?_
    have := within x member
    rw [decide_eq_true_eq] at same
    omega
  unfold slotAt
  cases s with
  | declared name =>
    obtain ⟨x, member, rfl, rfl⟩ := lies
    cases found : (Codegen.scalarPlaces l f).find? (·.2.toInt = x.2.toInt) with
    | none => simpa using List.find?_eq_none.mp found x member
    | some y =>
      have same : y.2.toInt = x.2.toInt := by simpa using List.find?_some found
      have equal := eq_of_pairwise_ne distinct (List.mem_of_find?_eq_some found) member same
      simp only [equal]
  | global name => exact lies.elim
  | spare i =>
    obtain ⟨rfl, _⟩ := lies
    rw [undeclared (by omega) (by omega), if_neg (by omega), if_pos (by omega)]
    simp only [Slot.spare.injEq]
    omega
  | outgoing i =>
    obtain ⟨rfl, _⟩ := lies
    rw [undeclared (by omega) (by omega), if_pos (by omega)]
    simp only [Slot.outgoing.injEq]
    omega
  | saved k =>
    obtain ⟨rfl, _⟩ := lies
    rw [undeclared (by omega) (by omega), if_neg (by omega), if_neg (by omega), if_pos (by omega)]
    simp only [Slot.saved.injEq]
    omega
  | returnAddress =>
    obtain ⟨rfl, calls⟩ := lies
    simp only [calls, Bool.false_eq_true, if_false] at covers
    rw [undeclared (by omega) (by omega), if_neg (by omega), if_neg (by omega), if_neg (by omega)]

variable {A : Activation}

/-- The words that the frame and the parameters above it take at most. -/
def Activation.extent (A : Activation) : Int :=
  A.layout.outgoingSlots.toInt + A.layout.localWords.toInt + A.function.params.length + 20

/-- No count of words of the frame wraps around, and the frame is a region of memory apart from the
words of global variables. -/
structure Activation.Placed (A : Activation) : Prop where
  room : (wordCounts A.function.locals + A.spares : Int) ≤ A.layout.localWords.toInt
  outgoing : (A.outgoing : Int) ≤ A.layout.outgoingSlots.toInt
  small : A.extent ≤ 2 ^ 29
  aligned : A.sp.toNat % 4 = 0
  top : A.sp.toNat + 4 * A.extent ≤ 2 ^ 32
  data : ∀ name, isGlobalScalar A.table name = true → ∃ a, A.data name = some a ∧ a.toNat % 4 = 0 ∧
    (a.toNat < A.sp.toNat ∨ A.sp.toNat + 4 * A.extent ≤ a.toNat)
  distinct : ∀ n₁ n₂, isGlobalScalar A.table n₁ = true → isGlobalScalar A.table n₂ = true →
    A.data n₁ = A.data n₂ → n₁ = n₂

theorem Activation.Placed.measured (placed : A.Placed)
    (shape : ∃ d, A.layout = Frame.layout d) : Measured A.function A.layout := by
  obtain ⟨d, layout⟩ := shape
  have room := placed.room
  have outgoing := placed.outgoing
  have small := placed.small
  unfold Activation.extent at small
  have stacked : A.layout.Stacked := by
    rw [layout] at room outgoing small ⊢
    have words : (Frame.layout d).localWords = d.localWords := rfl
    rw [words] at room small
    exact Frame.layout_stacked (by omega) (by omega)
  have top := stacked.total_le
  have few : wordCounts A.function.locals < 2 ^ 61 := by omega
  exact ⟨stacked, toInt_totalWords (isCountable_of_wordCounts few) (by omega), by omega, by omega⟩

theorem mem_scalarPlaces_of_declared {name : String} (declared : name ∈ (scalarDecls f).map Decl.name) :
    ∃ x ∈ scalarPlaces l f, x.1.name = name ∧ (Slot.declared name).word f l = frameWord x.2 := by
  cases found : (scalarPlaces l f).reverse.find? (·.1.name = name) with
  | some x =>
    have named : x.1.name = name := by simpa using List.find?_some found
    exact ⟨x, List.mem_reverse.mp (List.mem_of_find?_eq_some found), named, by simp only [Slot.word, found]⟩
  | none =>
    rw [← map_scalarPlaces l f, List.map_map] at declared
    obtain ⟨x, member, rfl⟩ := List.mem_map.mp declared
    simpa using List.find?_eq_none.mp found x (List.mem_reverse.mpr member)

/-- The words of a frame lie where its parts are. -/
theorem Measured.lies (measured : Measured A.function A.layout)
    (spares : (wordCounts A.function.locals + A.spares : Int) ≤ A.layout.localWords.toInt)
    (outgoing : (A.outgoing : Int) ≤ A.layout.outgoingSlots.toInt) {s : Slot} (member : s ∈ A.slots)
    (framed : ∀ name, s ≠ .global name) :
    ∃ o, s.word A.function A.layout = .offset o .sp ∧ s.Lies A.function A.layout o := by
  obtain ⟨slots, room, bounds, bit, covers, top⟩ := measured.counts
  simp only [Activation.slots, List.mem_append, List.mem_map, List.mem_range] at member
  rcases member with ((((declared | global) | spare) | passed) | saved) | returned
  · obtain ⟨d, inside, rfl⟩ := declared
    obtain ⟨x, placed, named, word⟩ :=
      mem_scalarPlaces_of_declared (l := A.layout) (List.mem_map_of_mem (f := Decl.name) inside)
    exact ⟨x.2.toInt, word, x, placed, named, rfl⟩
  · obtain ⟨name, _, rfl⟩ := global
    exact absurd rfl (framed name)
  · obtain ⟨i, less, rfl⟩ := spare
    have count := Int64.toInt_ofNat_of_lt (n := i) (by omega)
    have sum := toInt_add_of_le (x := totalWords A.function.locals) (y := Int64.ofNat i)
      (by rw [measured.locals]; omega) (by rw [measured.locals]; omega)
    rw [measured.locals, count] at sum
    have offset := measured.toInt_localOffset (w := totalWords A.function.locals + Int64.ofNat i)
      (by omega) (by omega)
    rw [sum, ← Int.add_assoc] at offset
    exact ⟨_, rfl, offset, by omega⟩
  · obtain ⟨i, less, rfl⟩ := passed
    exact ⟨_, rfl, toInt_outgoingOffset (by omega), by omega⟩
  · obtain ⟨k, less, rfl⟩ := saved
    have few : k < A.layout.savedCount.toInt.toNat := by
      simp only [saveSlots, List.length_map, List.length_zipIdx, List.length_take] at less
      omega
    exact ⟨_, rfl, measured.toInt_saveOffset (by omega), by omega⟩
  · obtain ⟨x, inside, rfl⟩ := returned
    refine ⟨_, rfl, measured.toInt_returnOffset, ?_⟩
    unfold returnSlots at inside
    split at inside
    · simp at inside
    · rename_i calls
      simpa using calls

/-- The address of a word of a frame. -/
theorem Activation.Placed.address (placed : A.Placed) (measured : Measured A.function A.layout)
    {s : Slot} {o : Int} (word : s.word A.function A.layout = .offset o .sp)
    (lies : s.Lies A.function A.layout o) :
    ∃ a, A.slot s = some a ∧ (a.toNat : Int) = A.sp.toNat + o := by
  obtain ⟨whole, low, high⟩ := measured.range lies
  have top := measured.stacked.total_le
  have small := placed.small
  have room := placed.top
  have aligned := placed.aligned
  unfold Activation.extent at small room
  have sum : (A.sp + BitVec.ofInt 32 o).toNat = A.sp.toNat + o.toNat := by
    rw [BitVec.toNat_add, BitVec.toNat_ofInt]
    omega
  refine ⟨A.sp + BitVec.ofInt 32 o, ?_, by omega⟩
  rw [Activation.slot, word, Activation.address, immediate?_of_range (by omega), Option.bind_some,
    Machine.aligned?, if_pos (by omega)]

theorem Activation.Placed.global (placed : A.Placed) {name : String} (member : .global name ∈ A.slots) :
    isGlobalScalar A.table name = true ∧ ∃ a, A.data name = some a ∧ A.slot (.global name) = some a ∧
      (a.toNat < A.sp.toNat ∨ A.sp.toNat + 4 * A.extent ≤ a.toNat) := by
  have scalar : isGlobalScalar A.table name = true := by
    simp only [Activation.slots, List.mem_append, List.mem_map, List.mem_filter] at member
    rcases member with ((((⟨_, _, other⟩ | ⟨_, inside, same⟩) | ⟨_, _, other⟩) | ⟨_, _, other⟩) |
      ⟨_, _, other⟩) | ⟨_, _, other⟩
    · cases other
    · cases same
      exact inside.2
    · cases other
    · cases other
    · cases other
    · cases other
  obtain ⟨a, found, aligned, outside⟩ := placed.data name scalar
  refine ⟨scalar, a, found, ?_, outside⟩
  rw [Activation.slot, Slot.word, Activation.address, found, Option.bind_some, Machine.aligned?,
    if_pos aligned]

/-- The words of a procedure whose frame has a place in memory are apart. -/
theorem Activation.Placed.separate (placed : A.Placed) (shape : ∃ d, A.layout = Frame.layout d) :
    A.Separate := by
  have measured := placed.measured shape
  have top := measured.stacked.total_le
  have cases (s : Slot) (member : s ∈ A.slots) :
      (∃ name, s = .global name) ∨ ∃ o a, s.Lies A.function A.layout o ∧ A.slot s = some a ∧
        (a.toNat : Int) = A.sp.toNat + o ∧ 0 ≤ o ∧ o < 4 * A.extent := by
    by_cases global : ∃ name, s = .global name
    · exact .inl global
    · obtain ⟨o, word, lies⟩ := measured.lies placed.room placed.outgoing member
        fun name same => global ⟨name, same⟩
      obtain ⟨a, address, value⟩ := placed.address measured word lies
      have range := measured.range lies
      unfold Activation.extent
      exact .inr ⟨o, a, lies, address, value, by omega, by omega⟩
  constructor
  · intro s member
    rcases cases s member with ⟨name, rfl⟩ | ⟨o, a, _, address, _⟩
    · obtain ⟨_, a, _, address, _⟩ := placed.global member
      simp [address]
    · simp [address]
  · intro s left t right same
    rcases cases s left with ⟨name, rfl⟩ | ⟨o, a, lies, address, value, low, high⟩ <;>
      rcases cases t right with ⟨name', rfl⟩ | ⟨o', a', lies', address', value', low', high'⟩
    · obtain ⟨scalar, a, found, address, _⟩ := placed.global left
      obtain ⟨scalar', a', found', address', _⟩ := placed.global right
      rw [address, address'] at same
      rw [placed.distinct name name' scalar scalar' (by rw [found, found', same])]
    · obtain ⟨_, a, _, address, outside⟩ := placed.global left
      rw [address, address'] at same
      cases Option.some.inj same
      omega
    · obtain ⟨_, a', _, address', outside⟩ := placed.global right
      rw [address, address'] at same
      cases Option.some.inj same
      omega
    · rw [address, address'] at same
      cases Option.some.inj same
      have equal : o = o' := by omega
      rw [← measured.slotAt_eq lies, ← measured.slotAt_eq lies', equal]

/-- The size of such a frame can be encoded. -/
theorem Activation.Placed.fits (placed : A.Placed) (shape : ∃ d, A.layout = Frame.layout d) : A.Fits := by
  obtain ⟨bottom, _⟩ := (placed.measured shape).total_bounds
  have top := (placed.measured shape).stacked.total_le
  have small := placed.small
  unfold Activation.extent at small
  have bytes : A.layout.bytes.toInt = 4 * A.layout.totalWords.toInt := by
    rw [Frame.Layout.bytes, toInt_wordSize_mul (by omega) (by omega)]
  have negated : (-A.layout.bytes).toInt = -A.layout.bytes.toInt := by
    rw [Int64.toInt_neg, Int.bmod_eq_of_le (by omega) (by omega)]
  constructor
  · rw [immediate?_of_range (by omega)]
    rfl
  · rw [negated, immediate?_of_range (by omega)]
    rfl

end Codegen

end ThreeAddress
