import Mathlib.Data.Finset.Sort
import ThreeAddress.KeySet.Session

/-! Words of bits stand for finite sets of numbers. However a set has come about, by commands on any
number of named sets, it reports the members, the size, the least member and the order of the finite set
that the same commands make. -/
namespace ThreeAddress

namespace Bits

/-! Bits of words -/

/-- The bit of a key. There are zeros behind the last word. -/
def bitAt (ws : List UInt64) (k : Nat) : Bool := ws[k / 64]?.any fun w => w.toBitVec.getLsbD (k % 64)

theorem and_mask_ne_zero {j : Nat} (bound : j < 64) (w : UInt64) :
    w &&& mask j ≠ 0 ↔ w.toBitVec.getLsbD j = true := by
  constructor
  · intro filled
    by_contra unset
    apply filled
    apply UInt64.toBitVec_inj.mp
    apply BitVec.eq_of_getLsbD_eq
    intro i _
    by_cases same : i = j
    · simp [same, Bool.eq_false_iff.mpr unset]
    · simp [getLsbD_mask bound, same]
  · intro set zero
    have bit : (w &&& mask j).toBitVec.getLsbD j = true := by simp [getLsbD_mask bound, set]
    rw [zero] at bit
    simp at bit

theorem contains_eq (s : Bits) (k : Nat) : s.contains k = bitAt s.words k := by
  have each (w : UInt64) :
      decide (w &&& mask (k % 64) ≠ 0) = w.toBitVec.getLsbD (k % 64) := by
    rw [Bool.eq_iff_iff, decide_eq_true_iff]
    exact and_mask_ne_zero (Nat.mod_lt k (by decide)) w
  unfold contains bitAt wordBits
  cases s.words[k / 64]? with
  | none => rfl
  | some w => exact each w

theorem getLsbD_withBit {j : Nat} (bound : j < 64) (w : UInt64) (i : Nat) :
    (withBit w j).toBitVec.getLsbD i = (w.toBitVec.getLsbD i || decide (i = j)) := by
  rw [withBit, UInt64.toBitVec_or, BitVec.getLsbD_or, getLsbD_mask bound]

/-- Two keys are the same if they have the same word and the same bit. -/
theorem key_eq_iff (k l : Nat) : k = l ↔ k / 64 = l / 64 ∧ k % 64 = l % 64 := by omega

theorem bitAt_grown (ws : List UInt64) (n k : Nat) : bitAt (grown ws n) k = bitAt ws k := by
  unfold bitAt grown
  by_cases inside : k / 64 < ws.length
  · rw [List.getElem?_append_left inside]
  · have outside : ws.length ≤ k / 64 := Nat.le_of_not_lt inside
    rw [List.getElem?_append_right outside, List.getElem?_eq_none outside, List.getElem?_replicate]
    split <;> simp

theorem bitAt_modify (ws : List UInt64) (i : Nat) (g : UInt64 → UInt64) (l : Nat) :
    bitAt (ws.modify i g) l =
      if i = l / 64 then ws[i]?.any fun w => (g w).toBitVec.getLsbD (l % 64) else bitAt ws l := by
  unfold bitAt
  rw [List.getElem?_modify]
  split
  · rename_i word
    rw [word]
    cases ws[l / 64]? <;> simp
  · cases ws[l / 64]? <;> simp

theorem bitAt_insert (s : Bits) (k l : Nat) :
    bitAt (s.insert k).words l = (decide (l = k) || bitAt s.words l) := by
  have long : k / 64 < (grown s.words (k / 64 + 1)).length := by
    rw [grown, List.length_append, List.length_replicate]
    omega
  rw [← bitAt_grown s.words (k / 64 + 1) l]
  unfold insert wordBits
  rw [bitAt_modify]
  split
  · rename_i word
    have found := List.getElem?_eq_getElem long
    unfold bitAt
    rw [← word, found, Option.any_some, Option.any_some, getLsbD_withBit (Nat.mod_lt k (by decide)),
      Bool.or_comm]
    congr 1
    rw [decide_eq_decide, key_eq_iff l k]
    simp [word]
  · rename_i word
    have other : l ≠ k := by
      intro same
      exact word (same ▸ rfl)
    simp [other]

theorem bitAt_erase (s : Bits) (k l : Nat) :
    bitAt (s.erase k).words l = (bitAt s.words l && decide (l ≠ k)) := by
  unfold erase wordBits
  rw [bitAt_modify]
  split
  · rename_i word
    unfold bitAt
    rw [word]
    cases s.words[l / 64]? with
    | none => rfl
    | some w =>
      rw [Option.any_some, Option.any_some, getLsbD_withoutBit (Nat.mod_lt k (by decide))]
      congr 1
      rw [decide_eq_decide, not_iff_not, key_eq_iff l k]
      simp [word]
  · rename_i word
    have other : l ≠ k := by
      intro same
      exact word (same ▸ rfl)
    simp [other]

theorem getElem?_orWords (ws xs : List UInt64) (long : xs.length ≤ ws.length) (i : Nat) :
    (orWords ws xs)[i]? = ws[i]?.map (fun w => w ||| xs[i]?.getD 0) := by
  induction ws generalizing xs i with
  | nil =>
    cases xs with
    | nil => rfl
    | cons x xs => simp at long
  | cons w ws ih =>
    cases xs with
    | nil =>
      rw [orWords]
      · simp
      · simp
    | cons x xs =>
      rw [orWords]
      cases i with
      | zero => simp
      | succ i =>
        simp only [List.getElem?_cons_succ]
        exact ih xs (by simpa using long) i

theorem bitAt_union (s t : Bits) (k : Nat) :
    bitAt (s.union t).words k = (bitAt s.words k || bitAt t.words k) := by
  have long : t.words.length ≤ (grown s.words t.words.length).length := by
    rw [grown, List.length_append, List.length_replicate]
    omega
  rw [← bitAt_grown s.words t.words.length k]
  unfold union bitAt
  rw [getElem?_orWords _ _ long]
  cases left : (grown s.words t.words.length)[k / 64]? with
  | none =>
    have beyond := List.getElem?_eq_none_iff.mp left
    rw [List.getElem?_eq_none (Nat.le_trans long beyond)]
    rfl
  | some w => cases right : t.words[k / 64]? <;> simp

/-! Keys in order -/

/-- The keys of a word whose bits start at a key. -/
def wordKeys (start : Nat) (w : UInt64) : List Nat :=
  ((List.range 64).filter fun j => w.toBitVec.getLsbD j).map (start + ·)

def keysFrom (start : Nat) : List UInt64 → List Nat
  | [] => []
  | w :: ws => wordKeys start w ++ keysFrom (start + 64) ws

theorem mem_wordKeys {start k : Nat} {w : UInt64} :
    k ∈ wordKeys start w ↔ start ≤ k ∧ k < start + 64 ∧ w.toBitVec.getLsbD (k - start) = true := by
  simp only [wordKeys, List.mem_map, List.mem_filter, List.mem_range]
  constructor
  · rintro ⟨j, ⟨bound, set⟩, rfl⟩
    rw [Nat.add_sub_cancel_left]
    exact ⟨by omega, by omega, set⟩
  · rintro ⟨least, most, set⟩
    exact ⟨k - start, ⟨by omega, set⟩, by omega⟩

theorem mem_keysFrom {start k : Nat} (ws : List UInt64) :
    k ∈ keysFrom start ws ↔ start ≤ k ∧ bitAt ws (k - start) = true := by
  induction ws generalizing start with
  | nil => simp [keysFrom, bitAt]
  | cons w ws ih =>
    rw [keysFrom, List.mem_append, mem_wordKeys, ih]
    by_cases here : k < start + 64
    · have word : (k - start) / 64 = 0 := by omega
      have bit : (k - start) % 64 = k - start := by omega
      have later : ¬ start + 64 ≤ k := by omega
      simp [bitAt, word, bit, here, later]
    · have word : (k - start) / 64 = (k - (start + 64)) / 64 + 1 := by omega
      have bit : (k - start) % 64 = (k - (start + 64)) % 64 := by omega
      have least : start + 64 ≤ k ↔ start ≤ k := by omega
      simp [bitAt, word, bit, here, least]

theorem wordKeys_ascending (start : Nat) (w : UInt64) : (wordKeys start w).Pairwise (· < ·) := by
  apply List.Pairwise.map (R := (· < ·))
  · intro i j less
    exact Nat.add_lt_add_left less start
  · exact List.pairwise_lt_range.filter _

theorem keysFrom_ascending (start : Nat) (ws : List UInt64) : (keysFrom start ws).Pairwise (· < ·) := by
  induction ws generalizing start with
  | nil => exact List.Pairwise.nil
  | cons w ws ih =>
    rw [keysFrom, List.pairwise_append]
    refine ⟨wordKeys_ascending start w, ih (start + 64), fun k here l later => ?_⟩
    have below := (mem_wordKeys.mp here).2.1
    have above := (mem_keysFrom ws).mp later |>.1
    omega

@[simp] theorem wordKeys_zero (start : Nat) : wordKeys start 0 = [] := by
  simp [wordKeys]

/-- The lowest bit of a word gives its first key. -/
theorem wordKeys_of_ne_zero {w : UInt64} (filled : w ≠ 0) (start : Nat) :
    wordKeys start w =
      (start + trailingZeros w) :: wordKeys start (withoutBit w (trailingZeros w)) := by
  have bound := trailingZeros_lt filled
  have member (k : Nat) : k ∈ wordKeys start (withoutBit w (trailingZeros w)) ↔
      k ∈ wordKeys start w ∧ k ≠ start + trailingZeros w := by
    rw [mem_wordKeys, mem_wordKeys, getLsbD_withoutBit bound, Bool.and_eq_true, decide_eq_true_eq]
    have other (least : start ≤ k) : k - start ≠ trailingZeros w ↔ k ≠ start + trailingZeros w := by omega
    constructor
    · rintro ⟨least, most, set, unlike⟩
      exact ⟨⟨least, most, set⟩, (other least).mp unlike⟩
    · rintro ⟨⟨least, most, set⟩, unlike⟩
      exact ⟨least, most, set, (other least).mpr unlike⟩
  have least (k : Nat) (inside : k ∈ wordKeys start w) : start + trailingZeros w ≤ k := by
    obtain ⟨above, _, set⟩ := mem_wordKeys.mp inside
    by_contra below
    have unset := BitVec.getLsbD_false_of_lt_ctz (x := w.toBitVec) (i := k - start)
      (show k - start < trailingZeros w by omega)
    rw [unset] at set
    contradiction
  apply List.Pairwise.eq_of_mem_iff (wordKeys_ascending start w)
  · rw [List.pairwise_cons]
    constructor
    · intro k inside
      obtain ⟨inside, other⟩ := (member k).mp inside
      have := least k inside
      omega
    · exact wordKeys_ascending start _
  · intro k
    rw [List.mem_cons, member]
    constructor
    · intro inside
      by_cases same : k = start + trailingZeros w
      · exact .inl same
      · exact .inr ⟨inside, same⟩
    · rintro (rfl | ⟨inside, _⟩)
      · have back : start + trailingZeros w - start = trailingZeros w := by omega
        rw [mem_wordKeys, back]
        exact ⟨by omega, by omega, getLsbD_trailingZeros filled⟩
      · exact inside

theorem wordKeys_eq_nil_iff {start : Nat} {w : UInt64} : wordKeys start w = [] ↔ w = 0 := by
  constructor
  · intro none
    by_contra filled
    rw [wordKeys_of_ne_zero filled] at none
    contradiction
  · rintro rfl
    exact wordKeys_zero start

/-! What a set reports -/

variable {σ : Type}

/-- Visiting a word comes before visiting what is behind it, if the visitor goes on. -/
theorem visitWord_append (f : σ → Nat → σ × Bool) (start : Nat) (state : σ) (w : UInt64)
    (rest : List Nat) :
    KeySet.visit f state (wordKeys start w ++ rest) =
      if (visitWord f start state w).2 then KeySet.visit f (visitWord f start state w).1 rest
      else (visitWord f start state w).1 := by
  fun_induction visitWord f start state w with
  | case1 state => simp
  | case2 state w filled visited goesOn ih =>
    rw [wordKeys_of_ne_zero filled, List.cons_append, KeySet.visit]
    simp only [visited] at goesOn ih
    simp only [goesOn, if_true]
    exact ih
  | case3 state w filled visited stops =>
    rw [wordKeys_of_ne_zero filled, List.cons_append, KeySet.visit]
    simp only [visited] at stops ⊢
    simp [stops]

theorem visitFrom_eq (f : σ → Nat → σ × Bool) (start : Nat) (state : σ) (ws : List UInt64) :
    visitFrom f start state ws = KeySet.visit f state (keysFrom start ws) := by
  induction ws generalizing start state with
  | nil => rfl
  | cons w ws ih =>
    rw [keysFrom, visitWord_append, visitFrom]
    simp only [ih]
    rfl

theorem visit_noting (ks seen : List Nat) :
    KeySet.visit (fun ks k => (ks ++ [k], true)) seen ks = seen ++ ks := by
  induction ks generalizing seen with
  | nil => simp [KeySet.visit]
  | cons k ks ih => simp [KeySet.visit, ih]

theorem toList_eq (s : Bits) : s.toList = keysFrom 0 s.words := by
  rw [toList, visit, visitFrom_eq, visit_noting, List.nil_append]

theorem onesCount_eq (start : Nat) (w : UInt64) : onesCount w = (wordKeys start w).length := by
  have counted (n : Nat) : w.toBitVec.cpopNatRec n 0 =
      ((List.range n).filter fun j => w.toBitVec.getLsbD j).length := by
    induction n with
    | zero => rfl
    | succ n ih =>
      rw [BitVec.cpopNatRec_succ, BitVec.cpopNatRec_add, ih, List.range_succ, List.filter_append,
        List.length_append]
      cases bit : w.toBitVec.getLsbD n <;> simp [bit]
  rw [onesCount, BitVec.toNat_cpop, counted, wordKeys, List.length_map]

theorem size_eq (s : Bits) : s.size = (keysFrom 0 s.words).length := by
  have total (ws : List UInt64) (start n : Nat) :
      ws.foldl (fun n w => n + onesCount w) n = n + (keysFrom start ws).length := by
    induction ws generalizing start n with
    | nil => rfl
    | cons w ws ih =>
      rw [List.foldl_cons, ih (start + 64), keysFrom, List.length_append, onesCount_eq start]
      omega
  rw [size, total s.words 0 0, Nat.zero_add]

theorem isEmpty_eq (s : Bits) : s.isEmpty = (keysFrom 0 s.words).isEmpty := by
  have all (ws : List UInt64) (start : Nat) :
      ws.all (· = 0) = (keysFrom start ws).isEmpty := by
    induction ws generalizing start with
    | nil => rfl
    | cons w ws ih =>
      rw [List.all_cons, ih (start + 64), keysFrom, Bool.eq_iff_iff]
      simp [wordKeys_eq_nil_iff]
  exact all s.words 0

theorem first?_eq (s : Bits) : s.first? = (keysFrom 0 s.words).head? := by
  have least (ws : List UInt64) (start : Nat) : firstFrom start ws = (keysFrom start ws).head? := by
    induction ws generalizing start with
    | nil => rfl
    | cons w ws ih =>
      rw [firstFrom, keysFrom, wordBits, ih]
      by_cases zero : w = 0
      · simp [zero]
      · simp [zero, wordKeys_of_ne_zero zero]
  exact least s.words 0

/-- Everything that a set says of itself, if it stands for a finite set. -/
structure Reports (s : Bits) (members : Finset Nat) : Prop where
  contains : ∀ k, s.contains k = true ↔ k ∈ members
  size : s.size = members.card
  isEmpty : s.isEmpty = true ↔ members = ∅
  first? : ∀ k, s.first? = some k ↔ IsLeast (members : Set Nat) k
  toList : s.toList = members.sort (· ≤ ·)
  visit : ∀ (σ : Type) (f : σ → Nat → σ × Bool) (state : σ),
    s.visit f state = KeySet.visit f state (members.sort (· ≤ ·))

theorem sort_eq {s : Bits} {members : Finset Nat} (same : ∀ k, bitAt s.words k = true ↔ k ∈ members) :
    members.sort (· ≤ ·) = keysFrom 0 s.words := by
  apply List.Pairwise.eq_of_mem_iff (members.sortedLT_sort).pairwise (keysFrom_ascending 0 s.words)
  intro k
  rw [Finset.mem_sort, mem_keysFrom, ← same]
  simp

theorem isLeast_iff_head? {ks : List Nat} (ascending : ks.Pairwise (· < ·)) (k : Nat) :
    ks.head? = some k ↔ IsLeast {l | l ∈ ks} k := by
  cases ks with
  | nil => simp [IsLeast]
  | cons l ks =>
    have above := (List.pairwise_cons.mp ascending).1
    constructor
    · intro first
      cases Option.some.inj first
      constructor
      · exact List.mem_cons_self
      · intro m inside
        rcases List.mem_cons.mp inside with rfl | later
        · exact Nat.le_refl m
        · exact Nat.le_of_lt (above m later)
    · rintro ⟨inside, least⟩
      rcases List.mem_cons.mp inside with rfl | later
      · rfl
      · have := least (List.mem_cons_self (a := l) (l := ks))
        have := above k later
        omega

theorem reports_of_bits {s : Bits} {members : Finset Nat}
    (same : ∀ k, bitAt s.words k = true ↔ k ∈ members) : s.Reports members := by
  have sorted := sort_eq same
  constructor
  · intro k
    rw [contains_eq, same]
  · rw [size_eq, ← sorted, Finset.length_sort]
  · rw [isEmpty_eq, ← sorted, List.isEmpty_iff]
    constructor
    · intro none
      rw [← Finset.card_eq_zero, ← Finset.length_sort (· ≤ ·), none, List.length_nil]
    · rintro rfl
      exact Finset.sort_empty (r := (· ≤ ·))
  · intro k
    rw [first?_eq, isLeast_iff_head? (keysFrom_ascending 0 s.words), ← sorted]
    simp
  · rw [toList_eq, sorted]
  · intro σ f state
    rw [visit, visitFrom_eq, sorted]

end Bits

namespace KeySet

/-! Commands on finite sets -/

/-- The keys that a command names. -/
def Command.keys : Command → List Int
  | .assign ks => ks
  | .insertAll ks => ks
  | .insert k => [k]
  | .contains k => [k]
  | .erase k => [k]
  | .only k => [k]
  | _ => []

def naturals (ks : List Int) : Finset Nat := (ks.map Int.toNat).toFinset

/-- What a command makes of the set of a name. -/
def Command.result (sets : String → Finset Nat) (name : String) : Command → Finset Nat
  | .assign ks => naturals ks
  | .copy source => sets source
  | .insert k => Insert.insert k.toNat (sets name)
  | .insertAll ks => sets name ∪ naturals ks
  | .erase k => (sets name).erase k.toNat
  | .only k => {k.toNat}
  | .merge source => sets name ∪ sets source
  | .reset => ∅
  | .contains _ | .first | .range _ | .wire => sets name

/-- The named sets behind a command. -/
def perform (sets : String → Finset Nat) (x : String × Command) : String → Finset Nat :=
  Function.update sets x.1 (x.2.result sets x.1)

/-- The session behind commands on the sets of the names. -/
def Session.run (sets : Session) : List (String × Command) → Except Fault Session
  | [] => .ok sets
  | x :: xs => do
    let reply ← sets.step x.1 x.2
    Session.run reply.2 xs

/-- The set has the bits of the members. -/
def Stored.Has (s : Stored) (members : Finset Nat) : Prop :=
  ∀ k, Bits.bitAt s.keys.words k = true ↔ k ∈ members

namespace Stored.Has

variable {s t : Stored} {members others : Finset Nat}

theorem none : ({} : Stored).Has ∅ := by
  intro k
  simp [Bits.bitAt]

theorem insert (has : s.Has members) (k : Nat) : (s.insert k).Has (Insert.insert k members) := by
  intro l
  rw [Finset.mem_insert, ← has l, Stored.insert, Bits.bitAt_insert]
  simp

theorem erase (has : s.Has members) (k : Nat) : (s.erase k).Has (members.erase k) := by
  intro l
  rw [Finset.mem_erase, ← has l, Stored.erase, Bits.bitAt_erase]
  simp [and_comm]

theorem reset : s.reset.Has ∅ := none

theorem only (k : Nat) : (s.only k).Has {k} := (reset (s := s)).insert k

theorem merge (has : s.Has members) (other : t.Has others) : (s.merge t).Has (members ∪ others) := by
  intro k
  rw [Finset.mem_union, ← has k, ← other k, Stored.merge, Bits.bitAt_union]
  simp

theorem copy (has : s.Has members) : s.copy.Has members := has

theorem insertKeys (has : s.Has members) (ks : List Int) (natural : ∀ k ∈ ks, 0 ≤ k) :
    ∃ u, KeySet.insertKeys s ks = .ok u ∧ u.Has (members ∪ naturals ks) := by
  induction ks generalizing s members with
  | nil => exact ⟨s, rfl, by simpa [naturals] using has⟩
  | cons k ks ih =>
    obtain ⟨here, others⟩ := List.forall_mem_cons.mp natural
    obtain ⟨u, ran, after⟩ := ih (has.insert k.toNat) others
    refine ⟨u, ?_, ?_⟩
    · rw [KeySet.insertKeys, KeySet.key, if_neg (Int.not_lt.mpr here)]
      exact ran
    · have same : Insert.insert k.toNat members ∪ naturals ks = members ∪ naturals (k :: ks) := by
        ext l
        simp only [naturals, List.map_cons, List.toFinset_cons, Finset.mem_union, Finset.mem_insert]
        tauto
      rwa [same] at after

end Stored.Has

/-- The sets of the session have the bits of the named sets. -/
def Session.Has (session : Session) (sets : String → Finset Nat) : Prop :=
  ∀ name, (session.get name).Has (sets name)

theorem Session.get_put (session : Session) (name other : String) (s : Stored) :
    (session.put name s).get other = if other = name then s else session.get other := by
  unfold Session.get Session.put
  rw [List.lookup_cons]
  by_cases same : other = name
  · simp [same]
  · have kept : (session.filter (·.1 ≠ name)).lookup other = session.lookup other := by
      induction session with
      | nil => rfl
      | cons x session ih =>
        by_cases removed : x.1 = name
        · have unlike : (other == x.1) = false := by simpa [removed] using same
          rw [List.filter_cons_of_neg (by simpa using removed), ih, List.lookup_cons, unlike]
        · rw [List.filter_cons_of_pos (by simpa using removed), List.lookup_cons, List.lookup_cons, ih]
    have unlike : (other == name) = false := by simpa using same
    rw [unlike, kept, if_neg same]

/-- A command on natural keys makes of a set what it makes of the finite set. -/
theorem execute_has {session : Session} {sets : String → Finset Nat} (has : session.Has sets) (name : String)
    {c : Command} (natural : ∀ k ∈ c.keys, 0 ≤ k) :
    ∃ reply s, execute session (session.get name) c = .ok (reply, s) ∧ s.Has (c.result sets name) := by
  have known (k : Int) (named : k ∈ c.keys) : key k = .ok k.toNat := by
    rw [key, if_neg (Int.not_lt.mpr (natural k named))]
  cases c with
  | assign ks =>
    obtain ⟨u, ran, after⟩ := Stored.Has.none.insertKeys ks natural
    rw [Finset.empty_union] at after
    exact ⟨.none, u, by rw [execute, ran]; rfl, after⟩
  | copy source => exact ⟨_, _, rfl, (has source).copy⟩
  | insert k => exact ⟨_, _, by rw [execute, known k (by simp [Command.keys])]; rfl, (has name).insert _⟩
  | insertAll ks =>
    obtain ⟨u, ran, after⟩ := (has name).insertKeys ks natural
    exact ⟨.none, u, by rw [execute, ran]; rfl, after⟩
  | contains k => exact ⟨_, _, by rw [execute, known k (by simp [Command.keys])]; rfl, has name⟩
  | erase k => exact ⟨_, _, by rw [execute, known k (by simp [Command.keys])]; rfl, (has name).erase _⟩
  | only k => exact ⟨_, _, by rw [execute, known k (by simp [Command.keys])]; rfl, .only _⟩
  | merge source => exact ⟨_, _, rfl, (has name).merge (has source)⟩
  | reset => exact ⟨_, _, rfl, .reset⟩
  | first | range | wire => exact ⟨_, _, rfl, has name⟩

theorem step_has {session : Session} {sets : String → Finset Nat} {x : String × Command}
    (has : session.Has sets) (natural : ∀ k ∈ x.2.keys, 0 ≤ k) :
    ∃ reply after, session.step x.1 x.2 = .ok (reply, after) ∧ after.Has (perform sets x) := by
  obtain ⟨reply, s, ran, made⟩ := execute_has has x.1 natural
  refine ⟨reply, session.put x.1 s, by rw [Session.step, ran]; rfl, fun name => ?_⟩
  rw [Session.get_put]
  unfold perform
  by_cases same : name = x.1
  · subst same
    simpa using made
  · simpa [same, Function.update_of_ne same] using has name

theorem run_has {session : Session} {sets : String → Finset Nat} {xs : List (String × Command)}
    (has : session.Has sets) (natural : ∀ x ∈ xs, ∀ k ∈ x.2.keys, 0 ≤ k) :
    ∃ final, session.run xs = .ok final ∧ final.Has (xs.foldl perform sets) := by
  induction xs generalizing session sets with
  | nil => exact ⟨session, rfl, has⟩
  | cons x xs ih =>
    obtain ⟨here, others⟩ := List.forall_mem_cons.mp natural
    obtain ⟨reply, after, stepped, has'⟩ := step_has has here
    obtain ⟨final, ran, ends⟩ := ih has' others
    refine ⟨final, ?_, ends⟩
    rw [Session.run, stepped]
    exact ran

/-- Commands on named sets with keys that are not negative all succeed. Each set then reports the finite
set that the commands make of the empty one, and no other. -/
theorem run_reports (xs : List (String × Command)) (natural : ∀ x ∈ xs, ∀ k ∈ x.2.keys, 0 ≤ k) :
    ∃ final, Session.run [] xs = .ok final ∧
      ∀ name, (final.get name).keys.Reports (xs.foldl perform (fun _ => ∅) name) := by
  have start : Session.Has [] fun _ => ∅ := fun name => Stored.Has.none
  obtain ⟨final, ran, has⟩ := run_has start natural
  exact ⟨final, ran, fun name => Bits.reports_of_bits (has name)⟩

/-- A set is copied, emptied and grown over again, and its copy loses a key at the edge of a word. -/
def regrowing : List (String × Command) :=
  [("a", .assign [200, 63, 64, 0]), ("b", .copy "a"), ("a", .reset), ("a", .insert 130), ("b", .erase 64),
    ("c", .merge "a"), ("c", .merge "b"), ("b", .only 64)]

theorem run_reports_regrown :
    (∀ x ∈ regrowing, ∀ k ∈ x.2.keys, 0 ≤ k) ∧ ∃ final, Session.run [] regrowing = .ok final ∧
      (final.get "a").keys.Reports {130} ∧ (final.get "b").keys.Reports {64} ∧
      (final.get "c").keys.Reports {0, 63, 130, 200} := by
  have natural : ∀ x ∈ regrowing, ∀ k ∈ x.2.keys, 0 ≤ k := by decide
  have a : regrowing.foldl perform (fun _ => ∅) "a" = {130} := by decide
  have b : regrowing.foldl perform (fun _ => ∅) "b" = {64} := by decide
  have c : regrowing.foldl perform (fun _ => ∅) "c" = {0, 63, 130, 200} := by decide
  obtain ⟨final, ran, reports⟩ := run_reports regrowing natural
  exact ⟨natural, final, ran, a ▸ reports "a", b ▸ reports "b", c ▸ reports "c"⟩

end KeySet

end ThreeAddress
