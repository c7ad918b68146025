import ThreeAddress.KeySet.Basic

/-! Membership in key sets, and the order in which their keys stand. -/
namespace ThreeAddress

namespace KeySet

variable {α : Type}

instance : Membership α (KeySet α) := ⟨fun s k => k ∈ s.keys⟩

instance [DecidableEq α] (k : α) (s : KeySet α) : Decidable (k ∈ s) :=
  inferInstanceAs (Decidable (k ∈ s.keys))

theorem mem_iff {s : KeySet α} {k : α} : k ∈ s ↔ k ∈ s.keys := Iff.rfl

@[simp] theorem mem_mk {ks : List α} {k : α} : k ∈ (⟨ks⟩ : KeySet α) ↔ k ∈ ks := Iff.rfl

@[simp] theorem not_mem_empty (k : α) : k ∉ (empty : KeySet α) := by simp [empty]

@[simp] theorem mem_single {k l : α} : k ∈ single l ↔ k = l := by simp [single]

@[simp] theorem mem_erase [DecidableEq α] {s : KeySet α} {k l : α} :
    k ∈ s.erase l ↔ k ∈ s ∧ k ≠ l := by
  simp [erase, mem_iff]

@[simp] theorem contains_iff [DecidableEq α] {s : KeySet α} {k : α} :
    s.contains k = true ↔ k ∈ s := by
  simp [contains, mem_iff]

@[simp] theorem mem_toList {s : KeySet α} {k : α} : k ∈ s.toList ↔ k ∈ s := Iff.rfl

theorem isEmpty_iff {s : KeySet α} : s.isEmpty = true ↔ ∀ k, k ∉ s := by
  simp [isEmpty, mem_iff, List.eq_nil_iff_forall_not_mem]

theorem isEmpty_eq_false_iff {s : KeySet α} : s.isEmpty = false ↔ ∃ k, k ∈ s := by
  obtain ⟨ks⟩ := s
  cases ks with
  | nil => simp [isEmpty]
  | cons k ks => simp [isEmpty, show ∃ x, x = k ∨ x ∈ ks from ⟨k, .inl rfl⟩]

theorem first?_eq_none_iff {s : KeySet α} : s.first? = none ↔ ∀ k, k ∉ s := by
  simp [first?, mem_iff, List.eq_nil_iff_forall_not_mem]

theorem mem_of_first? {s : KeySet α} {k : α} (found : s.first? = some k) : k ∈ s :=
  List.mem_of_head? found

/-- The keys stand in ascending order, so each stands once. -/
def Ascending [LT α] (s : KeySet α) : Prop := s.keys.Pairwise (· < ·)

theorem Ascending.erase [LT α] [DecidableEq α] {s : KeySet α} (asc : s.Ascending) (k : α) :
    (s.erase k).Ascending :=
  List.Pairwise.filter _ asc

theorem ascending_single [LT α] (k : α) : (single k).Ascending := List.pairwise_singleton _ _

theorem ascending_empty [LT α] : (empty : KeySet α).Ascending := List.Pairwise.nil

theorem mem_insertKey {n : Nat} (k x : Fin n) (ks : List (Fin n)) :
    x ∈ insertKey k ks ↔ x = k ∨ x ∈ ks := by
  induction ks with
  | nil => simp [insertKey]
  | cons y ks ih =>
    unfold insertKey
    split
    · simp
    · split
      · simp only [List.mem_cons, ih]
        grind
      · have same : k = y := by omega
        simp [same]

@[simp] theorem mem_insert {n : Nat} {s : KeySet (Fin n)} {k x : Fin n} :
    x ∈ s.insert k ↔ x = k ∨ x ∈ s := mem_insertKey k x s.keys

theorem Ascending.insert {n : Nat} {s : KeySet (Fin n)} (asc : s.Ascending) (k : Fin n) :
    (s.insert k).Ascending := by
  obtain ⟨ks⟩ := s
  show (insertKey k ks).Pairwise (· < ·)
  have sorted : ks.Pairwise (· < ·) := asc
  clear asc
  induction ks with
  | nil => exact List.pairwise_singleton _ _
  | cons y ks ih =>
    obtain ⟨above, rest⟩ := List.pairwise_cons.mp sorted
    unfold insertKey
    split
    · rename_i less
      refine List.pairwise_cons.mpr ⟨?_, sorted⟩
      intro x member
      rcases List.mem_cons.mp member with rfl | member
      · exact less
      · exact Fin.lt_trans less (above x member)
    · split
      · rename_i less
        refine List.pairwise_cons.mpr ⟨?_, ih rest⟩
        intro x member
        rcases (mem_insertKey k x ks).mp member with rfl | member
        · exact less
        · exact above x member
      · exact sorted

/-- An ascending set whose keys are all equal has at most one. -/
theorem Ascending.size_le_one {n : Nat} {s : KeySet (Fin n)} (asc : s.Ascending)
    (alone : ∀ k l, k ∈ s → l ∈ s → k = l) : s.size ≤ 1 := by
  obtain ⟨ks⟩ := s
  match ks, asc, alone with
  | [], _, _ => simp [size]
  | [_], _, _ => simp [size]
  | k :: l :: ks, asc, alone =>
    have less : k < l := (List.pairwise_cons.mp asc).1 l (by simp)
    have same : k = l := alone k l (by simp) (by simp)
    exact absurd less (by omega)

/-- A set with at most one key is empty or a single key. -/
theorem cases_of_size {s : KeySet α} (small : s.size ≤ 1) : s = empty ∨ ∃ k, s = single k := by
  obtain ⟨ks⟩ := s
  match ks, small with
  | [], _ => exact .inl rfl
  | [k], _ => exact .inr ⟨k, rfl⟩
  | _ :: _ :: _, small => simp [size] at small

theorem eq_single_of_mem {s : KeySet α} (small : s.size ≤ 1) {k : α} (member : k ∈ s) : s = single k := by
  rcases cases_of_size small with rfl | ⟨j, rfl⟩
  · exact absurd member (not_mem_empty k)
  · rw [mem_single.mp member]

end KeySet

end ThreeAddress
