import ThreeAddress.Descriptor.Store
import ThreeAddress.Proofs.KeySet

/-! What each operation does to the registers and entries of a descriptor store, and the
consistency that the operations of the generator keep. -/
namespace ThreeAddress.Descriptor

/-- The entry of a variable that leaves a register: forgotten if that was its last location. -/
def Entry.without {Home : Type} (e : Entry Home) (r : Reg) : Entry Home :=
  if e.home.isNone && (e.regs.erase r).isEmpty then { e with regs := .empty, forgotten := true }
  else { e with regs := e.regs.erase r }

namespace Entry

variable {Home : Type} {e : Entry Home} {r q : Reg}

@[simp] theorem name_without (e : Entry Home) (r : Reg) : (e.without r).name = e.name := by
  unfold without
  split <;> rfl

@[simp] theorem home_without (e : Entry Home) (r : Reg) : (e.without r).home = e.home := by
  unfold without
  split <;> rfl

@[simp] theorem homeValid_without (e : Entry Home) (r : Reg) : (e.without r).homeValid = e.homeValid := by
  unfold without
  split <;> rfl

theorem mem_without : q ∈ (e.without r).regs ↔ q ∈ e.regs ∧ q ≠ r := by
  unfold without
  split
  · rename_i orphan
    simp only [Bool.and_eq_true] at orphan
    have nowhere := KeySet.isEmpty_iff.mp orphan.2 q
    simp only [KeySet.mem_erase] at nowhere
    simp [nowhere]
  · simp

/-- A variable without a home is forgotten with its last register. -/
theorem forgotten_without : (e.without r).forgotten = true ↔
    e.forgotten = true ∨ e.home = none ∧ ∀ q, q ∈ e.regs → q = r := by
  have last : (e.regs.erase r).isEmpty = true ↔ ∀ q, q ∈ e.regs → q = r := by
    simp [KeySet.isEmpty_iff]
  unfold without
  split
  · rename_i orphan
    rw [Bool.and_eq_true, Option.isNone_iff_eq_none, last] at orphan
    exact ⟨fun _ => .inr orphan, fun _ => rfl⟩
  · rename_i kept
    rw [Bool.and_eq_true, Option.isNone_iff_eq_none, last] at kept
    simp [kept]

theorem ascending_without (ascending : e.regs.Ascending) (r : Reg) : (e.without r).regs.Ascending := by
  unfold without
  split
  · exact KeySet.ascending_empty
  · exact ascending.erase r

theorem hasCopyBeside_iff : e.hasCopyBeside r = true ↔ e.homeValid = true ∨ ∃ q, q ∈ e.regs.erase r := by
  simp only [hasCopyBeside, Bool.or_eq_true, Bool.not_eq_true', KeySet.isEmpty_eq_false_iff]

theorem dirty_markStored (e : Entry Home) : e.markStored.dirty = false := by
  cases place : e.home <;> simp [dirty, markStored, place]

end Entry

namespace Store

variable {Home : Type} {s : Store Home} {r q : Reg} {v w : Var}

/-- The variable is known, with this entry. -/
def Has (s : Store Home) (v : Var) (e : Entry Home) : Prop :=
  s.get? v = some e ∧ e.forgotten = false

@[simp] theorem slot_modifySlot (s : Store Home) (r q : Reg) (f : Slot → Slot) :
    (s.modifySlot r f).slot q = if q = r then f (s.slot r) else s.slot q := by
  have index : ∀ t : Store Home, t.slot q = t.slots[q.val] := fun _ => rfl
  rw [index, index]
  by_cases same : q = r
  · subst same
    simp [modifySlot]
  · have other : r.val ≠ q.val := fun h => same (Fin.ext h.symm)
    simp [modifySlot, same, other]

@[simp] theorem slot_modifyEntry (s : Store Home) (v : Var) (f : Entry Home → Entry Home) :
    (s.modifyEntry v f).slot r = s.slot r := rfl

@[simp] theorem held_modifyEntry (s : Store Home) (v : Var) (f : Entry Home → Entry Home) :
    (s.modifyEntry v f).held r = s.held r := rfl

@[simp] theorem isUsable_modifyEntry (s : Store Home) (v : Var) (f : Entry Home → Entry Home) :
    (s.modifyEntry v f).isUsable r = s.isUsable r := rfl

@[simp] theorem held_modifyHeld (s : Store Home) (r q : Reg) (f : KeySet Var → KeySet Var) :
    (s.modifyHeld r f).held q = if q = r then f (s.held r) else s.held q := by
  simp only [held, modifyHeld, slot_modifySlot]
  split <;> rfl

@[simp] theorem isUsable_modifyHeld (s : Store Home) (r q : Reg) (f : KeySet Var → KeySet Var) :
    (s.modifyHeld r f).isUsable q = s.isUsable q := by
  simp only [isUsable, modifyHeld, slot_modifySlot]
  split
  · rename_i same
    rw [same]
  · rfl

@[simp] theorem get?_modifyHeld (s : Store Home) (r : Reg) (f : KeySet Var → KeySet Var) :
    (s.modifyHeld r f).get? v = s.get? v := rfl

@[simp] theorem get?_modifyEntry (s : Store Home) (v w : Var) (f : Entry Home → Entry Home) :
    (s.modifyEntry v f).get? w = if w = v then (s.get? v).map f else s.get? w := by
  by_cases same : w = v
  · subst same
    simp [get?, modifyEntry]
  · simp [get?, modifyEntry, same, Ne.symm same]

/-! Names -/

theorem lookup_spec {name : String} (found : s.lookup name = some v) :
    ∃ e, s.Has v e ∧ e.name = name := by
  obtain ⟨bound, chosen, _⟩ := List.findIdx?_eq_some_iff_getElem.mp found
  simp only [Bool.and_eq_true, decide_eq_true_eq] at chosen
  exact ⟨s.entries[v], ⟨List.getElem?_eq_getElem bound, by simpa using chosen.1⟩, chosen.2⟩

theorem lookup_none {name : String} {e : Entry Home} (absent : s.lookup name = none)
    (known : s.Has v e) : e.name ≠ name := by
  intro same
  have missed := List.findIdx?_eq_none_iff.mp absent e (List.mem_of_getElem? known.1)
  simp [known.2, same] at missed

theorem lookup_isSome {e : Entry Home} (known : s.Has v e) : ∃ w, s.lookup e.name = some w := by
  cases found : s.lookup e.name with
  | none => exact absurd rfl (lookup_none found known)
  | some w => exact ⟨w, rfl⟩

theorem mem_live : v ∈ s.live ↔ ∃ e, s.Has v e := by
  simp only [live, List.mem_filterMap, List.mem_zipIdx_iff_getElem?, Prod.exists, Has, get?]
  constructor
  · rintro ⟨e, w, found, kept⟩
    split at kept
    · contradiction
    · cases Option.some.inj kept
      exact ⟨e, found, by simpa using ‹¬ e.forgotten = true›⟩
  · rintro ⟨e, found, known⟩
    exact ⟨e, v, found, by simp [known]⟩

/-! Creation -/

theorem get?_lt {e : Entry Home} (found : s.get? v = some e) : v < s.entries.length :=
  (List.getElem?_eq_some_iff.mp found).1

theorem get?_append (s : Store Home) (e : Entry Home) (v : Nat) :
    ({ s with entries := s.entries ++ [e] } : Store Home).get? v =
      if v = s.entries.length then some e else s.get? v := by
  simp only [get?, List.getElem?_append]
  split
  · rename_i less
    simp [Nat.ne_of_lt less]
  · rename_i notLess
    split
    · rename_i same
      simp [same]
    · rename_i other
      have beyond : s.entries.length < v := by omega
      have none : s.entries[v]? = none := List.getElem?_eq_none (by omega)
      rw [none]
      refine List.getElem?_eq_none ?_
      show 1 ≤ v - s.entries.length
      omega

theorem get?_intern (s : Store Home) (name : String) (v : Var) :
    (s.intern name).2.get? v =
      if s.lookup name = none ∧ v = s.entries.length then some { name := name } else s.get? v := by
  unfold intern
  cases found : s.lookup name with
  | some w => simp
  | none => simp [get?_append]

@[simp] theorem held_intern (s : Store Home) (name : String) : (s.intern name).2.held r = s.held r := by
  unfold intern
  split <;> rfl

@[simp] theorem isUsable_intern (s : Store Home) (name : String) :
    (s.intern name).2.isUsable r = s.isUsable r := by
  unfold intern
  split <;> rfl

@[simp] theorem held_declare (s : Store Home) (name : String) (home : Option Home) :
    (s.declare name home).2.held r = s.held r := by
  simp [declare]

@[simp] theorem isUsable_declare (s : Store Home) (name : String) (home : Option Home) :
    (s.declare name home).2.isUsable r = s.isUsable r := by
  simp [declare]

theorem intern_fst_of_known {name : String} (found : s.lookup name = some v) :
    s.intern name = (v, s) := by
  simp [intern, found]

theorem intern_fst_of_new {name : String} (absent : s.lookup name = none) :
    (s.intern name).1 = s.entries.length := by
  simp [intern, absent]

/-! Registers -/

@[simp] theorem held_unbind (s : Store Home) (r q : Reg) (v : Var) :
    (s.unbind r v).held q = if q = r then (s.held r).erase v else s.held q := by
  simp [unbind]

@[simp] theorem isUsable_unbind (s : Store Home) (r q : Reg) (v : Var) :
    (s.unbind r v).isUsable q = s.isUsable q := by
  simp [unbind]

@[simp] theorem get?_unbind (s : Store Home) (r : Reg) (v w : Var) :
    (s.unbind r v).get? w =
      if w = v then (s.get? v).map fun e => { e with regs := e.regs.erase r } else s.get? w := by
  simp [unbind]

theorem held_releaseFrom (s : Store Home) (v : Var) (rs : List Reg) (q : Reg) :
    (s.releaseFrom v rs).held q = if rs.contains q then (s.held q).erase v else s.held q := by
  induction rs generalizing s with
  | nil => simp [releaseFrom]
  | cons r rs ih =>
    have step : s.releaseFrom v (r :: rs) = (s.modifyHeld r (·.erase v)).releaseFrom v rs := rfl
    rw [step, ih, held_modifyHeld]
    by_cases same : q = r
    · subst same
      simp [KeySet.erase]
    · simp [same]

theorem isUsable_releaseFrom (s : Store Home) (v : Var) (rs : List Reg) (q : Reg) :
    (s.releaseFrom v rs).isUsable q = s.isUsable q := by
  induction rs generalizing s with
  | nil => rfl
  | cons r rs ih =>
    have step : s.releaseFrom v (r :: rs) = (s.modifyHeld r (·.erase v)).releaseFrom v rs := rfl
    rw [step, ih, isUsable_modifyHeld]

theorem get?_releaseFrom (s : Store Home) (v w : Var) (rs : List Reg) :
    (s.releaseFrom v rs).get? w = s.get? w := by
  induction rs generalizing s with
  | nil => rfl
  | cons r rs ih =>
    have step : s.releaseFrom v (r :: rs) = (s.modifyHeld r (·.erase v)).releaseFrom v rs := rfl
    rw [step, ih, get?_modifyHeld]

theorem held_drop (s : Store Home) (v : Var) (q : Reg) :
    (s.drop v).held q = if q ∈ s.locations v then (s.held q).erase v else s.held q := by
  simp [drop, held_releaseFrom]

theorem isUsable_drop (s : Store Home) (v : Var) (q : Reg) :
    (s.drop v).isUsable q = s.isUsable q := by
  simp [drop, isUsable_releaseFrom]

theorem get?_drop (s : Store Home) (v w : Var) :
    (s.drop v).get? w =
      if w = v then (s.get? v).map fun e => { e with regs := .empty, forgotten := true }
      else s.get? w := by
  simp [drop, get?_releaseFrom]

/-- Emptying a register takes out at most the one variable in it. -/
theorem clearRegister_of_empty (empty : s.held r = .empty) : s.clearRegister r = s := by
  simp [clearRegister, empty, KeySet.empty, KeySet.toList, evict]

theorem clearRegister_of_single (only : s.held r = .single v) :
    s.clearRegister r = (s.unbind r v).dropOrphan v := by
  simp [clearRegister, only, KeySet.single, KeySet.toList, evict]

theorem dropOrphan_of_get? {e : Entry Home} (found : s.get? v = some e) :
    s.dropOrphan v = if e.home.isNone && e.regs.isEmpty then s.drop v else s := by
  simp [dropOrphan, found]

theorem held_dropOrphan (s : Store Home) (v : Var) (q : Reg) : (s.dropOrphan v).held q = s.held q := by
  cases found : s.get? v with
  | none => simp [dropOrphan, found]
  | some e =>
    rw [dropOrphan_of_get? found]
    split
    · rename_i orphan
      simp only [Bool.and_eq_true] at orphan
      have outside : q ∉ s.locations v := by
        simpa [locations, found] using KeySet.isEmpty_iff.mp orphan.2 q
      rw [held_drop, if_neg outside]
    · rfl

theorem isUsable_dropOrphan (s : Store Home) (v : Var) (q : Reg) :
    (s.dropOrphan v).isUsable q = s.isUsable q := by
  cases found : s.get? v with
  | none => simp [dropOrphan, found]
  | some e =>
    rw [dropOrphan_of_get? found]
    split
    · exact isUsable_drop s v q
    · rfl

theorem held_clearRegister (small : (s.held r).size ≤ 1) (q : Reg) :
    (s.clearRegister r).held q = if q = r then .empty else s.held q := by
  rcases KeySet.cases_of_size small with empty | ⟨v, only⟩
  · rw [clearRegister_of_empty empty]
    split
    · rename_i same
      rw [same, empty]
    · rfl
  · rw [clearRegister_of_single only, held_dropOrphan, held_unbind, only]
    simp [KeySet.single, KeySet.erase, KeySet.empty]

theorem isUsable_clearRegister (small : (s.held r).size ≤ 1) (q : Reg) :
    (s.clearRegister r).isUsable q = s.isUsable q := by
  rcases KeySet.cases_of_size small with empty | ⟨v, only⟩
  · rw [clearRegister_of_empty empty]
  · rw [clearRegister_of_single only, isUsable_dropOrphan, isUsable_unbind]

theorem get?_clearRegister {e : Entry Home} (only : s.held r = .single v)
    (found : s.get? v = some e) (w : Var) :
    (s.clearRegister r).get? w = if w = v then some (e.without r) else s.get? w := by
  have left : (s.unbind r v).get? v = some { e with regs := e.regs.erase r } := by simp [found]
  rw [clearRegister_of_single only, dropOrphan_of_get? left, Entry.without]
  by_cases orphan : (e.home.isNone && (e.regs.erase r).isEmpty) = true
  · rw [if_pos orphan, if_pos orphan, get?_drop]
    by_cases same : w = v
    · simp [same, left]
    · simp [same]
  · rw [if_neg orphan, if_neg orphan]
    by_cases same : w = v
    · simp [same, found]
    · simp [same]

theorem get?_clearRegister_of_known (small : (s.held r).size ≤ 1)
    (known : ∀ w, w ∈ s.held r → ∃ e, s.get? w = some e) (w : Var) :
    (s.clearRegister r).get? w =
      if w ∈ s.held r then (s.get? w).map (·.without r) else s.get? w := by
  rcases KeySet.cases_of_size small with empty | ⟨v, only⟩
  · simp [clearRegister_of_empty empty, empty]
  · obtain ⟨e, entry⟩ := known v (by simp [only])
    rw [get?_clearRegister only entry, only]
    by_cases same : w = v
    · simp [same, entry]
    · simp [same]

/-- Putting a variable into a register that holds nothing else. -/
theorem bind_of_own (own : ∀ w, w ∈ s.held r → w = v) :
    s.bind r v =
      (s.modifyHeld r fun _ => .single v).modifyEntry v fun e => { e with regs := e.regs.insert r } := by
  have none : (s.held r).toList.filter (· ≠ v) = [] := by
    simp only [List.filter_eq_nil_iff, decide_eq_true_eq, ne_eq, Decidable.not_not]
    exact own
  simp only [bind, none, evict, List.foldl_nil]

theorem held_bind (own : ∀ w, w ∈ s.held r → w = v) (q : Reg) :
    (s.bind r v).held q = if q = r then .single v else s.held q := by
  simp [bind_of_own own]

theorem isUsable_bind (own : ∀ w, w ∈ s.held r → w = v) (q : Reg) :
    (s.bind r v).isUsable q = s.isUsable q := by
  simp [bind_of_own own]

theorem get?_bind (own : ∀ w, w ∈ s.held r → w = v) (w : Var) :
    (s.bind r v).get? w =
      if w = v then (s.get? v).map fun e => { e with regs := e.regs.insert r } else s.get? w := by
  simp [bind_of_own own]

theorem own_releaseFrom (own : ∀ w, w ∈ s.held r → w = v) (rs : List Reg) :
    ∀ w, w ∈ (s.releaseFrom v rs).held r → w = v := by
  intro w member
  rw [held_releaseFrom] at member
  split at member
  · exact own w (KeySet.mem_erase.mp member).1
  · exact own w member

theorem held_commit (own : ∀ w, w ∈ s.held r → w = v) (q : Reg) :
    (s.commit r v).held q =
      if q = r then .single v else if q ∈ s.locations v then (s.held q).erase v else s.held q := by
  simp only [commit, held_modifyEntry, held_bind (own_releaseFrom own _), held_releaseFrom]
  by_cases same : q = r
  · simp [same]
  · simp [same]

theorem isUsable_commit (own : ∀ w, w ∈ s.held r → w = v) (q : Reg) :
    (s.commit r v).isUsable q = s.isUsable q := by
  simp only [commit, isUsable_modifyEntry, isUsable_bind (own_releaseFrom own _), isUsable_releaseFrom]

theorem get?_commit (own : ∀ w, w ∈ s.held r → w = v) (w : Var) :
    (s.commit r v).get? w =
      if w = v then (s.get? v).map fun e => { e with regs := .single r, homeValid := false }
      else s.get? w := by
  simp only [commit, get?_modifyEntry, get?_bind (own_releaseFrom own _), get?_releaseFrom]
  by_cases same : w = v
  · simp [same, Function.comp_def]
  · simp [same]

/-! Consistency -/

/-- Registers and entries agree, a register holds one variable at most, only usable registers
hold one, and a name belongs to one known variable. -/
structure Sound (s : Store Home) : Prop where
  listed : ∀ r v, v ∈ s.held r ↔ ∃ e, s.get? v = some e ∧ r ∈ e.regs
  single : ∀ r, (s.held r).size ≤ 1
  usable : ∀ r v, v ∈ s.held r → s.isUsable r = true
  unique : ∀ v w e f, s.Has v e → s.Has w f → e.name = f.name → v = w
  released : ∀ v e, s.get? v = some e → e.forgotten = true → ∀ r, r ∉ e.regs
  housed : ∀ v e, s.get? v = some e → e.homeValid = true → e.home.isSome = true
  ascending : ∀ v e, s.get? v = some e → e.regs.Ascending

theorem Sound.held_eq_single (sound : s.Sound) (member : v ∈ s.held r) : s.held r = .single v :=
  KeySet.eq_single_of_mem (sound.single r) member

theorem Sound.eq_of_held (sound : s.Sound) (left : v ∈ s.held r) (right : w ∈ s.held r) : v = w := by
  rw [sound.held_eq_single right] at left
  exact KeySet.mem_single.mp left

theorem Sound.known_of_reg {e : Entry Home} (sound : s.Sound) (found : s.get? v = some e)
    (member : r ∈ e.regs) : s.Has v e := by
  refine ⟨found, ?_⟩
  cases state : e.forgotten with
  | false => rfl
  | true => exact absurd member (sound.released v e found state r)

theorem Sound.known_of_held (sound : s.Sound) (member : v ∈ s.held r) :
    ∃ e, s.Has v e ∧ r ∈ e.regs := by
  obtain ⟨e, found, listed⟩ := (sound.listed r v).mp member
  exact ⟨e, sound.known_of_reg found listed, listed⟩

theorem Sound.lookup_eq {e : Entry Home} (sound : s.Sound) (known : s.Has v e) :
    s.lookup e.name = some v := by
  obtain ⟨w, found⟩ := lookup_isSome known
  obtain ⟨f, other, same⟩ := lookup_spec found
  rw [found, sound.unique v w e f known other same.symm]

theorem has_of_lookup {name : String} {e : Entry Home} (found : s.lookup name = some v)
    (entry : s.get? v = some e) : s.Has v e ∧ e.name = name := by
  obtain ⟨f, known, same⟩ := lookup_spec found
  have eq : f = e := Option.some.inj (known.1.symm.trans entry)
  exact ⟨eq ▸ known, eq ▸ same⟩

/-- A change of one entry and of the registers that list it keeps the store consistent. -/
theorem Sound.update {t : Store Home} {e f : Entry Home} (sound : s.Sound)
    (found : s.get? v = some e)
    (entries : ∀ w, t.get? w = if w = v then some f else s.get? w)
    (others : ∀ r w, w ≠ v → (w ∈ t.held r ↔ w ∈ s.held r))
    (own : ∀ r, v ∈ t.held r ↔ r ∈ f.regs)
    (single : ∀ r, (t.held r).size ≤ 1)
    (same : ∀ r, t.isUsable r = s.isUsable r)
    (usable : ∀ r, r ∈ f.regs → s.isUsable r = true)
    (name : f.forgotten = false → e.forgotten = false ∧ f.name = e.name)
    (released : f.forgotten = true → ∀ r, r ∉ f.regs)
    (housed : f.homeValid = true → f.home.isSome = true)
    (ascending : f.regs.Ascending) : t.Sound := by
  have known : ∀ w g, t.Has w g → ∃ g', s.Has w g' ∧ g'.name = g.name := by
    intro w g has
    have entry := has.1
    rw [entries] at entry
    split at entry
    · rename_i at_v
      cases Option.some.inj entry
      subst at_v
      exact ⟨e, ⟨found, (name has.2).1⟩, (name has.2).2.symm⟩
    · exact ⟨g, ⟨entry, has.2⟩, rfl⟩
  constructor
  · intro r w
    by_cases at_v : w = v
    · subst at_v
      simp [own r, entries]
    · simp [others r w at_v, sound.listed r w, entries, at_v]
  · exact single
  · intro r w member
    rw [same]
    by_cases at_v : w = v
    · subst at_v
      exact usable r ((own r).mp member)
    · exact sound.usable r w ((others r w at_v).mp member)
  · intro u w g h left right names
    obtain ⟨g', hasG, nameG⟩ := known u g left
    obtain ⟨h', hasH, nameH⟩ := known w h right
    exact sound.unique u w g' h' hasG hasH (nameG.trans (names.trans nameH.symm))
  · intro w g entry
    rw [entries] at entry
    split at entry
    · cases Option.some.inj entry
      exact released
    · exact sound.released w g entry
  · intro w g entry
    rw [entries] at entry
    split at entry
    · cases Option.some.inj entry
      exact housed
    · exact sound.housed w g entry
  · intro w g entry
    rw [entries] at entry
    split at entry
    · cases Option.some.inj entry
      exact ascending
    · exact sound.ascending w g entry

/-- A change of one entry that keeps its registers keeps the store consistent. -/
theorem Sound.modifyEntry {e f : Entry Home} (sound : s.Sound) (found : s.get? v = some e)
    {change : Entry Home → Entry Home} (changed : change e = f) (regs : f.regs = e.regs)
    (name : f.name = e.name) (forgotten : f.forgotten = e.forgotten)
    (housed : f.homeValid = true → f.home.isSome = true) : (s.modifyEntry v change).Sound := by
  refine sound.update (f := f) found ?_ ?_ ?_ ?_ ?_ ?_ ?_ ?_ housed ?_
  · intro w
    simp only [get?_modifyEntry, found, Option.map_some, changed]
  · intro r w _
    simp
  · intro r
    simp [sound.listed, found, regs]
  · intro r
    simpa using sound.single r
  · intro r
    simp
  · intro r member
    exact sound.usable r v ((sound.listed r v).mpr ⟨e, found, regs ▸ member⟩)
  · intro kept
    exact ⟨forgotten ▸ kept, name⟩
  · intro gone r
    rw [regs]
    exact sound.released v e found (forgotten ▸ gone) r
  · rw [regs]
    exact sound.ascending v e found

theorem get?_markStored (s : Store Home) (v w : Var) :
    (s.markStored v).get? w = if w = v then (s.get? v).map Entry.markStored else s.get? w :=
  get?_modifyEntry ..

theorem held_markStored (s : Store Home) (v : Var) (r : Reg) : (s.markStored v).held r = s.held r :=
  held_modifyEntry ..

theorem Has.markStored {e : Entry Home} (known : s.Has v e) : (s.markStored v).Has v e.markStored :=
  ⟨by rw [get?_markStored, if_pos rfl, known.1, Option.map_some], known.2⟩

theorem Sound.markStored {e : Entry Home} (sound : s.Sound) (found : s.get? v = some e) :
    (s.markStored v).Sound :=
  sound.modifyEntry found (f := e.markStored) rfl rfl rfl rfl (fun valid => valid)

theorem Sound.clearRegister (sound : s.Sound) (r : Reg) : (s.clearRegister r).Sound := by
  rcases KeySet.cases_of_size (sound.single r) with empty | ⟨v, only⟩
  · rw [clearRegister_of_empty empty]
    exact sound
  · have member : v ∈ s.held r := by simp [only]
    obtain ⟨e, known, _⟩ := sound.known_of_held member
    have small := sound.single r
    have listed (q : Reg) : v ∈ s.held q ↔ q ∈ e.regs := by simp [sound.listed, known.1]
    refine sound.update (f := e.without r) known.1 (get?_clearRegister only known.1) ?_ ?_ ?_
      (isUsable_clearRegister small) ?_ ?_ ?_ ?_ (Entry.ascending_without (sound.ascending v e known.1) r)
    · intro q w other
      rw [held_clearRegister small]
      split
      · rename_i same
        simp [same, only, other]
      · rfl
    · intro q
      rw [held_clearRegister small, Entry.mem_without, ← listed]
      split
      · rename_i same
        simp [same]
      · rename_i other
        simp [other]
    · intro q
      rw [held_clearRegister small]
      split
      · simp [KeySet.empty, KeySet.size]
      · exact sound.single q
    · intro q member
      exact sound.usable q v ((listed q).mpr (Entry.mem_without.mp member).1)
    · exact fun _ => ⟨known.2, Entry.name_without e r⟩
    · intro gone q member
      obtain ⟨inside, other⟩ := Entry.mem_without.mp member
      rcases Entry.forgotten_without.mp gone with forgotten | ⟨_, last⟩
      · simp [known.2] at forgotten
      · exact other (last q inside)
    · simpa using sound.housed v e known.1

theorem Sound.get?_clearRegister (sound : s.Sound) (r : Reg) (w : Var) :
    (s.clearRegister r).get? w =
      if w ∈ s.held r then (s.get? w).map (·.without r) else s.get? w := by
  refine get?_clearRegister_of_known (sound.single r) (fun u held => ?_) w
  obtain ⟨e, known, _⟩ := sound.known_of_held held
  exact ⟨e, known.1⟩

/-- Of the entries behind an emptied register, that of the variable in it has changed. -/
theorem Sound.entry_cleared {f : Entry Home} (sound : s.Sound) (after : (s.clearRegister r).get? w = some f) :
    s.get? w = some f ∨ ∃ e, s.Has w e ∧ r ∈ e.regs ∧ f = e.without r := by
  rw [sound.get?_clearRegister] at after
  split at after
  · rename_i held
    obtain ⟨e, known, listed⟩ := sound.known_of_held held
    rw [known.1, Option.map_some] at after
    exact .inr ⟨e, known, listed, (Option.some.inj after).symm⟩
  · exact .inl after

theorem Sound.unbind {e : Entry Home} (sound : s.Sound) (known : s.Has v e) (r : Reg) :
    (s.unbind r v).Sound := by
  refine sound.update (f := { e with regs := e.regs.erase r }) known.1 ?_ ?_ ?_ ?_ ?_ ?_ ?_ ?_ ?_ ?_
  · intro w
    simp only [get?_unbind, known.1, Option.map_some]
  · intro q w other
    rw [held_unbind]
    split
    · rename_i same
      simp [same, other]
    · rfl
  · intro q
    have listed : v ∈ s.held q ↔ q ∈ e.regs := by simp [sound.listed, known.1]
    rw [held_unbind]
    split
    · rename_i same
      simp [same]
    · rename_i other
      simp [listed, other]
  · intro q
    rw [held_unbind]
    split
    · have small := sound.single r
      exact Nat.le_trans (List.length_filter_le _ _) small
    · exact sound.single q
  · intro q
    simp
  · intro q member
    have before : q ∈ e.regs := (KeySet.mem_erase.mp member).1
    exact sound.usable q v ((sound.listed q v).mpr ⟨e, known.1, before⟩)
  · exact fun _ => ⟨known.2, rfl⟩
  · intro impossible
    simp [known.2] at impossible
  · exact sound.housed v e known.1
  · exact (sound.ascending v e known.1).erase r

theorem Sound.bind {e : Entry Home} (sound : s.Sound) (known : s.Has v e)
    (own : ∀ w, w ∈ s.held r → w = v) (usable : s.isUsable r = true) : (s.bind r v).Sound := by
  refine sound.update (f := { e with regs := e.regs.insert r }) known.1 ?_ ?_ ?_ ?_
    (isUsable_bind own) ?_ ?_ ?_ ?_ ?_
  · intro w
    simp only [get?_bind own, known.1, Option.map_some]
  · intro q w other
    rw [held_bind own]
    split
    · rename_i same
      subst same
      simp only [KeySet.mem_single, other, false_iff]
      exact fun member => other (own w member)
    · rfl
  · intro q
    have listed : v ∈ s.held q ↔ q ∈ e.regs := by simp [sound.listed, known.1]
    rw [held_bind own]
    split
    · rename_i same
      simp [same]
    · rename_i other
      simp [listed, other]
  · intro q
    rw [held_bind own]
    split
    · simp [KeySet.single, KeySet.size]
    · exact sound.single q
  · intro q member
    rcases KeySet.mem_insert.mp member with rfl | before
    · exact usable
    · exact sound.usable q v ((sound.listed q v).mpr ⟨e, known.1, before⟩)
  · exact fun _ => ⟨known.2, rfl⟩
  · intro impossible
    simp [known.2] at impossible
  · exact sound.housed v e known.1
  · exact (sound.ascending v e known.1).insert r

theorem Sound.commit {e : Entry Home} (sound : s.Sound) (known : s.Has v e)
    (own : ∀ w, w ∈ s.held r → w = v) (usable : s.isUsable r = true) : (s.commit r v).Sound := by
  have listed : ∀ q, v ∈ s.held q ↔ q ∈ e.regs := by simp [sound.listed, known.1]
  have locations : s.locations v = e.regs := by simp [Store.locations, known.1]
  refine sound.update (f := { e with regs := .single r, homeValid := false }) known.1 ?_ ?_ ?_ ?_
    (isUsable_commit own) ?_ ?_ ?_ ?_ ?_
  · intro w
    simp only [get?_commit own, known.1, Option.map_some]
  · intro q w other
    rw [held_commit own]
    split
    · rename_i same
      subst same
      simp only [KeySet.mem_single, other, false_iff]
      exact fun member => other (own w member)
    · split
      · simp [other]
      · rfl
  · intro q
    rw [held_commit own, locations]
    split
    · rename_i same
      simp [same]
    · rename_i other
      split
      · simp [other]
      · rename_i absent
        simp [listed, absent, other]
  · intro q
    rw [held_commit own]
    split
    · simp [KeySet.single, KeySet.size]
    · split
      · exact Nat.le_trans (List.length_filter_le _ _) (sound.single q)
      · exact sound.single q
  · intro q member
    rw [KeySet.mem_single.mp member]
    exact usable
  · exact fun _ => ⟨known.2, rfl⟩
  · intro impossible
    simp [known.2] at impossible
  · simp
  · exact KeySet.ascending_single r

theorem Sound.drop {e : Entry Home} (sound : s.Sound) (found : s.get? v = some e) :
    (s.drop v).Sound := by
  have listed : ∀ q, v ∈ s.held q ↔ q ∈ e.regs := by simp [sound.listed, found]
  have locations : s.locations v = e.regs := by simp [Store.locations, found]
  refine sound.update (f := { e with regs := .empty, forgotten := true }) found ?_ ?_ ?_ ?_
    (isUsable_drop s v) ?_ ?_ ?_ ?_ ?_
  · intro w
    simp only [get?_drop, found, Option.map_some]
  · intro q w other
    rw [held_drop]
    split
    · simp [other]
    · rfl
  · intro q
    rw [held_drop, locations]
    split
    · simp
    · rename_i absent
      simp [listed, absent]
  · intro q
    rw [held_drop]
    split
    · exact Nat.le_trans (List.length_filter_le _ _) (sound.single q)
    · exact sound.single q
  · intro q member
    exact absurd member (KeySet.not_mem_empty q)
  · intro impossible
    simp at impossible
  · exact fun _ => KeySet.not_mem_empty
  · exact sound.housed v e found
  · exact KeySet.ascending_empty

theorem has_intern {name : String} {e : Entry Home} (known : s.Has v e) :
    (s.intern name).2.Has v e := by
  have less := get?_lt known.1
  refine ⟨?_, known.2⟩
  rw [get?_intern, if_neg]
  · exact known.1
  · rintro ⟨_, same⟩
    exact Nat.ne_of_lt less same

theorem Sound.intern (sound : s.Sound) (name : String) : (s.intern name).2.Sound := by
  cases found : s.lookup name with
  | some v =>
    rw [intern_fst_of_known found]
    exact sound
  | none =>
    have entries : ∀ w e, (s.intern name).2.get? w = some e →
        s.get? w = some e ∨ (w = s.entries.length ∧ e = { name := name }) := by
      intro w e entry
      rw [get?_intern] at entry
      split at entry
      · rename_i fresh
        exact .inr ⟨fresh.2, (Option.some.inj entry).symm⟩
      · exact .inl entry
    have fresh : ∀ e, s.get? s.entries.length ≠ some e := fun e entry =>
      Nat.lt_irrefl _ (get?_lt entry)
    constructor
    · intro r w
      rw [held_intern, sound.listed]
      constructor
      · rintro ⟨e, entry, member⟩
        refine ⟨e, ?_, member⟩
        rw [get?_intern, if_neg]
        · exact entry
        · rintro ⟨_, same⟩
          exact fresh e (same ▸ entry)
      · rintro ⟨e, entry, member⟩
        rcases entries w e entry with before | ⟨_, rfl⟩
        · exact ⟨e, before, member⟩
        · exact absurd member (KeySet.not_mem_empty r)
    · simpa using sound.single
    · simpa using sound.usable
    · intro u w e f left right names
      rcases entries u e left.1 with before | ⟨atEnd, rfl⟩
      · rcases entries w f right.1 with before' | ⟨atEnd', rfl⟩
        · exact sound.unique u w e f ⟨before, left.2⟩ ⟨before', right.2⟩ names
        · exact absurd names (lookup_none found ⟨before, left.2⟩)
      · rcases entries w f right.1 with before' | ⟨atEnd', rfl⟩
        · exact absurd names.symm (lookup_none found ⟨before', right.2⟩)
        · rw [atEnd, atEnd']
    · intro w e entry gone r
      rcases entries w e entry with before | ⟨_, rfl⟩
      · exact sound.released w e before gone r
      · exact KeySet.not_mem_empty r
    · intro w e entry valid
      rcases entries w e entry with before | ⟨_, rfl⟩
      · exact sound.housed w e before valid
      · simp at valid
    · intro w e entry
      rcases entries w e entry with before | ⟨_, rfl⟩
      · exact sound.ascending w e before
      · exact KeySet.ascending_empty

theorem intern_has (s : Store Home) (name : String) :
    ∃ e, (s.intern name).2.Has (s.intern name).1 e ∧ e.name = name := by
  cases found : s.lookup name with
  | some v =>
    rw [intern_fst_of_known found]
    exact lookup_spec found
  | none =>
    rw [intern_fst_of_new found]
    exact ⟨{ name := name }, ⟨by simp [get?_intern, found], rfl⟩, rfl⟩

theorem Sound.declare (sound : s.Sound) (name : String) (home : Option Home) :
    (s.declare name home).2.Sound := by
  obtain ⟨e, known, _⟩ := intern_has s name
  exact (sound.intern name).modifyEntry (f := { e with home := home, homeValid := home.isSome })
    known.1 rfl rfl rfl rfl (fun valid => valid)

theorem declare_of_known {name : String} (found : s.lookup name = some v) (home : Option Home) :
    s.declare name home =
      (v, s.modifyEntry v fun e => { e with home := home, homeValid := home.isSome }) := by
  simp [Store.declare, intern_fst_of_known found]

theorem declare_of_new {name : String} (absent : s.lookup name = none) (home : Option Home) :
    (s.declare name home).1 = s.entries.length ∧
      ∀ w, (s.declare name home).2.get? w =
        if w = s.entries.length then some { name := name, home := home, homeValid := home.isSome }
        else s.get? w := by
  refine ⟨intern_fst_of_new absent, ?_⟩
  intro w
  simp only [Store.declare, get?_modifyEntry, intern_fst_of_new absent, get?_intern, absent, true_and]
  by_cases same : w = s.entries.length
  · simp [same]
  · simp [same]

@[simp] theorem get?_setUsable (s : Store Home) (r : Reg) (usable : Bool) :
    (s.setUsable r usable).get? v = s.get? v := rfl

@[simp] theorem held_setUsable (s : Store Home) (r q : Reg) (usable : Bool) :
    (s.setUsable r usable).held q = s.held q := by
  simp only [held, setUsable, slot_modifySlot]
  split
  · rename_i same
    rw [same]
  · rfl

@[simp] theorem isUsable_setUsable (s : Store Home) (r q : Reg) (usable : Bool) :
    (s.setUsable r usable).isUsable q = if q = r then usable else s.isUsable q := by
  simp only [isUsable, setUsable, slot_modifySlot]
  split <;> rfl

@[simp] theorem get?_empty : (empty : Store Home).get? v = none := rfl

@[simp] theorem held_empty (r : Reg) : (empty : Store Home).held r = .empty := by
  have index : (empty : Store Home).slot r = (Vector.replicate 15 ({} : Slot))[r.val] := rfl
  simp only [held, index, Vector.getElem_replicate]
  rfl

/-- A store that knows no variable is consistent. -/
theorem sound_of_unused (entries : ∀ v, s.get? v = none) (registers : ∀ r, s.held r = .empty) :
    s.Sound where
  listed r v := by simp [entries, registers]
  single r := by simp [registers, KeySet.empty, KeySet.size]
  usable r v member := by simp [registers] at member
  unique v _ _ _ left := by simp [Has, entries] at left
  released v e found := by simp [entries] at found
  housed v e found := by simp [entries] at found
  ascending v e found := by simp [entries] at found

end Store

end ThreeAddress.Descriptor
