import ThreeAddress.Descriptor.Session
import ThreeAddress.Proofs.Descriptor

/-! Descriptor stores under any sequence of commands. The generator keeps to some discipline; here
registers that may not be used and variables that are forgotten are filled as well, and still
registers, variables and names agree. -/
namespace ThreeAddress.Descriptor

namespace Store

variable {Home : Type} {s t : Store Home} {r q : Reg} {v w : Var}

/-! Operations on a register that holds any variable -/

theorem clearRegister_bind (only : s.held r = .single w) (other : w ≠ v) :
    s.bind r v = (s.clearRegister r).bind r v := by
  have small : (s.held r).size ≤ 1 := by simp [only, KeySet.single, KeySet.size]
  have cleared : (s.clearRegister r).held r = .empty := by simp [held_clearRegister small]
  have evicted : s.clearRegister r = s.evict r [w] := by
    rw [clearRegister, only]
    rfl
  have filtered : (s.held r).toList.filter (· ≠ v) = [w] := by
    rw [only]
    simp [KeySet.single, KeySet.toList, other]
  rw [bind_of_own (s := s.clearRegister r) (by simp [cleared]), bind, filtered, evicted]

/-- A register that holds one variable at most is emptied first, if it holds another one. -/
theorem bind_cases (small : (s.held r).size ≤ 1) (v : Var) :
    (∀ w, w ∈ s.held r → w = v) ∨ ∃ w, w ≠ v ∧ s.held r = .single w := by
  rcases KeySet.cases_of_size small with empty | ⟨w, only⟩
  · exact .inl (by simp [empty])
  · by_cases same : w = v
    · exact .inl (by simp [only, same])
    · exact .inr ⟨w, same, only⟩

theorem held_bind_of_small (small : (s.held r).size ≤ 1) (v : Var) (q : Reg) :
    (s.bind r v).held q = if q = r then .single v else s.held q := by
  rcases bind_cases small v with own | ⟨w, other, only⟩
  · exact held_bind own q
  · rw [clearRegister_bind only other, held_bind (by simp [held_clearRegister small]),
      held_clearRegister small]
    by_cases same : q = r
    · simp [same]
    · simp [same]

theorem get?_bind_of_known (small : (s.held r).size ≤ 1)
    (known : ∀ w, w ∈ s.held r → ∃ e, s.get? w = some e) (v w : Var) :
    (s.bind r v).get? w =
      if w = v then (s.get? v).map fun e => { e with regs := e.regs.insert r }
      else if w ∈ s.held r then (s.get? w).map (·.without r) else s.get? w := by
  rcases bind_cases small v with own | ⟨u, other, only⟩
  · rw [get?_bind own]
    by_cases same : w = v
    · simp [same]
    · have outside : w ∉ s.held r := fun member => same (own w member)
      simp [same, outside]
  · rw [clearRegister_bind only other, get?_bind (by simp [held_clearRegister small]),
      get?_clearRegister_of_known small known, get?_clearRegister_of_known small known]
    have outside : v ∉ s.held r := by simpa [only] using Ne.symm other
    simp [outside]

theorem held_commit_of_small (small : (s.held r).size ≤ 1) (v : Var) (q : Reg) :
    (s.commit r v).held q =
      if q = r then .single v else if q ∈ s.locations v then (s.held q).erase v else s.held q := by
  have same : (s.releaseFrom v ((s.locations v).toList.filter (· ≠ r))).held r = s.held r := by
    simp [held_releaseFrom]
  simp only [commit, held_modifyEntry]
  rw [held_bind_of_small (by rwa [same]), held_releaseFrom]
  by_cases at_r : q = r
  · simp [at_r]
  · simp [at_r]

theorem get?_commit_of_known (small : (s.held r).size ≤ 1)
    (known : ∀ w, w ∈ s.held r → ∃ e, s.get? w = some e) (v w : Var) :
    (s.commit r v).get? w =
      if w = v then (s.get? v).map fun e => { e with regs := .single r, homeValid := false }
      else if w ∈ s.held r then (s.get? w).map (·.without r) else s.get? w := by
  have same : (s.releaseFrom v ((s.locations v).toList.filter (· ≠ r))).held r = s.held r := by
    simp [held_releaseFrom]
  have known' : ∀ w, w ∈ (s.releaseFrom v ((s.locations v).toList.filter (· ≠ r))).held r →
      ∃ e, (s.releaseFrom v ((s.locations v).toList.filter (· ≠ r))).get? w = some e := by
    intro w member
    rw [same] at member
    rw [get?_releaseFrom]
    exact known w member
  simp only [commit, get?_modifyEntry, get?_bind_of_known (same ▸ small) known', same, get?_releaseFrom]
  by_cases at_v : w = v
  · simp [at_v, Function.comp_def]
  · simp [at_v]

/-! What every command keeps -/

/-- Registers and entries agree, a register holds one variable at most, a name belongs to one
known variable, and only a home that is there is valid. -/
structure Linked (s : Store Home) : Prop where
  listed : ∀ r v, v ∈ s.held r ↔ ∃ e, s.get? v = some e ∧ r ∈ e.regs
  single : ∀ r, (s.held r).size ≤ 1
  unique : ∀ v w e f, s.Has v e → s.Has w f → e.name = f.name → v = w
  housed : ∀ v e, s.get? v = some e → e.homeValid = true → e.home.isSome = true

/-- A change of an entry that leaves its name and its home, revives nothing and marks no home as
valid that is not there. -/
structure Tame (change : Entry Home → Entry Home) : Prop where
  name : ∀ e, (change e).name = e.name
  home : ∀ e, (change e).home = e.home
  live : ∀ e, (change e).forgotten = false → e.forgotten = false
  valid : ∀ e, (change e).homeValid = true → e.homeValid = true ∨ e.home.isSome = true

/-- Every entry is changed by itself, and only in a tame way. -/
def Reworked (s t : Store Home) : Prop :=
  ∃ change : Var → Entry Home → Entry Home,
    (∀ v, Tame (change v)) ∧ ∀ v, t.get? v = (s.get? v).map (change v)

theorem tame_id : Tame (id : Entry Home → Entry Home) :=
  ⟨fun _ => rfl, fun _ => rfl, fun _ live => live, fun _ => .inl⟩

theorem Tame.comp {f g : Entry Home → Entry Home} (first : Tame f) (second : Tame g) : Tame (g ∘ f) := by
  constructor
  · intro e
    exact (second.name (f e)).trans (first.name e)
  · intro e
    exact (second.home (f e)).trans (first.home e)
  · intro e live
    exact first.live e (second.live (f e) live)
  · intro e valid
    rcases second.valid (f e) valid with stored | housed
    · exact first.valid e stored
    · exact .inr (first.home e ▸ housed)

theorem tame_without (r : Reg) : Tame fun e : Entry Home => e.without r := by
  constructor
  all_goals
    intro e
    unfold Entry.without
    split <;> simp +contextual

theorem Reworked.refl (s : Store Home) : Reworked s s := ⟨fun _ => id, fun _ => tame_id, by simp⟩

theorem Reworked.trans {u : Store Home} (first : Reworked s t) (second : Reworked t u) :
    Reworked s u := by
  obtain ⟨f, tame, entries⟩ := first
  obtain ⟨g, tame', entries'⟩ := second
  exact ⟨fun v => g v ∘ f v, fun v => (tame v).comp (tame' v), fun v => by simp [entries', entries]⟩

theorem Reworked.lookup_none {name : String} (reworked : Reworked s t)
    (absent : s.lookup name = none) : t.lookup name = none := by
  obtain ⟨change, tame, entries⟩ := reworked
  cases found : t.lookup name with
  | none => rfl
  | some v =>
    obtain ⟨f, known, rfl⟩ := lookup_spec found
    obtain ⟨e, before, rfl⟩ := Option.map_eq_some_iff.mp ((entries v).symm.trans known.1)
    have live := (tame v).live e known.2
    exact absurd ((tame v).name e).symm (Store.lookup_none absent ⟨before, live⟩)

theorem Linked.known (linked : s.Linked) (r : Reg) : ∀ w, w ∈ s.held r → ∃ e, s.get? w = some e := by
  intro w member
  obtain ⟨e, entry, _⟩ := (linked.listed r w).mp member
  exact ⟨e, entry⟩

theorem Linked.mem_held {e : Entry Home} (linked : s.Linked) (entry : s.get? v = some e) (r : Reg) :
    v ∈ s.held r ↔ r ∈ e.regs := by
  simp [linked.listed, entry]

theorem Linked.lookup_iff (linked : s.Linked) {name : String} :
    s.lookup name = some v ↔ ∃ e, s.Has v e ∧ e.name = name := by
  constructor
  · exact lookup_spec
  · rintro ⟨e, known, rfl⟩
    obtain ⟨w, found⟩ := lookup_isSome known
    obtain ⟨f, other, same⟩ := lookup_spec found
    rw [found, linked.unique v w e f known other same.symm]

/-- Changing the entries keeps the links if the registers follow. -/
theorem Linked.change (linked : s.Linked) {k : Var → Entry Home → Entry Home}
    (entries : ∀ v, t.get? v = (s.get? v).map (k v))
    (name : ∀ v e, (k v e).name = e.name)
    (live : ∀ v e, (k v e).forgotten = false → e.forgotten = false)
    (housed : ∀ v e, s.get? v = some e → (k v e).homeValid = true →
      (k v e).home.isSome = true)
    (known : ∀ r v, v ∈ t.held r → ∃ e, s.get? v = some e)
    (listed : ∀ r v e, s.get? v = some e → (v ∈ t.held r ↔ r ∈ (k v e).regs))
    (single : ∀ r, (t.held r).size ≤ 1) : t.Linked := by
  have before {v : Var} {f : Entry Home} (after : t.get? v = some f) :
      ∃ e, s.get? v = some e ∧ k v e = f :=
    Option.map_eq_some_iff.mp ((entries v).symm.trans after)
  constructor
  · intro r v
    constructor
    · intro member
      obtain ⟨e, entry⟩ := known r v member
      exact ⟨k v e, by simp [entries, entry], (listed r v e entry).mp member⟩
    · rintro ⟨f, after, inside⟩
      obtain ⟨e, entry, rfl⟩ := before after
      exact (listed r v e entry).mpr inside
  · exact single
  · intro v w f g left right names
    obtain ⟨e, entry, rfl⟩ := before left.1
    obtain ⟨e', entry', rfl⟩ := before right.1
    apply linked.unique v w e e' ⟨entry, live v e left.2⟩ ⟨entry', live w e' right.2⟩
    exact (name v e).symm.trans (names.trans (name w e'))
  · intro v f after
    obtain ⟨e, entry, rfl⟩ := before after
    exact housed v e entry

theorem Linked.rework (linked : s.Linked) {k : Var → Entry Home → Entry Home}
    (tame : ∀ v, Tame (k v)) (entries : ∀ v, t.get? v = (s.get? v).map (k v))
    (known : ∀ r v, v ∈ t.held r → ∃ e, s.get? v = some e)
    (listed : ∀ r v e, s.get? v = some e → (v ∈ t.held r ↔ r ∈ (k v e).regs))
    (single : ∀ r, (t.held r).size ≤ 1) : t.Linked ∧ Reworked s t := by
  refine ⟨linked.change entries (fun v => (tame v).name) (fun v => (tame v).live) ?_ known listed
    single, k, tame, entries⟩
  intro v e entry valid
  rw [(tame v).home]
  rcases (tame v).valid e valid with stored | housed
  · exact linked.housed v e entry stored
  · exact housed

/-! Each operation -/

theorem Linked.markStored (linked : s.Linked) (v : Var) :
    (s.markStored v).Linked ∧ Reworked s (s.markStored v) := by
  apply linked.rework (k := fun w => if w = v then Entry.markStored else id)
  · intro w
    split
    · exact ⟨fun _ => rfl, fun _ => rfl, fun _ live => live, fun _ => .inr⟩
    · exact tame_id
  · intro w
    rw [Store.markStored, get?_modifyEntry]
    split
    · rename_i same
      rw [same]
    · simp
  · exact linked.known
  · intro r w e entry
    have regs : ((if w = v then Entry.markStored else id) e).regs = e.regs := by split <;> rfl
    rw [regs]
    exact linked.mem_held entry r
  · exact linked.single

theorem Linked.setUsable (linked : s.Linked) (r : Reg) (usable : Bool) :
    (s.setUsable r usable).Linked ∧ Reworked s (s.setUsable r usable) := by
  apply linked.rework (k := fun _ => id)
  · exact fun _ => tame_id
  · simp
  · simpa using linked.known
  · intro q w e entry
    simpa using linked.mem_held entry q
  · simpa using linked.single

theorem Linked.unbind (linked : s.Linked) (r : Reg) (v : Var) :
    (s.unbind r v).Linked ∧ Reworked s (s.unbind r v) := by
  apply linked.rework
    (k := fun w => if w = v then fun e => { e with regs := e.regs.erase r } else id)
  · intro w
    split
    · exact ⟨fun _ => rfl, fun _ => rfl, fun _ live => live, fun _ => .inl⟩
    · exact tame_id
  · intro w
    rw [get?_unbind]
    split
    · rename_i same
      rw [same]
    · simp
  · intro q w member
    rw [held_unbind] at member
    split at member
    · exact linked.known r w (KeySet.mem_erase.mp member).1
    · exact linked.known q w member
  · intro q w e entry
    have before := linked.mem_held entry
    rw [held_unbind]
    by_cases same : w = v <;> by_cases at_r : q = r <;> simp [same, at_r, ← before]
  · intro q
    rw [held_unbind]
    split
    · exact Nat.le_trans (List.length_filter_le _ _) (linked.single r)
    · exact linked.single q

theorem Linked.drop (linked : s.Linked) (v : Var) : (s.drop v).Linked ∧ Reworked s (s.drop v) := by
  have fewer {q : Reg} {w : Var} (member : w ∈ (s.drop v).held q) : w ∈ s.held q := by
    rw [held_drop] at member
    split at member
    · exact (KeySet.mem_erase.mp member).1
    · exact member
  apply linked.rework
    (k := fun w => if w = v then fun e => { e with regs := .empty, forgotten := true } else id)
  · intro w
    split
    · exact ⟨fun _ => rfl, fun _ => rfl, by simp, fun _ => .inl⟩
    · exact tame_id
  · intro w
    rw [get?_drop]
    split
    · rename_i same
      rw [same]
    · simp
  · exact fun q w member => linked.known q w (fewer member)
  · intro q w e entry
    have before := linked.mem_held entry q
    rw [held_drop]
    by_cases same : w = v
    · subst same
      have locations : s.locations w = e.regs := by simp [Store.locations, entry]
      by_cases inside : q ∈ e.regs <;> simp [locations, inside, before]
    · by_cases inside : q ∈ s.locations v <;> simp [inside, same, before]
  · intro q
    rw [held_drop]
    split
    · exact Nat.le_trans (List.length_filter_le _ _) (linked.single q)
    · exact linked.single q

theorem Linked.clearRegister (linked : s.Linked) (r : Reg) :
    (s.clearRegister r).Linked ∧ Reworked s (s.clearRegister r) := by
  have held := held_clearRegister (linked.single r)
  apply linked.rework (k := fun w => if w ∈ s.held r then (·.without r) else id)
  · intro w
    split
    · exact tame_without r
    · exact tame_id
  · intro w
    rw [get?_clearRegister_of_known (linked.single r) (linked.known r)]
    split
    · rfl
    · simp
  · intro q w member
    rw [held] at member
    split at member
    · exact absurd member (KeySet.not_mem_empty w)
    · exact linked.known q w member
  · intro q w e entry
    have before := linked.mem_held entry
    rw [held]
    by_cases inside : w ∈ s.held r <;> by_cases at_r : q = r
    · simp [inside, at_r, Entry.mem_without]
    · simp [inside, at_r, Entry.mem_without, before]
    · simpa [inside, at_r] using fun listed => inside ((before r).mpr listed)
    · simp [inside, at_r, before]
  · intro q
    rw [held]
    split
    · simp [KeySet.empty, KeySet.size]
    · exact linked.single q

theorem Linked.clearAll (linked : s.Linked) (rs : List Reg) :
    (rs.foldl Store.clearRegister s).Linked ∧ Reworked s (rs.foldl Store.clearRegister s) := by
  induction rs generalizing s with
  | nil => exact ⟨linked, .refl s⟩
  | cons r rs ih =>
    obtain ⟨first, reworked⟩ := linked.clearRegister r
    obtain ⟨all, reworked'⟩ := ih first
    exact ⟨all, reworked.trans reworked'⟩

/-- Binding and committing put one variable into the register and take out the other one. -/
theorem Linked.fill {e : Entry Home} {k : Entry Home → Entry Home} (linked : s.Linked)
    (entry : s.get? v = some e) (tame : Tame k)
    (entries : ∀ w, t.get? w = if w = v then (s.get? v).map k
      else if w ∈ s.held r then (s.get? w).map (·.without r) else s.get? w)
    (own : ∀ q, v ∈ t.held q ↔ q ∈ (k e).regs)
    (others : ∀ q w, w ≠ v → (w ∈ t.held q ↔ w ∈ s.held q ∧ q ≠ r))
    (single : ∀ q, (t.held q).size ≤ 1) : t.Linked ∧ Reworked s t := by
  apply linked.rework
    (k := fun w => if w = v then k else if w ∈ s.held r then (·.without r) else id)
  · intro w
    split
    · exact tame
    · split
      · exact tame_without r
      · exact tame_id
  · intro w
    rw [entries]
    split
    · rename_i same
      rw [same]
    · split
      · rfl
      · simp
  · intro q w member
    by_cases same : w = v
    · exact ⟨e, same ▸ entry⟩
    · exact linked.known q w ((others q w same).mp member).1
  · intro q w f found
    by_cases same : w = v
    · subst same
      cases Option.some.inj (entry.symm.trans found)
      simpa using own q
    · have before := linked.mem_held found
      rw [others q w same, before]
      by_cases inside : w ∈ s.held r
      · simp [same, inside, Entry.mem_without]
      · have outside : r ∉ f.regs := fun listed => inside ((before r).mpr listed)
        simp only [same, inside, if_false, id]
        constructor
        · exact fun listed => listed.1
        · intro listed
          exact ⟨listed, fun at_r => outside (at_r ▸ listed)⟩
  · exact single

theorem Linked.bind {e : Entry Home} (linked : s.Linked) (entry : s.get? v = some e) (r : Reg) :
    (s.bind r v).Linked ∧ Reworked s (s.bind r v) := by
  have held := held_bind_of_small (linked.single r) v
  apply linked.fill (r := r) entry (k := fun e => { e with regs := e.regs.insert r })
  · exact ⟨fun _ => rfl, fun _ => rfl, fun _ live => live, fun _ => .inl⟩
  · exact get?_bind_of_known (linked.single r) (linked.known r) v
  · intro q
    rw [held]
    by_cases at_r : q = r <;> simp [at_r, linked.mem_held entry]
  · intro q w other
    rw [held]
    by_cases at_r : q = r <;> simp [at_r, other]
  · intro q
    rw [held]
    split
    · simp [KeySet.single, KeySet.size]
    · exact linked.single q

theorem Linked.commit {e : Entry Home} (linked : s.Linked) (entry : s.get? v = some e) (r : Reg) :
    (s.commit r v).Linked ∧ Reworked s (s.commit r v) := by
  have held := held_commit_of_small (linked.single r) v
  have locations : s.locations v = e.regs := by simp [Store.locations, entry]
  apply linked.fill (r := r) entry (k := fun e => { e with regs := .single r, homeValid := false })
  · exact ⟨fun _ => rfl, fun _ => rfl, fun _ live => live, by simp⟩
  · exact get?_commit_of_known (linked.single r) (linked.known r) v
  · intro q
    rw [held, locations]
    by_cases at_r : q = r
    · simp [at_r]
    · by_cases inside : q ∈ e.regs <;> simp [at_r, inside, linked.mem_held entry]
  · intro q w other
    rw [held]
    by_cases at_r : q = r
    · simp [at_r, other]
    · by_cases inside : q ∈ s.locations v <;> simp [at_r, inside, other]
  · intro q
    rw [held]
    split
    · simp [KeySet.single, KeySet.size]
    · split
      · exact Nat.le_trans (List.length_filter_le _ _) (linked.single q)
      · exact linked.single q

theorem Linked.intern (linked : s.Linked) (name : String) : (s.intern name).2.Linked := by
  cases found : s.lookup name with
  | some v =>
    rw [intern_fst_of_known found]
    exact linked
  | none =>
    have fresh : s.get? s.entries.length = none := List.getElem?_eq_none (Nat.le_refl _)
    have entries (w : Var) : (s.intern name).2.get? w =
        if w = s.entries.length then some { name := name } else s.get? w := by
      simp [get?_intern, found]
    have known {w : Var} {f : Entry Home} (has : (s.intern name).2.Has w f) :
        s.Has w f ∨ w = s.entries.length ∧ f.name = name := by
      obtain ⟨entry, live⟩ := has
      rw [entries] at entry
      split at entry
      · rename_i atEnd
        cases Option.some.inj entry
        exact .inr ⟨atEnd, rfl⟩
      · exact .inl ⟨entry, live⟩
    constructor
    · intro r w
      rw [held_intern, entries, linked.listed]
      split
      · rename_i atEnd
        simp [atEnd, fresh]
      · rfl
    · simpa using linked.single
    · intro v w e f left right names
      rcases known left with before | ⟨atEnd, new⟩ <;> rcases known right with before' | ⟨atEnd', new'⟩
      · exact linked.unique v w e f before before' names
      · exact absurd (names.trans new') (lookup_none found before)
      · exact absurd (names.symm.trans new) (lookup_none found before')
      · rw [atEnd, atEnd']
    · intro v e entry valid
      rw [entries] at entry
      split at entry
      · cases Option.some.inj entry
        simp at valid
      · exact linked.housed v e entry valid

theorem Linked.declare (linked : s.Linked) (name : String) (home : Option Home) :
    (s.declare name home).2.Linked := by
  have interned := linked.intern name
  apply interned.change (k := fun w =>
    if w = (s.intern name).1 then fun e => { e with home := home, homeValid := home.isSome } else id)
  · intro w
    rw [Store.declare, get?_modifyEntry]
    split
    · rename_i same
      rw [same]
    · simp
  · intro w e
    split <;> rfl
  · intro w e
    split <;> exact id
  · intro w e entry
    split
    · exact id
    · exact interned.housed w e entry
  · intro r w member
    exact interned.known r w (by simpa using member)
  · intro r w e entry
    have regs : ((if w = (s.intern name).1 then
        fun e => { e with home := home, homeValid := home.isSome } else id) e).regs = e.regs := by
      split <;> rfl
    rw [regs, ← interned.mem_held entry]
    simp
  · simpa using linked.single

theorem linked_empty : (empty : Store Home).Linked :=
  ⟨by simp, by simp [KeySet.empty, KeySet.size], by simp [Has], by simp⟩

end Store

/-! Commands -/

/-- The variables that a command speaks of. -/
def Command.vars : Command → List Int
  | .name v | .home v | .homeValid v | .dirty v | .markStored v | .locations v | .register v
  | .isResident _ v | .hasOtherCopy v _ | .bind _ v | .unbind _ v | .commit _ v | .drop v => [v]
  | _ => []

/-- The registers that a command speaks of. -/
def Command.regs : Command → List Int
  | .isResident r _ | .hasOtherCopy _ r | .held r | .holder r | .isFree r | .isUsable r
  | .setUsable r _ | .bind r _ | .unbind r _ | .commit r _ | .clearRegister r => [r]
  | _ => []

/-- The name that a command makes known. -/
def Command.enters? : Command → Option String
  | .declare given _ => some given
  | .intern given => some given
  | _ => none

/-- What a command does to a store. -/
inductive Performed (s : Store String) : Command → Reply → Store String → Prop
  | reads {c : Command} {reply : Reply} :
      c.enters? = none → c ≠ .reset → (∀ v, reply ≠ .var v) → Performed s c reply s
  | reset : Performed s .reset .none .empty
  | interns (name : String) : Performed s (.intern name) (.var (s.intern name).1) (s.intern name).2
  | declares (name home : String) :
      Performed s (.declare name home) (.var (s.declare name (home? home)).1)
        (s.declare name (home? home)).2
  | reworks {c : Command} {t : Store String} :
      c.enters? = none → c ≠ .reset → (s.Linked → t.Linked ∧ Store.Reworked s t) →
      Performed s c .none t

theorem regOf_of_bounds {r : Int} (bounds : 0 ≤ r ∧ r < 15) : ∃ q, regOf r = .ok q := by
  simp [regOf, Reg.ofNumber?, bounds]

theorem entryOf_of_known {s : Store String} {v : Var} {e : Entry String} (entry : s.get? v = some e) :
    entryOf s v = .ok (v, e) := by
  have natural : ¬ (v : Int) < 0 := by omega
  simp [entryOf, natural, entry]

theorem heldVar_of_known {s : Store String} {v : Var} {e : Entry String} (entry : s.get? v = some e) :
    heldVar s v = .ok v := by
  have natural : ¬ (v : Int) < 0 := by omega
  rw [heldVar, KeySet.key, if_neg natural, entryOf_of_known entry]
  rfl

theorem regKey_of_bounds {r : Int} (bounds : 0 ≤ r ∧ r < 15) : ∃ q, regKey r = .ok (some q) := by
  have natural : ¬ r < 0 := by omega
  simp [regKey, natural, Reg.ofNumber?, bounds]

/-- A command that speaks of registers and variables that there are does not fail. -/
theorem execute_performed {s : Store String} {c : Command}
    (vars : ∀ v ∈ c.vars, ∃ w : Var, v = w ∧ ∃ e, s.get? w = some e)
    (regs : ∀ r ∈ c.regs, 0 ≤ r ∧ r < 15) :
    ∃ reply t, s.execute c = .ok (reply, t) ∧ Performed s c reply t := by
  cases c with
  | reset => exact ⟨_, _, rfl, .reset⟩
  | intern name => exact ⟨_, _, rfl, .interns name⟩
  | declare name home => exact ⟨_, _, rfl, .declares name home⟩
  | lookup | live | registers | wire => exact ⟨_, _, rfl, .reads rfl (by simp) (by simp)⟩
  | clearAll => exact ⟨_, _, rfl, .reworks rfl (by simp) fun linked => linked.clearAll Reg.all⟩
  | name v | home v | homeValid v | dirty v | locations v | register v =>
    obtain ⟨w, rfl, e, entry⟩ := vars v (by simp [Command.vars])
    exact ⟨_, _, by rw [Store.execute, entryOf_of_known entry]; rfl, .reads rfl (by simp) (by simp)⟩
  | held r | holder r | isFree r | isUsable r =>
    obtain ⟨q, found⟩ := regOf_of_bounds (regs r (by simp [Command.regs]))
    exact ⟨_, _, by rw [Store.execute, found]; rfl, .reads rfl (by simp) (by simp)⟩
  | isResident r v =>
    obtain ⟨w, rfl, e, entry⟩ := vars v (by simp [Command.vars])
    obtain ⟨q, found⟩ := regKey_of_bounds (regs r (by simp [Command.regs]))
    exact ⟨_, _, by rw [Store.execute, entryOf_of_known entry, found]; rfl,
      .reads rfl (by simp) (by simp)⟩
  | hasOtherCopy v r =>
    obtain ⟨w, rfl, e, entry⟩ := vars v (by simp [Command.vars])
    obtain ⟨q, found⟩ := regKey_of_bounds (regs r (by simp [Command.regs]))
    refine ⟨.bool (e.homeValid || e.hasCopyBeside q), s, ?_, .reads rfl (by simp) (by simp)⟩
    rw [Store.execute, entryOf_of_known entry, found]
    cases valid : e.homeValid <;> simp [valid, bind, Except.bind, pure, Except.pure]
  | markStored v =>
    obtain ⟨w, rfl, e, entry⟩ := vars v (by simp [Command.vars])
    exact ⟨_, _, by rw [Store.execute, entryOf_of_known entry]; rfl,
      .reworks rfl (by simp) fun linked => linked.markStored w⟩
  | drop v =>
    obtain ⟨w, rfl, e, entry⟩ := vars v (by simp [Command.vars])
    exact ⟨_, _, by rw [Store.execute, entryOf_of_known entry]; rfl,
      .reworks rfl (by simp) fun linked => linked.drop w⟩
  | setUsable r usable =>
    obtain ⟨q, found⟩ := regOf_of_bounds (regs r (by simp [Command.regs]))
    exact ⟨_, _, by rw [Store.execute, found]; rfl,
      .reworks rfl (by simp) fun linked => linked.setUsable q usable⟩
  | clearRegister r =>
    obtain ⟨q, found⟩ := regOf_of_bounds (regs r (by simp [Command.regs]))
    exact ⟨_, _, by rw [Store.execute, found]; rfl,
      .reworks rfl (by simp) fun linked => linked.clearRegister q⟩
  | bind r v =>
    obtain ⟨w, rfl, e, entry⟩ := vars v (by simp [Command.vars])
    obtain ⟨q, found⟩ := regOf_of_bounds (regs r (by simp [Command.regs]))
    exact ⟨_, _, by rw [Store.execute, found, heldVar_of_known entry]; rfl,
      .reworks rfl (by simp) fun linked => linked.bind entry q⟩
  | unbind r v =>
    obtain ⟨w, rfl, e, entry⟩ := vars v (by simp [Command.vars])
    obtain ⟨q, found⟩ := regOf_of_bounds (regs r (by simp [Command.regs]))
    exact ⟨_, _, by rw [Store.execute, found, heldVar_of_known entry]; rfl,
      .reworks rfl (by simp) fun linked => linked.unbind q w⟩
  | commit r v =>
    obtain ⟨w, rfl, e, entry⟩ := vars v (by simp [Command.vars])
    obtain ⟨q, found⟩ := regOf_of_bounds (regs r (by simp [Command.regs]))
    exact ⟨_, _, by rw [Store.execute, found, entryOf_of_known entry]; rfl,
      .reworks rfl (by simp) fun linked => linked.commit entry q⟩

/-- A name that is not known stays so until it is entered. -/
theorem Performed.unknown {s t : Store String} {c : Command} {reply : Reply} {name : String}
    (performed : Performed s c reply t) (linked : s.Linked) (absent : s.lookup name = none)
    (other : c.enters? ≠ some name) : t.lookup name = none := by
  have interned (given : String) (other : given ≠ name) {v : Var} {f : Entry String}
      (known : (s.intern given).2.Has v f) : f.name ≠ name := by
    obtain ⟨entry, live⟩ := known
    rw [Store.get?_intern] at entry
    split at entry
    · cases Option.some.inj entry
      exact other
    · exact Store.lookup_none absent ⟨entry, live⟩
  cases performed with
  | reads => exact absent
  | reset => rfl
  | interns given =>
    cases found : (s.intern given).2.lookup name with
    | none => rfl
    | some v =>
      obtain ⟨f, known, same⟩ := Store.lookup_spec found
      exact absurd same (interned given (by simpa [Command.enters?] using other) known)
  | declares given home =>
    cases found : (s.declare given (home? home)).2.lookup name with
    | none => rfl
    | some v =>
      obtain ⟨f, known, same⟩ := Store.lookup_spec found
      have entry := known.1
      rw [Store.declare, Store.get?_modifyEntry] at entry
      have other : given ≠ name := by simpa [Command.enters?] using other
      split at entry
      · rename_i at_v
        obtain ⟨e, before, rfl⟩ := Option.map_eq_some_iff.mp entry
        exact (interned given other (v := v) (f := e) ⟨at_v ▸ before, known.2⟩ same).elim
      · exact absurd same (interned given other ⟨entry, known.2⟩)
  | reworks _ _ rework => exact (rework linked).2.lookup_none absent

/-! Runs -/

/-- A store, with the variables that it has given out since it was empty. -/
structure Session where
  store : Store String := .empty
  given : List Var := []

def Session.givenAfter (h : Session) : Command → Reply → List Var
  | .reset, _ => []
  | _, .var v => v :: h.given
  | _, _ => h.given

/-- The session after a command. -/
def Session.next (h : Session) (c : Command) : Except Fault Session := do
  let (reply, s) ← h.store.execute c
  return ⟨s, h.givenAfter c reply⟩

def Session.run (h : Session) : List Command → Except Fault Session
  | [] => .ok h
  | c :: cs => do (← h.next c).run cs

/-- The command speaks of registers of the pool and of variables that were given out. -/
def Session.Admits (h : Session) (c : Command) : Prop :=
  (∀ v ∈ c.vars, ∃ w ∈ h.given, v = (w : Int)) ∧ ∀ r ∈ c.regs, 0 ≤ r ∧ r < 15

/-- Each command is admitted when it is its turn. -/
def Session.AdmitsAll (h : Session) : List Command → Prop
  | [] => True
  | c :: cs => h.Admits c ∧ ∀ g, h.next c = .ok g → g.AdmitsAll cs

instance (h : Session) (c : Command) : Decidable (h.Admits c) :=
  inferInstanceAs (Decidable (_ ∧ _))

instance Session.decidableAdmitsAll (h : Session) : (cs : List Command) → Decidable (h.AdmitsAll cs)
  | [] => .isTrue trivial
  | c :: cs =>
    match reached : h.next c with
    | .ok g =>
      have := decidableAdmitsAll g cs
      decidable_of_iff (h.Admits c ∧ g.AdmitsAll cs) (by simp [AdmitsAll, reached])
    | .error _ => decidable_of_iff (h.Admits c) (by simp [AdmitsAll, reached])

variable {g h : Session} {c : Command} {reply : Reply} {s t : Store String} {v w : Var} {name : String}

/-- What is true of a session after every command. -/
structure Session.Regular (h : Session) : Prop where
  linked : h.store.Linked
  given : ∀ v, v ∈ h.given ↔ ∃ e, h.store.get? v = some e
  text : ∀ v e, h.store.get? v = some e → e.home ≠ some ""

theorem Session.givenAfter_of_quiet (unset : c ≠ .reset) (quiet : ∀ v, reply ≠ .var v) :
    h.givenAfter c reply = h.given := by
  unfold givenAfter
  split
  · contradiction
  · exact absurd rfl (quiet _)
  · rfl

theorem Store.exists_intern (s : Store String) (name : String) :
    (∃ e, (s.intern name).2.get? v = some e) ↔ v = (s.intern name).1 ∨ ∃ e, s.get? v = some e := by
  cases found : s.lookup name with
  | some w =>
    obtain ⟨e, known, _⟩ := lookup_spec found
    rw [intern_fst_of_known found]
    constructor
    · exact .inr
    · rintro (rfl | exists_)
      · exact ⟨e, known.1⟩
      · exact exists_
  | none =>
    rw [get?_intern, intern_fst_of_new found]
    by_cases new : v = s.entries.length <;> simp [found, new]

theorem Session.Regular.intern (regular : h.Regular) (name : String) :
    Regular ⟨(h.store.intern name).2, (h.store.intern name).1 :: h.given⟩ := by
  constructor
  · exact regular.linked.intern name
  · intro v
    rw [List.mem_cons, regular.given, Store.exists_intern]
  · intro v e entry
    rw [Store.get?_intern] at entry
    split at entry
    · cases Option.some.inj entry
      simp
    · exact regular.text v e entry

theorem Session.Regular.declare (regular : h.Regular) (name home : String) :
    Regular ⟨(h.store.declare name (home? home)).2,
      (h.store.declare name (home? home)).1 :: h.given⟩ := by
  have interned := regular.intern name
  constructor
  · exact regular.linked.declare name (home? home)
  · intro v
    apply (interned.given v).trans
    rw [Store.declare, Store.get?_modifyEntry]
    split
    · rename_i at_v
      simp only [at_v, ← Option.isSome_iff_exists, Option.isSome_map]
    · rfl
  · intro v e entry
    rw [Store.declare, Store.get?_modifyEntry] at entry
    split at entry
    · obtain ⟨f, _, rfl⟩ := Option.map_eq_some_iff.mp entry
      unfold home?
      split <;> simp_all
    · exact interned.text v e entry

theorem Session.Regular.perform (regular : h.Regular) (performed : Performed h.store c reply t) :
    Regular ⟨t, h.givenAfter c reply⟩ := by
  cases performed with
  | reads _ unset quiet =>
    rw [givenAfter_of_quiet unset quiet]
    exact regular
  | reset => exact ⟨Store.linked_empty, by simp [givenAfter], by simp⟩
  | interns name => exact regular.intern name
  | declares name home => exact regular.declare name home
  | reworks _ unset rework =>
    rw [givenAfter_of_quiet unset (by simp)]
    obtain ⟨linked, change, tame, entries⟩ := rework regular.linked
    constructor
    · exact linked
    · intro v
      apply (regular.given v).trans
      simp only [entries, ← Option.isSome_iff_exists, Option.isSome_map]
    · intro v f after
      rw [entries] at after
      obtain ⟨e, before, rfl⟩ := Option.map_eq_some_iff.mp after
      rw [(tame v).home]
      exact regular.text v e before

/-- An admitted command succeeds. -/
theorem Session.Regular.next (regular : h.Regular) (admits : h.Admits c) :
    ∃ reply t, Performed h.store c reply t ∧ h.next c = .ok ⟨t, h.givenAfter c reply⟩ := by
  obtain ⟨vars, regs⟩ := admits
  obtain ⟨reply, t, executed, performed⟩ := execute_performed (s := h.store) (c := c)
    (fun v member => by
      obtain ⟨w, given, same⟩ := vars v member
      exact ⟨w, same, (regular.given w).mp given⟩) regs
  refine ⟨reply, t, performed, ?_⟩
  rw [Session.next, executed]
  rfl

theorem Session.Regular.run {cs : List Command} (regular : h.Regular) (admits : h.AdmitsAll cs) :
    ∃ g, h.run cs = .ok g ∧ g.Regular ∧
      ∀ name, h.store.lookup name = none → (∀ c ∈ cs, c.enters? ≠ some name) →
        g.store.lookup name = none := by
  induction cs generalizing h with
  | nil => exact ⟨h, rfl, regular, fun _ absent _ => absent⟩
  | cons c cs ih =>
    obtain ⟨reply, t, performed, next⟩ := regular.next admits.1
    obtain ⟨g, ran, regular', unknown⟩ := ih (regular.perform performed) (admits.2 _ next)
    refine ⟨g, ?_, regular', fun name absent others => ?_⟩
    · rw [Session.run, next]
      exact ran
    · apply unknown name
      · exact performed.unknown regular.linked absent (others c (by simp))
      · exact fun c' member => others c' (by simp [member])

/-- A command that enters a name that is not known gives out a variable that was not given out. -/
theorem Session.Regular.enter (regular : h.Regular) (absent : h.store.lookup name = none)
    (entering : c.enters? = some name) :
    ∃ v g, h.next c = .ok g ∧ g.given = v :: h.given ∧ v ∉ h.given ∧ g.store.lookup name = some v := by
  have fresh : h.store.entries.length ∉ h.given := by
    rw [regular.given]
    rintro ⟨e, entry⟩
    exact Nat.lt_irrefl _ (Store.get?_lt entry)
  have new := Store.intern_fst_of_new absent
  cases c with
  | intern given =>
    cases Option.some.inj entering
    refine ⟨h.store.entries.length, _, rfl, congrArg (· :: h.given) new, fresh, ?_⟩
    apply (regular.linked.intern name).lookup_iff.mpr
    exact ⟨{ name := name }, ⟨by simp [Store.get?_intern, absent], rfl⟩, rfl⟩
  | declare given home =>
    cases Option.some.inj entering
    refine ⟨h.store.entries.length, _, rfl, congrArg (· :: h.given) new, fresh, ?_⟩
    apply (regular.linked.declare name (home? home)).lookup_iff.mpr
    have entry := (Store.declare_of_new absent (home? home)).2 h.store.entries.length
    rw [if_pos rfl] at entry
    exact ⟨_, ⟨entry, rfl⟩, rfl⟩
  | _ => simp [Command.enters?] at entering

end ThreeAddress.Descriptor
