import ThreeAddress.Proofs.Sessions

/-! What an update of a descriptor store does to the variables it does not speak of. They lose the
registers that are taken and nothing else, and one that is left without any location is forgotten. -/
namespace ThreeAddress.Descriptor

variable {Home : Type}

/-! Entries -/

/-- The variable has no home, is in a register of the list and in no other one. -/
def Entry.Orphaned (rs : List Reg) (e : Entry Home) : Prop :=
  e.home = none ∧ (∃ r ∈ rs, r ∈ e.regs) ∧ ∀ r, r ∈ e.regs → r ∈ rs

/-- A variable before and after the registers of the list are taken from it. -/
structure Entry.Stripped (rs : List Reg) (e f : Entry Home) : Prop where
  name : f.name = e.name
  home : f.home = e.home
  homeValid : f.homeValid = e.homeValid
  regs : ∀ r, r ∈ f.regs ↔ r ∈ e.regs ∧ r ∉ rs
  forgotten : f.forgotten = true ↔ e.forgotten = true ∨ e.Orphaned rs

/-- Some location of the variable is valid. -/
def Entry.Located (e : Entry Home) : Prop := e.homeValid = true ∨ ∃ r, r ∈ e.regs

namespace Entry

variable {e f g : Entry Home} {rs ss : List Reg} {r : Reg}

theorem stripped_of_absent (absent : ∀ r ∈ rs, r ∉ e.regs) : e.Stripped rs e := by
  refine ⟨rfl, rfl, rfl, fun q => ?_, ?_⟩
  · exact ⟨fun listed => ⟨listed, fun member => absent q member listed⟩, fun listed => listed.1⟩
  · refine ⟨.inl, fun cases => cases.resolve_right ?_⟩
    rintro ⟨_, ⟨q, member, listed⟩, _⟩
    exact absent q member listed

theorem stripped_without (listed : r ∈ e.regs) : e.Stripped [r] (e.without r) := by
  have orphaned : e.Orphaned [r] ↔ e.home = none ∧ ∀ q, q ∈ e.regs → q = r := by
    simp [Orphaned, listed]
  refine ⟨e.name_without r, e.home_without r, e.homeValid_without r, by simp [mem_without], ?_⟩
  rw [orphaned]
  exact forgotten_without

/-- Registers may be taken one after the other. -/
theorem Stripped.trans (first : e.Stripped rs f) (second : f.Stripped ss g) : e.Stripped (rs ++ ss) g := by
  refine ⟨second.name.trans first.name, second.home.trans first.home,
    second.homeValid.trans first.homeValid, fun q => ?_, ?_⟩
  · simp only [second.regs, first.regs, List.mem_append, not_or, and_assoc]
  · rw [second.forgotten, first.forgotten, or_assoc]
    apply or_congr_right
    unfold Orphaned
    constructor
    · rintro (⟨homeless, ⟨q, member, listed⟩, all⟩ | ⟨homeless, ⟨q, member, listed⟩, all⟩)
      · exact ⟨homeless, ⟨q, List.mem_append_left _ member, listed⟩,
          fun p inside => List.mem_append_left _ (all p inside)⟩
      · refine ⟨first.home ▸ homeless, ⟨q, List.mem_append_right _ member, ((first.regs q).mp listed).1⟩, ?_⟩
        intro p inside
        by_cases taken : p ∈ rs
        · exact List.mem_append_left _ taken
        · exact List.mem_append_right _ (all p ((first.regs p).mpr ⟨inside, taken⟩))
    · rintro ⟨homeless, ⟨q, _, listed⟩, all⟩
      by_cases early : ∀ p, p ∈ e.regs → p ∈ rs
      · exact .inl ⟨homeless, ⟨q, early q listed, listed⟩, early⟩
      · -- some register outlives the first list, so the second one takes the last
        obtain ⟨p, inside, late⟩ : ∃ p, p ∈ e.regs ∧ p ∉ rs := by simpa using early
        refine .inr ⟨first.home.trans homeless, ⟨p, ?_, (first.regs p).mpr ⟨inside, late⟩⟩, ?_⟩
        · exact (List.mem_append.mp (all p inside)).resolve_left late
        · intro p' inside'
          obtain ⟨before, late'⟩ := (first.regs p').mp inside'
          exact (List.mem_append.mp (all p' before)).resolve_left late'

theorem hasCopyBeside_iff_located (stripped : e.Stripped [r] f) : e.hasCopyBeside r = true ↔ f.Located := by
  simp [hasCopyBeside_iff, Located, stripped.homeValid, stripped.regs]

end Entry

/-! Stores -/

namespace Store

variable {s t : Store Home} {r : Reg} {v w : Var} {rs : List Reg}

/-- The registers of the list are taken from every variable of some kind. It is forgotten exactly if it has no
home, was in one of them and in no other. -/
structure Strips (s t : Store Home) (rs : List Reg) (kind : Var → Prop) : Prop where
  entries : ∀ u e, kind u → s.get? u = some e → ∃ f, t.get? u = some f ∧ e.Stripped rs f
  forgets : ∀ u e, kind u → s.Has u e →
    (u ∉ t.live ↔ e.home = none ∧ (∃ r ∈ rs, u ∈ s.held r) ∧ ∀ r, u ∈ s.held r → r ∈ rs)

theorem Linked.strips {kind : Var → Prop} (linked : s.Linked)
    (entries : ∀ u e, kind u → s.get? u = some e → ∃ f, t.get? u = some f ∧ e.Stripped rs f) :
    s.Strips t rs kind := by
  refine ⟨entries, fun u e here known => ?_⟩
  obtain ⟨f, after, stripped⟩ := entries u e here known.1
  have live : u ∈ t.live ↔ f.forgotten = false := by
    simp [mem_live, Has, after]
  simp only [linked.mem_held known.1]
  rw [live, Bool.not_eq_false, stripped.forgotten, known.2]
  simp [Entry.Orphaned]

/-- A variable that is in the register loses it, and the others stay as they are. -/
theorem Linked.stripped {e : Entry Home} (linked : s.Linked) (r : Reg) (entry : s.get? w = some e) :
    ∃ f, (if w ∈ s.held r then (s.get? w).map (·.without r) else s.get? w) = some f ∧ e.Stripped [r] f := by
  have listed := linked.mem_held entry r
  split
  · rename_i held
    exact ⟨e.without r, by rw [entry, Option.map_some], Entry.stripped_without (listed.mp held)⟩
  · rename_i absent
    exact ⟨e, entry, Entry.stripped_of_absent (by simpa [← listed] using absent)⟩

theorem Linked.clearRegister_strips (linked : s.Linked) (r : Reg) :
    s.Strips (s.clearRegister r) [r] fun _ => True := by
  refine linked.strips fun u e _ entry => ?_
  rw [get?_clearRegister_of_known (linked.single r) (linked.known r)]
  exact linked.stripped r entry

/-- Registers are cleared one after the other. -/
theorem Linked.clearAll_entries {e : Entry Home} (linked : s.Linked) (rs : List Reg) (entry : s.get? v = some e) :
    ∃ f, (rs.foldl Store.clearRegister s).get? v = some f ∧ e.Stripped rs f := by
  induction rs generalizing s e with
  | nil => exact ⟨e, entry, Entry.stripped_of_absent (by simp)⟩
  | cons r rs ih =>
    obtain ⟨f, middle, first⟩ := (linked.clearRegister_strips r).entries v e trivial entry
    obtain ⟨g, after, rest⟩ := ih (linked.clearRegister r).1 middle
    exact ⟨g, after, first.trans rest⟩

theorem Linked.held_clearAll (linked : s.Linked) (rs : List Reg) (q : Reg) :
    (q ∈ rs → (rs.foldl Store.clearRegister s).held q = .empty) ∧
      (q ∉ rs → (rs.foldl Store.clearRegister s).held q = s.held q) := by
  induction rs generalizing s with
  | nil => simp
  | cons r rs ih =>
    obtain ⟨emptied, kept⟩ := ih (linked.clearRegister r).1
    rw [List.foldl_cons]
    by_cases late : q ∈ rs
    · simp [late, emptied late]
    · rw [kept late, held_clearRegister (linked.single r)]
      by_cases here : q = r <;> simp [late, here]

/-- A register is filled with a variable, and taken from the others. -/
structure Fills (s t : Store Home) (r : Reg) (v : Var) : Prop where
  held : t.held r = .single v
  others : s.Strips t [r] (· ≠ v)

theorem Linked.bind_fills (linked : s.Linked) (r : Reg) (v : Var) : s.Fills (s.bind r v) r v := by
  refine ⟨by simp [held_bind_of_small (linked.single r)], linked.strips fun u e other entry => ?_⟩
  rw [get?_bind_of_known (linked.single r) (linked.known r), if_neg other]
  exact linked.stripped r entry

theorem Linked.commit_fills (linked : s.Linked) (r : Reg) (v : Var) : s.Fills (s.commit r v) r v := by
  refine ⟨by simp [held_commit_of_small (linked.single r)], linked.strips fun u e other entry => ?_⟩
  rw [get?_commit_of_known (linked.single r) (linked.known r), if_neg other]
  exact linked.stripped r entry

/-- A register that holds the variable holds nothing else. -/
theorem Linked.held_eq_single (linked : s.Linked) (member : v ∈ s.held r) : s.held r = .single v :=
  KeySet.eq_single_of_mem (linked.single r) member

theorem Linked.held_commit {e : Entry Home} (linked : s.Linked) (entry : s.get? v = some e) {q : Reg} (other : q ≠ r) :
    (s.commit r v).held q = if v ∈ s.held q then .empty else s.held q := by
  have locations : s.locations v = e.regs := by simp [Store.locations, entry]
  rw [held_commit_of_small (linked.single r), if_neg other, locations]
  simp only [← linked.mem_held entry]
  split
  · rename_i held
    rw [linked.held_eq_single held]
    simp [KeySet.single, KeySet.erase, KeySet.empty]
  · rfl

end Store

/-! Sessions -/

/-- A variable that is bound to a register has one register more, and the other registers stay. -/
structure Store.Binds (s t : Store Home) (r : Reg) (v : Var) : Prop extends s.Fills t r v where
  elsewhere : ∀ q, q ≠ r → t.held q = s.held q
  self : ∀ e, s.Has v e → ∃ f, t.Has v f ∧ f.name = e.name ∧ f.home = e.home ∧ f.homeValid = e.homeValid ∧
    ∀ q, q ∈ f.regs ↔ q = r ∨ q ∈ e.regs

/-- A variable that is committed to a register is valid nowhere else, and the other registers that held it are
empty. -/
structure Store.Commits (s t : Store Home) (r : Reg) (v : Var) : Prop extends s.Fills t r v where
  elsewhere : ∀ q, q ≠ r → t.held q = if v ∈ s.held q then .empty else s.held q
  self : ∀ e, s.Has v e → ∃ f, t.Has v f ∧ f.name = e.name ∧ f.home = e.home ∧ f.homeValid = false ∧
    ∀ q, q ∈ f.regs ↔ q = r

/-- Registers that are cleared are empty, and the others stay. -/
structure Store.Clears (s t : Store Home) (rs : List Reg) : Prop where
  emptied : ∀ q, q ∈ rs → t.held q = .empty
  kept : ∀ q, q ∉ rs → t.held q = s.held q
  strips : s.Strips t rs fun _ => True

/-- The updates of a session succeed on every register and every known variable, and each has its exact effect. -/
structure Session.Exact (h : Session) : Prop where
  bind : ∀ (r : Reg) (v : Var), v ∈ h.store.live →
    ∃ t, h.next (.bind r.val v) = .ok ⟨t, h.given⟩ ∧ h.store.Binds t r v
  commit : ∀ (r : Reg) (v : Var), v ∈ h.store.live →
    ∃ t, h.next (.commit r.val v) = .ok ⟨t, h.given⟩ ∧ h.store.Commits t r v
  clearRegister : ∀ r : Reg, ∃ t, h.next (.clearRegister r.val) = .ok ⟨t, h.given⟩ ∧ h.store.Clears t [r]
  clearAll : ∃ t, h.next .clearAll = .ok ⟨t, h.given⟩ ∧ h.store.Clears t Reg.all ∧ (∀ r, t.held r = .empty) ∧
    ∀ v e, h.store.Has v e → e.home.isSome = true ∨ (∀ r, v ∉ h.store.held r) → v ∈ t.live
  /-- Another copy is one that is left when the register is cleared. -/
  hasOtherCopy : ∀ (r : Reg) (v : Var), v ∈ h.given →
    ∃ answer t f, h.store.execute (.hasOtherCopy v r.val) = .ok (.bool answer, h.store) ∧
      h.next (.clearRegister r.val) = .ok ⟨t, h.given⟩ ∧ t.get? v = some f ∧ (answer = true ↔ f.Located)

theorem regOf_val (r : Reg) : regOf r.val = .ok r := by
  have bounds : (0 : Int) ≤ r.val ∧ (r.val : Int) < 15 := by omega
  simp [regOf, Reg.ofNumber?, bounds]

theorem regKey_val (r : Reg) : regKey r.val = .ok (some r) := by
  have natural : ¬ (r.val : Int) < 0 := by omega
  have bounds : (0 : Int) ≤ r.val ∧ (r.val : Int) < 15 := by omega
  simp [regKey, natural, Reg.ofNumber?, bounds]

variable {h : Session}

theorem Session.next_clearRegister (h : Session) (r : Reg) :
    h.next (.clearRegister r.val) = .ok ⟨h.store.clearRegister r, h.given⟩ := by
  rw [Session.next, Store.execute, regOf_val]
  rfl

theorem Session.Regular.clears (regular : h.Regular) (rs : List Reg) :
    h.store.Clears (rs.foldl Store.clearRegister h.store) rs :=
  ⟨fun q => (regular.linked.held_clearAll rs q).1, fun q => (regular.linked.held_clearAll rs q).2,
    regular.linked.strips fun _ _ _ => regular.linked.clearAll_entries rs⟩

theorem Session.Regular.binds (regular : h.Regular) (r : Reg) {v : Var} (live : v ∈ h.store.live) :
    ∃ t, h.next (.bind r.val v) = .ok ⟨t, h.given⟩ ∧ h.store.Binds t r v := by
  have linked := regular.linked
  obtain ⟨e, known⟩ := Store.mem_live.mp live
  refine ⟨h.store.bind r v, ?_, linked.bind_fills r v, fun q other => ?_, fun e known => ?_⟩
  · rw [Session.next, Store.execute, regOf_val, heldVar_of_known known.1]
    rfl
  · rw [Store.held_bind_of_small (linked.single r), if_neg other]
  · refine ⟨{ e with regs := e.regs.insert r }, ⟨?_, known.2⟩, rfl, rfl, rfl, by simp⟩
    rw [Store.get?_bind_of_known (linked.single r) (linked.known r), if_pos rfl, known.1]
    rfl

theorem Session.Regular.commits (regular : h.Regular) (r : Reg) {v : Var} (live : v ∈ h.store.live) :
    ∃ t, h.next (.commit r.val v) = .ok ⟨t, h.given⟩ ∧ h.store.Commits t r v := by
  have linked := regular.linked
  obtain ⟨e, known⟩ := Store.mem_live.mp live
  refine ⟨h.store.commit r v, ?_, linked.commit_fills r v, fun q other => linked.held_commit known.1 other,
    fun e known => ?_⟩
  · rw [Session.next, Store.execute, entryOf_of_known known.1, regOf_val]
    rfl
  · refine ⟨{ e with regs := .single r, homeValid := false }, ⟨?_, known.2⟩, rfl, rfl, rfl, by simp⟩
    rw [Store.get?_commit_of_known (linked.single r) (linked.known r), if_pos rfl, known.1]
    rfl

/-- A variable with a home, or in no register, is known after all registers are cleared. -/
theorem Store.Clears.live {s t : Store Home} {rs : List Reg} {v : Var} {e : Entry Home} (clears : s.Clears t rs)
    (known : s.Has v e) (kept : e.home.isSome = true ∨ ∀ r, v ∉ s.held r) : v ∈ t.live := by
  apply Decidable.byContradiction
  intro lost
  obtain ⟨homeless, ⟨r, _, held⟩, _⟩ := (clears.strips.forgets v e trivial known).mp lost
  rcases kept with homed | nowhere
  · simp [homeless] at homed
  · exact nowhere r held

theorem Session.Regular.otherCopy (regular : h.Regular) (r : Reg) {v : Var} (given : v ∈ h.given) :
    ∃ answer t f, h.store.execute (.hasOtherCopy v r.val) = .ok (.bool answer, h.store) ∧
      h.next (.clearRegister r.val) = .ok ⟨t, h.given⟩ ∧ t.get? v = some f ∧ (answer = true ↔ f.Located) := by
  obtain ⟨e, entry⟩ := (regular.given v).mp given
  obtain ⟨f, after, stripped⟩ := (regular.linked.clearRegister_strips r).entries v e trivial entry
  refine ⟨e.hasCopyBeside r, _, f, ?_, h.next_clearRegister r, after, Entry.hasCopyBeside_iff_located stripped⟩
  rw [Store.execute, entryOf_of_known entry, regKey_val]
  cases valid : e.homeValid <;> simp [valid, Entry.hasCopyBeside, bind, Except.bind, pure, Except.pure]

theorem Session.Regular.exact (regular : h.Regular) : h.Exact := by
  have clears := regular.clears Reg.all
  refine ⟨fun r v => regular.binds r, fun r v => regular.commits r, fun r => ?_, ?_, fun r v => regular.otherCopy r⟩
  · exact ⟨h.store.clearRegister r, h.next_clearRegister r, regular.clears [r]⟩
  · refine ⟨h.store.clearAll, rfl, clears, fun r => ?_, fun v e known kept => clears.live known kept⟩
    exact clears.emptied r (List.mem_finRange r)

/-- After commands in any order, on registers of the pool and variables given out since the last reset, an
update does what it says to the variable and the registers it names. Every other variable loses the registers that
are taken, keeps its home, and is forgotten only with its last location. -/
theorem session_updates_exact (cs : List Command) (admits : ({} : Session).AdmitsAll cs) :
    ∃ h, ({} : Session).run cs = .ok h ∧ h.Exact := by
  have start : ({} : Session).Regular := ⟨Store.linked_empty, by simp, by simp⟩
  obtain ⟨h, ran, regular, _⟩ := start.run admits
  exact ⟨h, ran, regular.exact⟩

/-- A temporary in two registers, one in a register that may not be used, one in none, and a variable with a home
in a register. -/
def crowdedCommands : List Command :=
  [.intern "t", .bind 0 0, .bind 1 0, .intern "u", .bind 14 1, .setUsable 14 false, .intern "n",
    .declare "x" "8(sp)", .commit 2 3]

theorem session_updates_exact_crowded :
    ({} : Session).AdmitsAll crowdedCommands ∧
      ∃ h, ({} : Session).run crowdedCommands = .ok h ∧ h.Exact := by
  have admits : ({} : Session).AdmitsAll crowdedCommands := by decide +kernel
  exact ⟨admits, session_updates_exact crowdedCommands admits⟩

end ThreeAddress.Descriptor
