import Mathlib.Data.Finset.Card
import ThreeAddress.Proofs.Mentions
import ThreeAddress.Proofs.References

/-! What the operands of an instruction do to each other. Getting one of them into a register may empty
another register, and the value in it is lost unless it is guarded or there is room. Instructions with two
operands guard them. The access to an element through a pointer does so only in part. -/
namespace ThreeAddress.Codegen

open Asm (Mem)
open Descriptor (Store Var Entry)

variable {site : Site} {b c d : Body} {name n : String} {needs : Needs} {r : Reg} {v : Var} {e : Entry Mem}

/-! Guarded values -/

/-- The value of the name outlives its registers: its home holds it, or it is not overwritten and has a home
that it can be stored to or is wanted. -/
def isGuarded (site : Site) (needs : Needs) (b : Body) (name : String) : Bool :=
  ((b.store.lookup name).bind b.store.get?).all fun e =>
    e.homeValid || (!needs.overwrites name &&
      (e.home.isSome || needs.other = some name || laterUse site b name))

theorem isGuarded_of_has (sound : b.store.Sound) (known : b.store.Has v e) :
    isGuarded site needs b e.name = (e.homeValid || (!needs.overwrites e.name &&
      (e.home.isSome || needs.other = some e.name || laterUse site b e.name))) := by
  simp [isGuarded, sound.lookup_eq known, known.1]

theorem isGuarded_other (site : Site) (b : Body) (other : needs.other = some name) :
    isGuarded site needs b name = true := by
  have kept : needs.overwrites name = false := by simp [Needs.overwrites, other]
  unfold isGuarded
  cases (b.store.lookup name).bind b.store.get? with
  | none => rfl
  | some e => simp [kept, other]

theorem Needs.overwrites_of_lost? (lost : needs.lost? = some name) : needs.overwrites name = true := by
  unfold Needs.lost? at lost
  split at lost
  · cases lost
  · rename_i apart
    rw [lost] at apart
    simp [Needs.overwrites, lost, apart]

section Moves

variable {limits : Limits} {is : List Asm.Instr}

/-- A variable with a home keeps a valid copy. -/
theorem Moves.homed_kept (moves : Moves site limits b is c) (sound : b.store.Sound)
    (known : b.store.Has v e) (homed : e.home.isSome = true) (wanted : limits.lost ≠ some e.name)
    (copy : e.homeValid = true ∨ ∃ r, r ∈ e.regs) :
    ∃ f, c.store.Has v f ∧ f.name = e.name ∧ f.home = e.home ∧ (f.homeValid = true ∨ ∃ r, r ∈ f.regs) := by
  induction moves with
  | refl => exact ⟨e, known, rfl, rfl, copy⟩
  | step first move ih =>
    obtain ⟨f, middle, name, home, copy⟩ := ih
    obtain ⟨g, after, change⟩ := move.entry_after (first.sound sound) middle.1
    have stays := change.stays middle.2 (home ▸ homed)
    refine ⟨g, ⟨after, stays⟩, change.name.trans name, change.home.trans home, ?_⟩
    exact change.kept stays (name ▸ wanted) copy

end Moves

/-- A guarded value outlives that a register is taken. -/
theorem Takes.keeps_value (takes : Takes site needs b r c) (sound : b.store.Sound)
    (guarded : isGuarded site needs b n = true) (found : missing? site.table b.store n = none) :
    missing? site.table c.store n = none := by
  obtain ⟨is, moves⟩ := takes.moves
  have sound' := moves.sound sound
  by_cases bears : b.Bears n → c.Bears n
  · rw [moves.missing?_eq sound bears]
    exact found
  -- Otherwise the value was in the register that was taken and nowhere else.
  obtain ⟨⟨q, resides⟩, lost⟩ := Classical.not_imp.mp bears
  have only (p : Reg) (there : Resides b p n) : p = r := by
    apply Decidable.byContradiction
    intro apart
    exact lost ⟨p, moves.resides_locked sound (by simp [mem_regs_all, apart]) there⟩
  obtain rfl := only q resides
  obtain ⟨v, e, entry, listed, rfl⟩ := resides
  have known := sound.known_of_reg entry listed
  rw [isGuarded_of_has sound known, Bool.or_eq_true, Bool.and_eq_true, Bool.not_eq_true'] at guarded
  rcases guarded with valid | ⟨kept, needed⟩
  · obtain ⟨f, after, named, valid⟩ := moves.homeValid_stays sound known valid
    exact named ▸ missing?_of_copy sound' after (.inl valid)
  · cases home : e.home with
    | some h =>
      have wanted : needs.lost? ≠ some e.name := fun gone => by
        rw [Needs.overwrites_of_lost? gone] at kept
        cases kept
      obtain ⟨f, after, named, _, copy⟩ := moves.homed_kept sound known (by simp [home]) wanted (.inr ⟨q, listed⟩)
      exact named ▸ missing?_of_copy sound' after copy
    | none =>
      have nowhere : e.hasCopyBeside q = false := by
        apply Bool.eq_false_iff.mpr
        intro beside
        rcases Entry.hasCopyBeside_iff.mp beside with valid | ⟨p, inside⟩
        · simpa [home] using sound.housed v e entry valid
        · obtain ⟨inside, apart⟩ := KeySet.mem_erase.mp inside
          exact apart (only p ⟨v, e, entry, inside, rfl⟩)
      have wanted : Wanted (laterUse site b) needs e.name := ⟨kept, by simpa [home] using needed⟩
      have loses : Loses site needs b q :=
        ⟨v, e, (sound.listed q v).mpr ⟨e, entry, listed⟩, entry, entryCost_eq_none.mpr ⟨wanted, nowhere, home⟩⟩
      exact absurd ⟨q, takes.keeps (.inr loses) e.name ⟨v, e, entry, listed, rfl⟩⟩ lost

/-! Room in the registers -/

/-- Some register holds the variable of the name. -/
def Body.bears? (b : Body) (name : String) : Bool :=
  ((b.store.lookup name).bind b.store.get?).any fun e => !e.regs.isEmpty

theorem bears?_iff (sound : b.store.Sound) : b.bears? name = true ↔ b.Bears name := by
  constructor
  · intro bears
    obtain ⟨e, found, filled⟩ := (Option.any_eq_true _ _).mp bears
    obtain ⟨v, known, entry⟩ := Option.bind_eq_some_iff.mp found
    rw [Bool.not_eq_true'] at filled
    obtain ⟨r, listed⟩ := KeySet.isEmpty_eq_false_iff.mp filled
    exact ⟨r, v, e, entry, listed, (Store.has_of_lookup known entry).2⟩
  · rintro ⟨r, v, e, entry, listed, rfl⟩
    have filled : e.regs.isEmpty = false := KeySet.isEmpty_eq_false_iff.mpr ⟨r, listed⟩
    simp [Body.bears?, sound.lookup_eq (sound.known_of_reg entry listed), entry, filled]

/-- The registers that can be taken without emptying one. -/
def vacant (b : Body) : Finset Reg :=
  ((candidates b).filter b.store.isFree).toFinset

theorem mem_vacant : r ∈ vacant b ↔
    b.store.isUsable r = true ∧ r ∉ b.reserved ∧ b.store.isFree r = true := by
  rw [vacant, List.mem_toFinset, List.mem_filter, mem_candidates, and_assoc]

theorem isFree_iff : b.store.isFree r = true ↔ ∀ w, w ∉ b.store.held r := KeySet.isEmpty_iff

/-- There is a vacant register for each of the names that is in none. -/
def Spacious (b : Body) (names : List String) : Prop :=
  names.countP (fun name => !b.bears? name) ≤ (vacant b).card

theorem vacate_of_free (site : Site) (name : String) (needs : Needs) (free : freeRegister? b = some r) :
    vacate site name needs b = .ok (r, b) := by
  have opened : vacate site name needs b = _ := bind_of_ok (x := get) rfl
  rw [opened, free]
  rfl

/-- A vacant register is taken before one is emptied. -/
theorem acquire_vacant (sound : b.store.Sound) (ran : acquire site name needs b = .ok (r, c))
    (absent : ¬ b.Bears name) (room : (vacant b).Nonempty) : r ∈ vacant b := by
  obtain ⟨o, d, residence⟩ := residence?_runs site sound name
  obtain ⟨moves, reserved, held, inside, _⟩ : Moves site .still b [] d ∧ _ := residence?_moves sound residence
  have same : vacant d = vacant b := by
    ext q
    rw [mem_vacant, mem_vacant, moves.isUsable sound q, reserved, isFree_iff, isFree_iff, held q]
  cases o with
  | some p => exact absurd ⟨p, (moves.resides_iff sound (held p)).mp (inside p rfl)⟩ absent
  | none =>
    rw [acquire_of_absent needs residence] at ran
    obtain ⟨q, f, vacated, ran⟩ := bind_ok.mp ran
    obtain ⟨_, _, _, ran⟩ := bind_ok.mp ran
    obtain ⟨rfl, _⟩ := pure_ok.mp ran
    cases free : freeRegister? d with
    | some p =>
      rw [vacate_of_free site name needs free] at vacated
      cases vacated
      obtain ⟨usable, unreserved⟩ := mem_candidates.mp (List.mem_of_find?_eq_some free)
      exact same ▸ mem_vacant.mpr ⟨usable, unreserved, List.find?_some free⟩
    | none =>
      obtain ⟨p, there⟩ := room
      rw [← same, mem_vacant] at there
      have taken := List.find?_eq_none.mp free p (mem_candidates.mpr ⟨there.1, there.2.1⟩)
      exact absurd there.2.2 taken

/-- Where there is room, nothing leaves its register. -/
theorem Acquired.resides_of_room (acquired : Acquired site needs name b r c) (sound : b.store.Sound)
    (room : b.Bears name ∨ r ∈ vacant b) {q : Reg} (resides : Resides b q n) : Resides c q n := by
  obtain ⟨is, moves⟩ := acquired.moves
  by_cases same : q = r
  · subst same
    rcases acquired.place with ⟨before, there⟩ | ⟨nowhere, _⟩
    · obtain ⟨v, e, entry, listed, rfl⟩ := resides
      have named := before.owned sound v e ((sound.listed q v).mpr ⟨e, entry, listed⟩) entry
      exact named ▸ there
    · obtain ⟨v, e, entry, listed, rfl⟩ := resides
      have free := (mem_vacant.mp (room.resolve_left nowhere)).2.2
      exact absurd ((sound.listed q v).mpr ⟨e, entry, listed⟩) (isFree_iff.mp free v)
  · exact moves.resides_locked sound (by simp [mem_regs_all, same]) resides

/-! Loading a variable -/

/-- What is in registers when one is taken for a name stays there when the variable is loaded. -/
theorem ensureLoaded_stays (acquired : Acquired site needs name b r c) (sound : b.store.Sound)
    (ran : ensureLoaded site name r c = .ok ((), d)) :
    (∃ is, Moves site ⟨Reg.all.filter (· ≠ r), none, [], 0⟩ c is d) ∧ d.reserved = c.reserved ∧
      (missing? site.table b.store name = none → Resides d r name) ∧
      ∀ q n, Resides c q n → Resides d q n := by
  obtain ⟨_, moves⟩ := acquired.moves
  have sound' := moves.sound sound
  have taken : Taken { c with reserved := Reg.all.filter (· ≠ r) } c r name := by
    refine ⟨acquired.reserved ▸ List.mem_cons_self, acquired.usable, ?_⟩
    rcases acquired.place with ⟨_, there⟩ | ⟨nowhere, empty⟩
    · exact .inl there
    · exact .inr ⟨by simp, empty, fun q there => nowhere ⟨q, acquired.fewer q name there⟩⟩
  obtain ⟨⟨is, loads⟩, reserved, _, resides⟩ := ensureLoaded_moves sound' taken ran
  have loaded (found : missing? site.table b.store name = none) : Resides d r name := by
    obtain ⟨warned, _⟩ := (ensureLoaded_notes sound' name r).ran () d ran
    have same : d.out.warnings = c.out.warnings := by
      simpa [noted, Body.reads, acquired.missing?_eq sound, found] using warned
    exact resides (by rw [same])
  refine ⟨⟨is, loads⟩, reserved, loaded, fun q n there => ?_⟩
  by_cases same : q = r
  · subst same
    rcases acquired.place with ⟨before, here⟩ | ⟨_, empty⟩
    · obtain ⟨v, e, entry, listed, rfl⟩ := there
      have named := here.owned sound' v e ((sound'.listed q v).mpr ⟨e, entry, listed⟩) entry
      exact named ▸ loaded (before.missing?_eq_none sound _)
    · obtain ⟨v, e, entry, listed, _⟩ := there
      exact absurd ((sound'.listed q v).mpr ⟨e, entry, listed⟩) (empty v)
  · exact loads.resides_locked sound' (by simp [mem_regs_all, same]) there

/-- A variable has been loaded into a register that was taken for it. -/
structure Brought (site : Site) (needs : Needs) (name : String) (b : Body) (r : Reg) (d : Body) : Prop
    extends Takes site needs b r d where
  resides : missing? site.table b.store name = none → Resides d r name
  stays : b.Bears name ∨ (vacant b).Nonempty → ∀ q n, Resides b q n → Resides d q n
  taken : ¬ b.Bears name ∨ r ∉ vacant b

theorem loaded_brought (sound : b.store.Sound) (ran : loaded site name needs b = .ok (r, d)) :
    Brought site needs name b r d := by
  simp only [loaded, bind_ok, pure_ok] at ran
  obtain ⟨q, c, acquires, _, _, loads, rfl, rfl⟩ := ran
  have verdict := acquire_verdict site sound name needs
  rw [acquires] at verdict
  cases verdict with
  | success _ _ acquired =>
    obtain ⟨is, moves⟩ := acquired.moves
    obtain ⟨⟨js, loads⟩, reserved, resides, stays⟩ := ensureLoaded_stays acquired sound loads
    have loads : Moves site ⟨Reg.all.filter (· ≠ q), needs.lost?, [], 0⟩ c js _ :=
      loads.mono ⟨fun _ => id, .inl rfl, fun _ => id, Nat.le_refl _⟩
    refine ⟨⟨⟨_, moves.trans loads⟩, reserved.trans acquired.reserved, ?_⟩, resides, ?_, ?_⟩
    · exact fun barred n there => stays q n (acquired.keeps barred n there)
    · intro room p n there
      refine stays p n (acquired.resides_of_room sound ?_ there)
      by_cases bears : b.Bears name
      · exact .inl bears
      · exact .inr (acquire_vacant sound acquires bears (room.resolve_left bears))
    · rcases acquired.place with ⟨before, _⟩ | ⟨nowhere, _⟩
      · refine .inr fun free => ?_
        obtain ⟨v, e, entry, listed, _⟩ := before
        exact isFree_iff.mp (mem_vacant.mp free).2.2 v ((sound.listed q v).mpr ⟨e, entry, listed⟩)
      · exact .inl nowhere

namespace Brought

variable {rest : List String}

theorem vacant_subset (brought : Brought site needs name b r d) (sound : b.store.Sound) :
    vacant b ⊆ insert r (vacant d) := by
  obtain ⟨is, moves⟩ := brought.moves
  intro q free
  by_cases same : q = r
  · rw [same]
    exact Finset.mem_insert_self r _
  · obtain ⟨usable, unreserved, empty⟩ := mem_vacant.mp free
    refine Finset.mem_insert_of_mem (mem_vacant.mpr ⟨(moves.isUsable sound q).trans usable, ?_, ?_⟩)
    · simpa [brought.reserved, same] using unreserved
    · refine isFree_iff.mpr fun w held => isFree_iff.mp empty w ?_
      exact (moves.held_locked sound (by simp [mem_regs_all, same]) w).mp held

/-- Where there is room for a name and others, it gets its register from nobody, and room is left for the
others. -/
theorem spacious (brought : Brought site needs name b r d) (sound : b.store.Sound)
    (spacious : Spacious b (name :: rest)) : Spacious d rest ∧ ∀ n, b.Bears n → d.Bears n := by
  obtain ⟨is, moves⟩ := brought.moves
  have absent : ¬ b.Bears name → (!b.bears? name) = true := fun absent => by
    simpa [← bears?_iff sound] using absent
  have room : b.Bears name ∨ (vacant b).Nonempty := by
    by_cases bears : b.Bears name
    · exact .inl bears
    · rw [Spacious, List.countP_cons, if_pos (absent bears)] at spacious
      exact .inr (Finset.card_pos.mp (Nat.lt_of_lt_of_le (Nat.succ_pos _) spacious))
  have bears (n : String) (before : b.Bears n) : d.Bears n := by
    obtain ⟨q, there⟩ := before
    exact ⟨q, brought.stays room q n there⟩
  have fewer : rest.countP (fun n => !d.bears? n) ≤ rest.countP (fun n => !b.bears? n) := by
    refine List.countP_mono_left fun n _ outside => ?_
    simp only [Bool.not_eq_true', ← Bool.not_eq_true, bears?_iff sound, bears?_iff (moves.sound sound)] at outside ⊢
    exact fun before => outside (bears n before)
  have vacancies := brought.vacant_subset sound
  refine ⟨?_, bears⟩
  by_cases here : b.Bears name
  · have outside := brought.taken.resolve_left (not_not_intro here)
    have more := Finset.card_le_card ((Finset.subset_insert_iff_of_notMem outside).mp vacancies)
    rw [Spacious, List.countP_cons, if_neg (by simpa using (bears?_iff sound).mpr here)] at spacious
    exact fewer.trans (spacious.trans more)
  · have more := (Finset.card_le_card vacancies).trans (Finset.card_insert_le r (vacant d))
    rw [Spacious, List.countP_cons, if_pos (absent here)] at spacious
    exact fewer.trans (Nat.le_of_succ_le_succ (spacious.trans more))

end Brought

/-! Operands -/

/-- Getting the names into registers leaves the value of the name to be had. -/
def Shielded (site : Site) (needs : Needs) (b : Body) (fetched : List String) (name : String) : Prop :=
  name ∈ fetched ∨ isGuarded site needs b name = true ∨ Spacious b fetched

theorem Brought.shields (brought : Brought site needs name b r d) (sound : b.store.Sound)
    (there : missing? site.table b.store name = none) (found : missing? site.table b.store n = none)
    (shielded : Shielded site needs b [name] n) : missing? site.table d.store n = none := by
  obtain ⟨is, moves⟩ := brought.moves
  rcases shielded with same | guarded | spacious
  · rw [List.mem_singleton.mp same]
    exact (brought.resides there).missing?_eq_none (moves.sound sound) _
  · exact brought.keeps_value sound guarded found
  · rw [moves.missing?_eq sound ((brought.spacious sound spacious).2 n)]
    exact found

/-- A literal changes nothing, and a variable is loaded. -/
theorem operand_brought {x : Operand} {scratch y : MachineReg} (sound : b.store.Sound)
    (ran : operand site x needs scratch b = .ok (y, c)) :
    (x.names = [] ∧ ∃ o, c = { b with out := o }) ∨ ∃ name r, x = .variable name ∧ Brought site needs name b r c := by
  cases x with
  | literal n =>
    refine .inl ⟨rfl, ?_⟩
    simp only [operand] at ran
    split at ran
    · obtain ⟨_, rfl⟩ := pure_ok.mp ran
      exact ⟨b.out, rfl⟩
    · simp only [bind_ok, emitAll_ok, pure_ok] at ran
      obtain ⟨_, _, rfl, _, rfl⟩ := ran
      exact ⟨_, rfl⟩
  | «variable» name =>
    simp only [operand, bind_ok, pure_ok] at ran
    obtain ⟨r, _, loads, _, rfl⟩ := ran
    exact .inr ⟨name, r, rfl, loaded_brought sound loads⟩

section Operand

variable {x : Operand} {scratch y : MachineReg}

theorem operand_shields (sound : b.store.Sound) (ran : operand site x needs scratch b = .ok (y, c))
    (there : ∀ name ∈ x.names, missing? site.table b.store name = none)
    (found : missing? site.table b.store n = none) (shielded : Shielded site needs b x.names n) :
    missing? site.table c.store n = none := by
  rcases operand_brought sound ran with ⟨_, o, rfl⟩ | ⟨name, r, rfl, brought⟩
  · exact found
  · exact brought.shields sound (there name (List.mem_singleton_self name)) found shielded

theorem operand_spacious {rest : List String} (sound : b.store.Sound)
    (ran : operand site x needs scratch b = .ok (y, c)) (spacious : Spacious b (x.names ++ rest)) :
    Spacious c rest := by
  rcases operand_brought sound ran with ⟨none, o, rfl⟩ | ⟨name, r, rfl, brought⟩
  · rw [none] at spacious
    exact spacious
  · exact (brought.spacious sound spacious).1

end Operand

theorem Moves.isGuarded {limits : Limits} {is : List Asm.Instr} (moves : Moves site limits b is c)
    (sound : b.store.Sound) (guarded : Codegen.isGuarded site needs b n = true) :
    Codegen.isGuarded site needs c n = true := by
  cases lookup : c.store.lookup n with
  | none => simp [Codegen.isGuarded, lookup]
  | some v =>
    obtain ⟨f, known, rfl⟩ := Store.lookup_spec lookup
    rw [isGuarded_of_has (moves.sound sound) known]
    rcases moves.homeValid sound known with valid | ⟨e, before, named, stale⟩
    · simp [valid]
    · obtain ⟨g, after, _, home⟩ := moves.entry_name sound before.1
      cases Option.some.inj (after.symm.trans known.1)
      rw [← named, isGuarded_of_has sound before, stale, Bool.false_or] at guarded
      rw [laterUse, moves.sameProcedure.pending, home, ← named]
      exact Bool.or_eq_true _ _ |>.mpr (.inr guarded)

/-- An array is addressed as before if the variable of its name is still known. -/
theorem Moves.place?_of_known {limits : Limits} {is : List Asm.Instr} {array : String}
    (moves : Moves site limits b is c) (sound : b.store.Sound)
    (known : b.arrays.lookup array = none → ¬ (site.table.lookup array).any Symbol.isScalar = true →
      (b.store.lookup array).isSome = true → c.store.lookup array ≠ none) :
    c.place? site.table array = b.place? site.table array := by
  unfold Body.place?
  rw [moves.sameProcedure.arrays]
  cases declared : b.arrays.lookup array with
  | some place => rfl
  | none =>
    by_cases scalar : (site.table.lookup array).any Symbol.isScalar = true
    · simp [scalar]
    simp only [scalar, Bool.or_false]
    cases before : b.store.lookup array with
    | some v =>
      cases after : c.store.lookup array with
      | some w => rfl
      | none => exact absurd after (known declared scalar (by simp [before]))
    | none =>
      cases after : c.store.lookup array with
      | none => rfl
      | some w =>
        obtain ⟨f, has, rfl⟩ := Store.lookup_spec after
        exact absurd (moves.scalar_of_new sound has before).1 scalar

/-- An array is addressed as before if the value of its pointer can still be had. -/
theorem Moves.place?_eq {limits : Limits} {is : List Asm.Instr} {array : String}
    (moves : Moves site limits b is c) (sound : b.store.Sound)
    (found : b.place? site.table array = some .pointer → missing? site.table c.store array = none) :
    c.place? site.table array = b.place? site.table array := by
  refine moves.place?_of_known sound fun declared scalar before after => ?_
  have missing := found (by simp [Body.place?, declared, before])
  rw [missing?_of_lookup after, if_neg scalar] at missing
  cases missing

/-! Elements -/

section Element

variable {array : String} {index : Operand}

/-- What the access to an element needs: its index and its array resolve, and so does the value of a pointer,
which getting the index into a register does not lose. -/
structure Reachable (site : Site) (needs : Needs) (array : String) (index : Operand) (b : Body) : Prop where
  indexed : ∀ name ∈ index.names, missing? site.table b.store name = none
  addressed : (b.place? site.table array).isSome = true
  based : b.place? site.table array = some .pointer →
    missing? site.table b.store array = none ∧ Shielded site needs b index.names array

theorem Reachable.behind_index {i : MachineReg} (reachable : Reachable site needs array index b)
    (sound : b.store.Sound) (ran : operand site index needs .scratchLeft b = .ok (i, c)) :
    c.place? site.table array = b.place? site.table array ∧
      (b.place? site.table array = some .pointer → missing? site.table c.store array = none) := by
  obtain ⟨is, located⟩ := operand_located sound ran
  have base (pointer : b.place? site.table array = some .pointer) : missing? site.table c.store array = none := by
    obtain ⟨found, shielded⟩ := reachable.based pointer
    exact operand_shields sound ran reachable.indexed found shielded
  exact ⟨located.moves.place?_eq sound base, base⟩

theorem Reachable.readings (reachable : Reachable site needs array index b) (sound : b.store.Sound) :
    ∀ r ∈ elementReadings site array index needs b, r.cause? = none := by
  intro r member
  rcases List.mem_append.mp member with here | later
  · obtain ⟨name, named, rfl⟩ := List.mem_map.mp here
    exact reachable.indexed name named
  · obtain ⟨i, c, ran, member⟩ := mem_readingsAfter later
    obtain ⟨same, base⟩ := reachable.behind_index sound ran
    rcases List.mem_cons.mp member with rfl | member
    · rw [Body.addresses, same, if_pos reachable.addressed]
    · unfold Body.baseReads at member
      split at member
      · rename_i pointer
        rw [List.mem_singleton.mp member]
        exact base (same ▸ pointer)
      · cases member

/-- A value that the access to an element does not lose. -/
theorem element_shields {mem : Mem} (reachable : Reachable site needs array index b) (sound : b.store.Sound)
    (ran : element site array index needs b = .ok (mem, d)) (found : missing? site.table b.store n = none)
    (guarded : isGuarded site needs b n = true)
    (shielded : b.place? site.table array = some .pointer →
      Shielded site ⟨index.name?, needs.res⟩ b (index.names ++ [array]) n) :
    missing? site.table d.store n = none := by
  simp only [element, bind_ok, within_ok, emitInstr_ok] at ran
  obtain ⟨i, c, fetched, _, _, rfl, place, e, placed, ran⟩ := ran
  obtain ⟨same, base⟩ := reachable.behind_index sound fetched
  obtain ⟨is, located⟩ := operand_located sound fetched
  have sound' := located.moves.sound sound
  have kept := operand_shields sound fetched reachable.indexed found (.inr (.inl guarded))
  rw [arrayPlace_eq] at placed
  split at placed
  case h_2 => cases placed
  case h_1 place' at' =>
    change c.place? site.table array = some place' at at'
    cases placed
    cases place with
    | global =>
      obtain ⟨_, rfl⟩ := pure_ok.mp ran
      exact kept
    | frame offset =>
      simp only [bind_ok, emitInstr_ok, pure_ok] at ran
      obtain ⟨_, _, rfl, _, rfl⟩ := ran
      exact kept
    | pointer =>
      simp only [bind_ok, within_ok, emitInstr_ok, pure_ok] at ran
      obtain ⟨r, f, loads, _, _, rfl, _, rfl⟩ := ran
      have pointer := same.symm.trans at'
      have brought : Brought site ⟨index.name?, needs.res⟩ array
          { c with out := c.out.append [.aluImm .sll .address i 2] } r f := loaded_brought sound' loads
      refine brought.shields sound' (base pointer) kept ?_
      -- What shields the value before the index is fetched does so behind it.
      rcases shielded pointer with named | guarded | spacious
      · rcases List.mem_append.mp named with named | named
        · exact .inr (.inl (isGuarded_other site _ (Operand.mem_names.mp named)))
        · exact .inl named
      · exact .inr (.inl (located.moves.isGuarded sound guarded))
      · have room : Spacious c [array] := operand_spacious sound fetched spacious
        exact .inr (.inr room)

end Element

/-! Instructions -/

/-- The instructions that get values into registers. -/
def isFetching : Instr → Bool
  | .binary .. | .unary .. | .copy .. | .load .. | .store .. | .loadInd .. | .storeInd .. | .branch .. => true
  | _ => false

/-- The references of such an instruction as they are judged before it. -/
def references (table : Scope) (x : Instr) (b : Body) : List Reading :=
  match x with
  | .binary _ left right _ => b.readsOf table left ++ b.readsOf table right
  | .unary _ x _ => b.readsOf table x
  | .copy src _ => [b.reads table src]
  | .load array index _ => b.readsOf table index ++ b.addresses table array :: b.baseReads table array
  | .store array index value =>
    b.readsOf table index ++ b.addresses table array :: b.baseReads table array ++ b.readsOf table value
  | .loadInd pointer _ => [b.reads table pointer]
  | .storeInd pointer value => b.reads table pointer :: b.readsOf table value
  | .branch cond _ _ => b.readsOf table cond
  | _ => []

/-- The accesses to elements through pointers need a shield: for the pointer while the index gets into a
register, and for a value that is stored while the index and the pointer do. -/
def Sheltered (site : Site) (x : Instr) (b : Body) : Prop :=
  match x with
  | .load array index res =>
    b.place? site.table array = some .pointer → Shielded site ⟨none, some res⟩ b index.names array
  | .store array index value =>
    b.place? site.table array = some .pointer → Shielded site ⟨value.name?, none⟩ b index.names array ∧
      ∀ name ∈ value.names, Shielded site ⟨index.name?, none⟩ b (index.names ++ [array]) name
  | _ => True

theorem reachable_of_resolved {array : String} {index : Operand}
    (resolved : ∀ r ∈ b.readsOf site.table index ++ b.addresses site.table array :: b.baseReads site.table array,
      r.cause? = none)
    (shielded : b.place? site.table array = some .pointer → Shielded site needs b index.names array) :
    Reachable site needs array index b where
  indexed name named := resolved _ (List.mem_append_left _ (List.mem_map_of_mem named))
  addressed := by
    have addressed := resolved _ (List.mem_append_right _ List.mem_cons_self)
    unfold Body.addresses at addressed
    dsimp only at addressed
    split at addressed
    · assumption
    · cases addressed
  based pointer := by
    refine ⟨resolved (b.reads site.table array) ?_, shielded pointer⟩
    refine List.mem_append_right _ (List.mem_cons_of_mem _ ?_)
    rw [Body.baseReads, if_pos pointer]
    exact List.mem_singleton_self _

theorem readings_resolved {x : Instr} (sound : b.store.Sound) (fetching : isFetching x = true)
    (resolved : ∀ r ∈ references site.table x b, r.cause? = none) (sheltered : Sheltered site x b) :
    ∀ r ∈ readings site x b, r.cause? = none := by
  cases x with
  | binary op left right res =>
    obtain ⟨first, second⟩ := List.forall_mem_append.mp resolved
    refine List.forall_mem_append.mpr ⟨first, fun r member => ?_⟩
    obtain ⟨y, c, ran, member⟩ := mem_readingsAfter member
    obtain ⟨name, named, rfl⟩ := List.mem_map.mp member
    exact operand_shields sound ran (List.forall_mem_map.mp first) (List.forall_mem_map.mp second name named)
      (.inr (.inl (isGuarded_other site b (Operand.mem_names.mp named))))
  | unary op x res => exact resolved
  | copy src res =>
    intro r member
    simp only [readings] at member
    split at member
    · cases member
    · exact resolved r member
  | load array index res => exact (reachable_of_resolved resolved sheltered).readings sound
  | store array index value =>
    obtain ⟨access, stored⟩ := List.forall_mem_append.mp resolved
    have reachable := reachable_of_resolved access fun pointer => (sheltered pointer).1
    refine List.forall_mem_append.mpr ⟨reachable.readings sound, fun r member => ?_⟩
    obtain ⟨mem, d, ran, member⟩ := mem_readingsAfter member
    obtain ⟨name, named, rfl⟩ := List.mem_map.mp member
    have guarded : isGuarded site ⟨value.name?, none⟩ b name = true :=
      isGuarded_other site b (Operand.mem_names.mp named)
    exact element_shields reachable sound ran (List.forall_mem_map.mp stored name named) guarded
      fun pointer => (sheltered pointer).2 name named
  | loadInd pointer res => exact resolved
  | storeInd pointer value =>
    obtain ⟨first, second⟩ := List.forall_mem_cons.mp resolved
    refine List.forall_mem_cons.mpr ⟨first, fun r member => ?_⟩
    obtain ⟨p, c, ran, member⟩ := mem_readingsAfter member
    obtain ⟨name, named, rfl⟩ := List.mem_map.mp member
    exact (loaded_brought sound ran).shields sound first (List.forall_mem_map.mp second name named)
      (.inr (.inl (isGuarded_other site b (Operand.mem_names.mp named))))
  | branch cond ifTrue target => exact resolved
  | _ => cases fetching

/-! Whole runs -/

theorem step_fetching {x : Instr} (fetching : isFetching x = true) :
    step site x (.inside b) = (do return .inside (← b.advance (lower site x))) := by
  cases x with
  | imm | param | call | goto | ret | label | nop => cases fetching
  | _ => rfl

/-- In every state of the generator inside of a procedure: if everything that an instruction refers to can be
resolved before it and its operands are sheltered from each other, then the instruction is lowered without a
warning or fails for want of a register. -/
theorem stateAt_operands_survive (options : Options) (table : Scope) (code : List Quad) (n : Nat) (b : Body)
    (x : Instr) (reached : stateAt options table code n = .ok (.inside b)) (fetching : isFetching x = true)
    (resolved : ∀ r ∈ references table x b, r.cause? = none)
    (sheltered : Sheltered (siteAt options table code n) x { b with reserved := [], returned := false }) :
    (∃ c, step (siteAt options table code n) x (.inside b) = .ok (.inside c) ∧ c.out.warnings = b.out.warnings) ∨
      ∃ e, step (siteAt options table code n) x (.inside b) = .error e ∧ e.kind = .noRegister := by
  have consistent : Consistent b.store := stateAt_consistent reached
  have planned : (siteAt options table code n).Planned := ⟨options, code, rfl⟩
  have resolved := readings_resolved (b := { b with reserved := [], returned := false }) consistent.sound fetching
    resolved sheltered
  rcases lower_notes (siteAt options table code n) (b := { b with reserved := [], returned := false })
    consistent.sound x with notes | ⟨_, _, _, rfl, _⟩
  case inr => cases fetching
  rw [step_fetching fetching, Body.advance]
  cases lowered : lower (siteAt options table code n) x { b with reserved := [], returned := false } with
  | ok p =>
    refine .inl ⟨p.2, rfl, ?_⟩
    have warned := (notes.ran () p.2 lowered).1
    rw [noted_of_resolved resolved, List.append_nil] at warned
    exact Array.toList_inj.mp warned
  | error e =>
    refine .inr ⟨e, rfl, ?_⟩
    rcases notes.failed e lowered with scarce | fault | ⟨r, member, _, cause⟩
    · exact scarce
    · exact absurd fault
        (lower_safe (b := { b with reserved := [], returned := false }) planned consistent x e lowered)
    · rw [resolved r member] at cause
      cases cause

def pointerTable : Scope :=
  ⟨[{ name := "f", kind := .function,
      params := [{ name := "p", size := 4, isArray := true }, { name := "y", size := 4 }] }]⟩

/-- Every register is in use when a temporary is stored through a pointer. Whether the temporary is mentioned
behind the store depends on the quads in between. -/
def crowdedStore (between : List Quad) : List Quad :=
  Quad.numberedFrom 0 (
    { op := "label", arg1 := "func_f" } ::
    ["u0", "u1", "u2", "u3", "u4", "u5"].map (fun u => { op := "=", arg1 := "1", res := u }) ++
    [{ op := "+", arg1 := "u5", arg2 := "y", res := "u5" },
      { op := "[]=", arg1 := "0", arg2 := "u0", res := "p" }] ++ between ++
    ["u2", "u3", "u4", "u5"].map (fun u => { op := "+", arg1 := "u1", arg2 := u, res := "u1" }) ++
    [{ op := "return", res := "u1" }, { op := "label", arg1 := "end_f" }])

def storeValue : Instr := .store "p" (.literal 0) (.variable "u0")

def lateMention : List Quad := [{ op := "=", arg1 := "u0", res := "u0" }]

/-- A temporary that is mentioned later outlives that a register is taken for the pointer. -/
theorem stateAt_operands_survive_crowded :
    ∃ b, stateAt {} pointerTable (crowdedStore lateMention) 8 = .ok (.inside b) ∧
      (∀ r, b.store.isUsable r = true → b.store.isFree r = false) ∧
      (∀ r ∈ references pointerTable storeValue b, r.cause? = none) ∧
      ((∃ c, step (siteAt {} pointerTable (crowdedStore lateMention) 8) storeValue (.inside b) = .ok (.inside c) ∧
          c.out.warnings = b.out.warnings) ∨
        ∃ e, step (siteAt {} pointerTable (crowdedStore lateMention) 8) storeValue (.inside b) = .error e ∧
          e.kind = .noRegister) := by
  have checked : insideWith (fun b => (∀ r, b.store.isUsable r = true → b.store.isFree r = false) ∧
      (references pointerTable storeValue b).all (·.cause?.isNone) = true ∧
      isGuarded (siteAt {} pointerTable (crowdedStore lateMention) 8) ⟨none, none⟩
        { b with reserved := [], returned := false } "u0" = true)
      (stateAt {} pointerTable (crowdedStore lateMention) 8) = true := by
    decide +kernel
  obtain ⟨b, reached, passed⟩ := exists_of_insideWith checked
  obtain ⟨full, resolved, guarded⟩ := of_decide_eq_true passed
  have resolved : ∀ r ∈ references pointerTable storeValue b, r.cause? = none := fun r member =>
    Option.isNone_iff_eq_none.mp (List.all_eq_true.mp resolved r member)
  refine ⟨b, reached, full, resolved, stateAt_operands_survive _ _ _ 8 b storeValue reached rfl resolved ?_⟩
  refine fun _ => ⟨.inr (.inr (Nat.zero_le _)), fun name named => ?_⟩
  cases List.mem_singleton.mp named
  exact .inr (.inl guarded)

/-- A temporary that is stored for its last use loses its register to the pointer, though a variable that its
home holds is in another register. -/
theorem pointer_takes_value :
    ∃ b e, stateAt {} pointerTable (crowdedStore []) 8 = .ok (.inside b) ∧
      (∀ r ∈ references pointerTable storeValue b, r.cause? = none) ∧
      step (siteAt {} pointerTable (crowdedStore []) 8) storeValue (.inside b) = .error e ∧
      e.kind = .unresolved := by
  have checked : insideWith (fun b => (references pointerTable storeValue b).all (·.cause?.isNone) = true ∧
      ((step (siteAt {} pointerTable (crowdedStore []) 8) storeValue (.inside b)).map fun _ => ()).mapError
        Error.kind = .error .unresolved) (stateAt {} pointerTable (crowdedStore []) 8) = true := by
    decide +kernel
  obtain ⟨b, reached, passed⟩ := exists_of_insideWith checked
  obtain ⟨resolved, refused⟩ := of_decide_eq_true passed
  obtain ⟨e, failed, kind⟩ := exists_error_of_kind refused
  refine ⟨b, e, reached, fun r member => ?_, failed, kind⟩
  exact Option.isNone_iff_eq_none.mp (List.all_eq_true.mp resolved r member)

end ThreeAddress.Codegen
