import ThreeAddress.Codegen.Allocate
import ThreeAddress.Proofs.Descriptor

/-! The generator works in small moves. A move emits a few instructions and changes the
descriptors to match, and the value of no variable changes. Invariants of the generator are
proved of the moves. -/
namespace ThreeAddress.Codegen

open Asm (Line Mem)
open Descriptor (Store Var Entry)

/-- The output behind further instructions. -/
def Output.append (o : Output) (is : List Asm.Instr) : Output :=
  is.foldl (fun o i => o.push (.instr i)) o

@[simp] theorem Output.append_nil (o : Output) : o.append [] = o := rfl

theorem Output.lines_append (o : Output) (is : List Asm.Instr) :
    (o.append is).lines.toList = o.lines.toList ++ is.map Line.instr := by
  induction is generalizing o with
  | nil => simp
  | cons i is ih =>
    have step : o.append (i :: is) = (o.push (.instr i)).append is := rfl
    rw [step, ih]
    simp [Output.push]

@[simp] theorem Output.warnings_append (o : Output) (is : List Asm.Instr) :
    (o.append is).warnings = o.warnings := by
  induction is generalizing o with
  | nil => rfl
  | cons i is ih => exact ih (o.push (.instr i))

/-- An instruction that does nothing but compute into one of the argument registers. -/
def isScratch (free : List (Fin 8)) : Asm.Instr → Bool
  | .alu _ (.arg i) _ _ => i ∈ free
  | .aluImm _ (.arg i) _ _ => i ∈ free
  | .lui (.arg i) _ => i ∈ free
  | .mv (.arg i) _ => i ∈ free
  | .nop => true
  | _ => false

/-- What moves have to leave alone: registers that keep their variables, the one variable that
may lose its last copy, the argument registers that may change and the number of outgoing slots
that may. -/
structure Limits where
  locked : List Reg := []
  lost : Option String := none
  free : List (Fin 8) := []
  outgoing : Nat := 0

/-- Under these limits every register keeps its variable. -/
def Limits.still : Limits := { locked := Reg.all }

/-- What the generator can do without changing the value of a variable. -/
inductive Move (site : Site) (limits : Limits) : Body → List Asm.Instr → Body → Prop
  /-- A global scalar is mentioned for the first time. -/
  | mention {b : Body} {name : String} {x : Symbol} :
      b.store.lookup name = none → site.table.lookup name = some x → x.isScalar = true →
      Move site limits b []
        { b with store := (b.store.declare name (some (.global name))).2 }
  | reserve {b : Body} (r : Reg) : Move site limits b [] { b with reserved := r :: b.reserved }
  /-- A variable is stored to its home. -/
  | save {b : Body} {v : Var} {e : Entry Mem} {r : Reg} {home : Mem} :
      b.store.get? v = some e → r ∈ e.regs → e.home = some home →
      Move site limits b [.sw (.pool r) home]
        { b with out := b.out.append [.sw (.pool r) home], store := b.store.markStored v }
  | clear {b : Body} {r : Reg} :
      r ∉ limits.locked →
      (∀ v e, v ∈ b.store.held r → b.store.get? v = some e → e.home.isSome = true →
        limits.lost ≠ some e.name → e.hasCopyBeside r = true) →
      Move site limits b [] { b with store := b.store.clearRegister r }
  /-- A variable that is nowhere but in its home is loaded. -/
  | load {b : Body} {v : Var} {e : Entry Mem} {r : Reg} {home : Mem} :
      r ∉ limits.locked → b.store.Has v e → e.homeValid = true → e.home = some home →
      (∀ q, q ∉ e.regs) → (∀ w, w ∉ b.store.held r) → b.store.isUsable r = true →
      Move site limits b (loadInstrs site.options (.pool r) home)
        { b with
          out := b.out.append (loadInstrs site.options (.pool r) home), store := b.store.bind r v }
  | scratch {b : Body} {is : List Asm.Instr} :
      (∀ i ∈ is, isScratch limits.free i = true) → Move site limits b is { b with out := b.out.append is }
  /-- A home is read into a register outside of the pool. -/
  | fetch {b : Body} {v : Var} {e : Entry Mem} {i : Fin 8} {home : Mem} :
      i ∈ limits.free → b.store.Has v e → e.homeValid = true → e.home = some home →
      Move site limits b (loadInstrs site.options (.arg i) home)
        { b with out := b.out.append (loadInstrs site.options (.arg i) home) }
  /-- An argument is stored to its outgoing slot. -/
  | pass {b : Body} {x : MachineReg} {i : Nat} :
      i < limits.outgoing →
      Move site limits b [.sw x (frameWord (b.layout.outgoingOffset (Int64.ofNat i)))]
        { b with
          out := b.out.append [.sw x (frameWord (b.layout.outgoingOffset (Int64.ofNat i)))] }
  /-- A variable that its home holds leaves a register. -/
  | evict {b : Body} {v : Var} {e : Entry Mem} {r : Reg} :
      r ∉ limits.locked → b.store.Has v e → e.homeValid = true →
      Move site limits b [] { b with store := b.store.unbind r v }
  | warn {b : Body} (e : Error) :
      site.options.strict = false → Move site limits b [] { b with out := b.out.warn e }

/-- One move after the other. -/
inductive Moves (site : Site) (limits : Limits) : Body → List Asm.Instr → Body → Prop
  | refl (b : Body) : Moves site limits b [] b
  | step {a b c : Body} {is js : List Asm.Instr} :
      Moves site limits a is b → Move site limits b js c →
      Moves site limits a (is ++ js) c

variable {site : Site} {limits : Limits}
variable {a b c : Body} {is js : List Asm.Instr}

theorem Moves.one (move : Move site limits a is b) : Moves site limits a is b := by
  simpa using Moves.step (.refl a) move

theorem Moves.trans (first : Moves site limits a is b) (second : Moves site limits b js c) :
    Moves site limits a (is ++ js) c := by
  induction second with
  | refl => simpa using first
  | step _ move ih => simpa [List.append_assoc] using Moves.step ih move

/-- The first limits are as strict as the second. -/
structure Limits.Within (inner outer : Limits) : Prop where
  locked : ∀ r ∈ outer.locked, r ∈ inner.locked
  lost : inner.lost = none ∨ inner.lost = outer.lost
  free : ∀ i ∈ inner.free, i ∈ outer.free
  outgoing : inner.outgoing ≤ outer.outgoing

theorem isScratch_mono {inner outer : List (Fin 8)} (more : ∀ i ∈ inner, i ∈ outer) {x : Asm.Instr}
    (scratch : isScratch inner x = true) : isScratch outer x = true := by
  unfold isScratch at scratch ⊢
  split at scratch
  all_goals first
    | exact decide_eq_true (more _ (of_decide_eq_true scratch))
    | rfl
    | contradiction

theorem Move.mono {outer : Limits} (move : Move site limits a is b) (within : limits.Within outer) :
    Move site outer a is b := by
  cases move with
  | mention unknown symbol scalar => exact .mention unknown symbol scalar
  | reserve r => exact .reserve r
  | save entry listed home => exact .save entry listed home
  | clear free kept =>
    refine .clear (fun held => free (within.locked _ held)) ?_
    intro v e held entry homed wanted
    refine kept v e held entry homed ?_
    rcases within.lost with none | same
    · simp [none]
    · rwa [same]
  | load free known valid home nowhere empty usable =>
    exact .load (fun held => free (within.locked _ held)) known valid home nowhere empty usable
  | scratch plain => exact .scratch fun i member => isScratch_mono within.free (plain i member)
  | fetch free known valid home => exact .fetch (within.free _ free) known valid home
  | pass bound => exact .pass (Nat.lt_of_lt_of_le bound within.outgoing)
  | evict free known valid => exact .evict (fun held => free (within.locked _ held)) known valid
  | warn e lenient => exact .warn e lenient

theorem Moves.mono {outer : Limits} (moves : Moves site limits a is b)
    (within : limits.Within outer) : Moves site outer a is b := by
  induction moves with
  | refl => exact .refl a
  | step _ move ih => exact .step ih (move.mono within)

theorem Move.sound (move : Move site limits a is b) (sound : a.store.Sound) : b.store.Sound := by
  cases move with
  | mention => exact sound.declare _ _
  | reserve => exact sound
  | save entry => exact sound.markStored entry
  | clear => exact sound.clearRegister _
  | load free known valid home nowhere empty usable =>
    exact sound.bind known (fun w held => absurd held (empty w)) usable
  | scratch => exact sound
  | fetch => exact sound
  | pass => exact sound
  | evict free known => exact sound.unbind known _
  | warn => exact sound

theorem Moves.sound (moves : Moves site limits a is b) (sound : a.store.Sound) :
    b.store.Sound := by
  induction moves with
  | refl => exact sound
  | step _ move ih => exact move.sound ih

/-! What a move leaves alone -/

/-- The parts of the generator that moves do not touch. -/
structure SameProcedure (a b : Body) : Prop where
  function : b.function = a.function
  layout : b.layout = a.layout
  arrays : b.arrays = a.arrays
  spare : b.spare = a.spare
  pending : b.pending = a.pending
  returned : b.returned = a.returned

theorem SameProcedure.refl (a : Body) : SameProcedure a a := ⟨rfl, rfl, rfl, rfl, rfl, rfl⟩

theorem SameProcedure.trans (first : SameProcedure a b) (second : SameProcedure b c) :
    SameProcedure a c :=
  ⟨second.function.trans first.function, second.layout.trans first.layout,
    second.arrays.trans first.arrays, second.spare.trans first.spare,
    second.pending.trans first.pending, second.returned.trans first.returned⟩

theorem Move.sameProcedure (move : Move site limits a is b) : SameProcedure a b := by
  cases move <;> exact ⟨rfl, rfl, rfl, rfl, rfl, rfl⟩

theorem Moves.sameProcedure (moves : Moves site limits a is b) : SameProcedure a b := by
  induction moves with
  | refl => exact .refl _
  | step _ move ih => exact ih.trans move.sameProcedure

theorem Move.lines (move : Move site limits a is b) :
    b.out.lines.toList = a.out.lines.toList ++ is.map Line.instr := by
  cases move with
  | mention => simp
  | reserve => simp
  | save => exact Output.lines_append _ _
  | clear => simp
  | load => exact Output.lines_append _ _
  | scratch => exact Output.lines_append _ _
  | fetch => exact Output.lines_append _ _
  | pass => exact Output.lines_append _ _
  | evict => simp
  | warn => simp [Output.warn]

theorem Moves.lines (moves : Moves site limits a is b) :
    b.out.lines.toList = a.out.lines.toList ++ is.map Line.instr := by
  induction moves with
  | refl => simp
  | step _ move ih => rw [move.lines, ih, List.map_append, List.append_assoc]

/-- Moves warn only where unresolved references are allowed. -/
theorem Move.warnings (move : Move site limits a is b) :
    a.out.warnings.size ≤ b.out.warnings.size ∧
      (site.options.strict = true → b.out.warnings.size = a.out.warnings.size) := by
  cases move with
  | warn e lenient => simp [Output.warn, lenient]
  | _ => simp

theorem Moves.warnings (moves : Moves site limits a is b) :
    a.out.warnings.size ≤ b.out.warnings.size ∧
      (site.options.strict = true → b.out.warnings.size = a.out.warnings.size) := by
  induction moves with
  | refl => simp
  | step _ move ih =>
    refine ⟨Nat.le_trans ih.1 move.warnings.1, fun strict => ?_⟩
    rw [move.warnings.2 strict, ih.2 strict]

theorem Move.reserved (move : Move site limits a is b) : ∀ r ∈ a.reserved, r ∈ b.reserved := by
  intro r member
  cases move with
  | reserve q => exact List.mem_cons_of_mem q member
  | _ => exact member

theorem Moves.reserved (moves : Moves site limits a is b) :
    ∀ r ∈ a.reserved, r ∈ b.reserved := by
  induction moves with
  | refl => exact fun _ member => member
  | step _ move ih => exact fun r member => move.reserved r (ih r member)

theorem Move.isUsable (move : Move site limits a is b) (sound : a.store.Sound) (q : Reg) :
    b.store.isUsable q = a.store.isUsable q := by
  cases move with
  | mention => exact Store.isUsable_declare _ _ _
  | reserve => rfl
  | save => rfl
  | clear => exact Store.isUsable_clearRegister (sound.single _) q
  | load free known valid home nowhere empty =>
    exact Store.isUsable_bind (fun w held => absurd held (empty w)) q
  | scratch => rfl
  | fetch => rfl
  | pass => rfl
  | evict => exact Store.isUsable_unbind _ _ _ _
  | warn => rfl

theorem Moves.isUsable (moves : Moves site limits a is b) (sound : a.store.Sound) (q : Reg) :
    b.store.isUsable q = a.store.isUsable q := by
  induction moves with
  | refl => rfl
  | step before move ih => rw [move.isUsable (before.sound sound), ih]

theorem Move.held_locked (move : Move site limits a is b) (sound : a.store.Sound) {q : Reg}
    (lock : q ∈ limits.locked) (w : Var) : w ∈ b.store.held q ↔ w ∈ a.store.held q := by
  cases move with
  | mention => simp
  | reserve => rfl
  | save => rfl
  | @clear r free =>
    have other : q ≠ r := fun same => free (same ▸ lock)
    simp [Store.held_clearRegister (sound.single r), other]
  | @load v e r home free known valid place nowhere empty =>
    have other : q ≠ r := fun same => free (same ▸ lock)
    simp [Store.held_bind (fun w held => absurd held (empty w)), other]
  | scratch => rfl
  | fetch => rfl
  | pass => rfl
  | @evict v e r free =>
    have other : q ≠ r := fun same => free (same ▸ lock)
    simp [other]
  | warn => rfl

theorem Moves.held_locked (moves : Moves site limits a is b) (sound : a.store.Sound) {q : Reg}
    (lock : q ∈ limits.locked) (w : Var) : w ∈ b.store.held q ↔ w ∈ a.store.held q := by
  induction moves with
  | refl => rfl
  | step before move ih => rw [move.held_locked (before.sound sound) lock, ih]

/-! What a move does to an entry -/

/-- How a move can change the entry of a variable. -/
inductive Change (limits : Limits) : Entry Mem → Entry Mem → Prop
  | same (e : Entry Mem) : Change limits e e
  | stored {e : Entry Mem} {r : Reg} :
      e.home.isSome = true → r ∈ e.regs → Change limits e e.markStored
  | left {e : Entry Mem} {r : Reg} :
      r ∈ e.regs → r ∉ limits.locked →
      (e.home.isSome = true → limits.lost ≠ some e.name → e.hasCopyBeside r = true) →
      Change limits e (e.without r)
  | loaded {e : Entry Mem} {r : Reg} :
      (∀ q, q ∉ e.regs) → e.homeValid = true → e.forgotten = false → r ∉ limits.locked →
      Change limits e { e with regs := e.regs.insert r }
  | evicted {e : Entry Mem} {r : Reg} :
      e.homeValid = true → r ∉ limits.locked →
      Change limits e { e with regs := e.regs.erase r }

theorem Change.name {e f : Entry Mem} (change : Change limits e f) : f.name = e.name := by
  cases change with
  | left => exact Entry.name_without ..
  | _ => rfl

theorem Change.home {e f : Entry Mem} (change : Change limits e f) : f.home = e.home := by
  cases change with
  | left => exact Entry.home_without ..
  | _ => rfl

theorem Change.known {e f : Entry Mem} (change : Change limits e f)
    (known : f.forgotten = false) : e.forgotten = false := by
  cases change with
  | left =>
    refine Bool.eq_false_iff.mpr fun forgotten => ?_
    simp [Entry.forgotten_without.mpr (.inl forgotten)] at known
  | _ => exact known

/-- A variable with a home is not forgotten. -/
theorem Change.stays {e f : Entry Mem} (change : Change limits e f) (known : e.forgotten = false)
    (homed : e.home.isSome = true) : f.forgotten = false := by
  cases change with
  | left =>
    refine Bool.eq_false_iff.mpr fun gone => ?_
    rcases Entry.forgotten_without.mp gone with forgotten | ⟨none, _⟩
    · simp [known] at forgotten
    · simp [none] at homed
  | _ => exact known

theorem Change.homeValid {e f : Entry Mem} (change : Change limits e f) (valid : e.homeValid = true) :
    f.homeValid = true ∨ f.forgotten = true := by
  cases change with
  | stored homed => exact .inl homed
  | left => exact .inl ((Entry.homeValid_without ..).trans valid)
  | _ => exact .inl valid

theorem Change.clean {e f : Entry Mem} (change : Change limits e f) (clean : e.dirty = false) :
    f.dirty = false := by
  cases change with
  | same => exact clean
  | stored => exact e.dirty_markStored
  | @left r listed =>
    have filled : e.regs.isEmpty = false := KeySet.isEmpty_eq_false_iff.mpr ⟨r, listed⟩
    simp only [Entry.dirty, filled, Bool.not_false, Bool.and_true] at clean
    simp [Entry.dirty, clean]
  | loaded _ valid => simp [Entry.dirty, valid]
  | evicted valid => simp [Entry.dirty, valid]

/-- The entries after a move are those before it, changed or not, and that of a global mentioned
for the first time. -/
theorem Move.entry_before (move : Move site limits a is b) (sound : a.store.Sound) {w : Var}
    {f : Entry Mem} (after : b.store.get? w = some f) :
    (∃ e, a.store.get? w = some e ∧ Change limits e f) ∨
    (a.store.get? w = none ∧ a.store.lookup f.name = none ∧ f.home = some (.global f.name) ∧
      f.homeValid = true ∧ (∀ r, r ∉ f.regs) ∧
      ∃ x, site.table.lookup f.name = some x ∧ x.isScalar = true) := by
  cases move with
  | @mention name x unknown symbol scalar =>
    rw [(Store.declare_of_new unknown _).2] at after
    split at after
    · rename_i atEnd
      cases Option.some.inj after
      refine .inr ⟨?_, unknown, rfl, rfl, KeySet.not_mem_empty, x, symbol, scalar⟩
      rw [atEnd]
      exact List.getElem?_eq_none (Nat.le_refl _)
    · exact .inl ⟨f, after, .same f⟩
  | reserve => exact .inl ⟨f, after, .same f⟩
  | @save v e r home entry listed place =>
    simp only [Store.get?_markStored] at after
    split at after
    · rename_i same
      rw [entry, Option.map_some] at after
      cases Option.some.inj after
      exact .inl ⟨e, same ▸ entry, .stored (by simp [place]) listed⟩
    · exact .inl ⟨f, after, .same f⟩
  | @clear r free kept =>
    rcases sound.entry_cleared after with before | ⟨e, known, listed, rfl⟩
    · exact .inl ⟨f, before, .same f⟩
    · have held : w ∈ a.store.held r := (sound.listed r w).mpr ⟨e, known.1, listed⟩
      exact .inl ⟨e, known.1, .left listed free (kept w e held known.1)⟩
  | @load v e r home free known valid place nowhere empty usable =>
    rw [Store.get?_bind (fun w held => absurd held (empty w))] at after
    split at after
    · rename_i same
      rw [known.1, Option.map_some] at after
      cases Option.some.inj after
      exact .inl ⟨e, same ▸ known.1, .loaded nowhere valid known.2 free⟩
    · exact .inl ⟨f, after, .same f⟩
  | scratch => exact .inl ⟨f, after, .same f⟩
  | fetch => exact .inl ⟨f, after, .same f⟩
  | pass => exact .inl ⟨f, after, .same f⟩
  | @evict v e r free known valid =>
    rw [Store.get?_unbind] at after
    split at after
    · rename_i same
      rw [known.1, Option.map_some] at after
      cases Option.some.inj after
      exact .inl ⟨e, same ▸ known.1, .evicted valid free⟩
    · exact .inl ⟨f, after, .same f⟩
  | warn => exact .inl ⟨f, after, .same f⟩

theorem Move.entry_after (move : Move site limits a is b) (sound : a.store.Sound) {w : Var}
    {e : Entry Mem} (before : a.store.get? w = some e) :
    ∃ f, b.store.get? w = some f ∧ Change limits e f := by
  have present : ∃ f, b.store.get? w = some f := by
    cases move with
    | mention unknown =>
      refine ⟨e, ?_⟩
      rw [(Store.declare_of_new unknown _).2, if_neg (Nat.ne_of_lt (Store.get?_lt before))]
      exact before
    | reserve => exact ⟨e, before⟩
    | @save v _ _ _ entry =>
      by_cases same : w = v <;> simp [Store.markStored, same, entry, before]
    | clear =>
      rw [sound.get?_clearRegister, before]
      split <;> exact ⟨_, rfl⟩
    | @load v _ r _ free known valid place nowhere empty =>
      rw [Store.get?_bind (fun w held => absurd held (empty w))]
      by_cases same : w = v <;> simp [same, known.1, before]
    | scratch => exact ⟨e, before⟩
    | fetch => exact ⟨e, before⟩
    | pass => exact ⟨e, before⟩
    | @evict v _ _ free known =>
      by_cases same : w = v <;> simp [same, known.1, before]
    | warn => exact ⟨e, before⟩
  obtain ⟨f, after⟩ := present
  rcases move.entry_before sound after with ⟨e', entry, change⟩ | ⟨absent, _⟩
  · cases Option.some.inj (before.symm.trans entry)
    exact ⟨f, after, change⟩
  · rw [absent] at before
    contradiction

theorem Moves.entry_name (moves : Moves site limits a is b) (sound : a.store.Sound) {w : Var}
    {e : Entry Mem} (before : a.store.get? w = some e) :
    ∃ f, b.store.get? w = some f ∧ f.name = e.name ∧ f.home = e.home := by
  induction moves with
  | refl => exact ⟨e, before, rfl, rfl⟩
  | step first move ih =>
    obtain ⟨f, middle, name, home⟩ := ih
    obtain ⟨g, after, change⟩ := move.entry_after (first.sound sound) middle
    exact ⟨g, after, change.name.trans name, change.home.trans home⟩

theorem Moves.homed_stays (moves : Moves site limits a is b) (sound : a.store.Sound) {w : Var}
    {e : Entry Mem} (known : a.store.Has w e) (homed : e.home.isSome = true) :
    ∃ f, b.store.Has w f ∧ f.name = e.name ∧ f.home = e.home := by
  induction moves with
  | refl => exact ⟨e, known, rfl, rfl⟩
  | step first move ih =>
    obtain ⟨f, middle, name, home⟩ := ih
    obtain ⟨g, after, change⟩ := move.entry_after (first.sound sound) middle.1
    refine ⟨g, ⟨after, change.stays middle.2 ?_⟩, change.name.trans name, change.home.trans home⟩
    rwa [home]

/-- A variable in a locked register stays there. -/
theorem Moves.stays_locked (moves : Moves site limits a is b) (sound : a.store.Sound) {w : Var}
    {e : Entry Mem} {r : Reg} (known : a.store.Has w e) (lock : r ∈ limits.locked) (listed : r ∈ e.regs) :
    ∃ f, b.store.Has w f ∧ f.name = e.name ∧ f.home = e.home ∧ r ∈ f.regs := by
  have held := (moves.held_locked sound lock w).mpr ((sound.listed r w).mpr ⟨e, known.1, listed⟩)
  obtain ⟨f, after, inside⟩ := (moves.sound sound).known_of_held held
  obtain ⟨g, found, name, home⟩ := moves.entry_name sound known.1
  cases Option.some.inj (after.1.symm.trans found)
  exact ⟨f, after, name, home, inside⟩

theorem mem_regs_all : ∀ r : Reg, r ∈ Reg.all := by decide

/-- Where every register is locked, no variable gets lost. -/
theorem Moves.stays (moves : Moves site limits a is b) (locked : ∀ r, r ∈ limits.locked)
    (sound : a.store.Sound) {w : Var} {e : Entry Mem} (known : a.store.Has w e)
    (located : e.home.isSome = true ∨ ∃ r, r ∈ e.regs) : ∃ f, b.store.Has w f ∧ f.name = e.name := by
  rcases located with homed | ⟨r, listed⟩
  · obtain ⟨f, after, name, _⟩ := moves.homed_stays sound known homed
    exact ⟨f, after, name⟩
  · obtain ⟨f, after, name, _⟩ := moves.stays_locked sound known (locked r) listed
    exact ⟨f, after, name⟩

/-- The register holds a valid copy of the variable of the name. -/
def Resides (b : Body) (r : Reg) (name : String) : Prop :=
  ∃ v e, b.store.get? v = some e ∧ r ∈ e.regs ∧ e.name = name

/-- The register holds nothing but the variable of the name. -/
def Owned (b : Body) (r : Reg) (name : String) : Prop :=
  ∀ v e, v ∈ b.store.held r → b.store.get? v = some e → e.name = name

theorem Resides.owned {r : Reg} {name : String} (sound : b.store.Sound) (resides : Resides b r name) :
    Owned b r name := by
  obtain ⟨v, e, entry, listed, same⟩ := resides
  intro w f held found
  cases sound.eq_of_held held ((sound.listed r v).mpr ⟨e, entry, listed⟩)
  cases Option.some.inj (entry.symm.trans found)
  exact same

theorem Resides.lookup {r : Reg} {name : String} (resides : Resides b r name)
    (sound : b.store.Sound) : (b.store.lookup name).isSome = true := by
  obtain ⟨v, e, entry, listed, rfl⟩ := resides
  simp [sound.lookup_eq (sound.known_of_reg entry listed)]

theorem Moves.owned_of_held (moves : Moves site limits a is b) (sound : a.store.Sound) {r : Reg}
    (held : b.store.held r = a.store.held r) {name : String} (owned : Owned a r name) :
    Owned b r name := by
  intro v f member after
  rw [held] at member
  obtain ⟨e, entry, _⟩ := sound.known_of_held member
  obtain ⟨g, found, same, _⟩ := moves.entry_name sound entry.1
  cases Option.some.inj (found.symm.trans after)
  exact same.trans (owned v e member entry.1)

theorem Moves.resides_iff (moves : Moves site limits a is b) (sound : a.store.Sound) {r : Reg}
    (held : b.store.held r = a.store.held r) {name : String} : Resides b r name ↔ Resides a r name := by
  constructor
  · rintro ⟨v, f, after, listed, same⟩
    have member := ((moves.sound sound).listed r v).mpr ⟨f, after, listed⟩
    rw [held] at member
    obtain ⟨e, entry, inside⟩ := sound.known_of_held member
    obtain ⟨g, found, name, _⟩ := moves.entry_name sound entry.1
    cases Option.some.inj (found.symm.trans after)
    exact ⟨v, e, entry.1, inside, name.symm.trans same⟩
  · rintro ⟨v, e, entry, listed, same⟩
    have member := (sound.listed r v).mpr ⟨e, entry, listed⟩
    rw [← held] at member
    obtain ⟨f, after, inside⟩ := ((moves.sound sound).listed r v).mp member
    obtain ⟨g, found, name, _⟩ := moves.entry_name sound entry
    cases Option.some.inj (found.symm.trans after)
    exact ⟨v, f, after, inside, name.trans same⟩

theorem Move.owned (move : Move site limits a is b) (sound : a.store.Sound) {r : Reg}
    (lock : r ∈ limits.locked) {name : String} (owned : Owned a r name) : Owned b r name := by
  intro v f held after
  have before := (move.held_locked sound lock v).mp held
  obtain ⟨e, entry, _⟩ := sound.known_of_held before
  obtain ⟨g, found, change⟩ := move.entry_after sound entry.1
  cases Option.some.inj (found.symm.trans after)
  rw [change.name]
  exact owned v e before entry.1

theorem Moves.owned (moves : Moves site limits a is b) (sound : a.store.Sound) {r : Reg}
    (lock : r ∈ limits.locked) {name : String} (owned : Owned a r name) : Owned b r name := by
  induction moves with
  | refl => exact owned
  | step before move ih => exact move.owned (before.sound sound) lock ih

/-- No register copy is newer than its home. -/
def Clean (b : Body) : Prop := ∀ v e, b.store.Has v e → e.dirty = false

theorem Clean.homeValid {v : Var} {e : Entry Mem} {r : Reg} (clean : Clean b)
    (known : b.store.Has v e) (homed : e.home.isSome = true) (listed : r ∈ e.regs) :
    e.homeValid = true := by
  have filled : e.regs.isEmpty = false := KeySet.isEmpty_eq_false_iff.mpr ⟨r, listed⟩
  simpa [Entry.dirty, homed, filled] using clean v e known

theorem Move.clean (move : Move site limits a is b) (sound : a.store.Sound) (clean : Clean a) :
    Clean b := by
  intro v f known
  rcases move.entry_before sound known.1 with ⟨e, before, change⟩ | ⟨_, _, _, valid, _⟩
  · exact change.clean (clean v e ⟨before, change.known known.2⟩)
  · simp [Entry.dirty, valid]

theorem Moves.clean (moves : Moves site limits a is b) (sound : a.store.Sound) (clean : Clean a) :
    Clean b := by
  induction moves with
  | refl => exact clean
  | step before move ih => exact move.clean (before.sound sound) ih

/-! No variable is in two registers, and none is lost -/

/-- Every variable is in one register at most. -/
def Alone (s : Store Mem) : Prop :=
  ∀ v e q r, s.get? v = some e → q ∈ e.regs → r ∈ e.regs → q = r

/-- Every variable but the one of the name has a valid copy. -/
def Kept (s : Store Mem) (lost : Option String) : Prop :=
  ∀ v e, s.Has v e → lost ≠ some e.name → e.homeValid = true ∨ ∃ r, r ∈ e.regs

theorem Change.regs {e f : Entry Mem} (change : Change limits e f) :
    (∀ r, r ∈ f.regs → r ∈ e.regs) ∨ ∃ r, (∀ q, q ∉ e.regs) ∧ ∀ q, q ∈ f.regs ↔ q = r := by
  cases change with
  | same => exact .inl fun _ member => member
  | stored => exact .inl fun _ member => member
  | left =>
    exact .inl fun r member => (Entry.mem_without.mp member).1
  | @loaded r nowhere =>
    refine .inr ⟨r, nowhere, fun q => ?_⟩
    simp [nowhere q]
  | evicted => exact .inl fun r member => (KeySet.mem_erase.mp member).1

theorem Change.kept {e f : Entry Mem} (change : Change limits e f)
    (known : f.forgotten = false) (wanted : limits.lost ≠ some e.name)
    (copy : e.homeValid = true ∨ ∃ r, r ∈ e.regs) : f.homeValid = true ∨ ∃ r, r ∈ f.regs := by
  cases change with
  | same => exact copy
  | stored home listed => exact .inr ⟨_, listed⟩
  | @left r listed free beside =>
    cases place : e.home with
    | some home =>
      rw [Entry.homeValid_without]
      rcases Entry.hasCopyBeside_iff.mp (beside (by simp [place]) wanted) with valid | ⟨q, inside⟩
      · exact .inl valid
      · exact .inr ⟨q, Entry.mem_without.mpr (KeySet.mem_erase.mp inside)⟩
    | none =>
      have attached : ¬ ∀ q, q ∈ e.regs → q = r := fun last => by
        simp [Entry.forgotten_without.mpr (.inr ⟨place, last⟩)] at known
      obtain ⟨q, inside, other⟩ : ∃ q, q ∈ e.regs ∧ q ≠ r := by simpa using attached
      exact .inr ⟨q, Entry.mem_without.mpr ⟨inside, other⟩⟩
  | @loaded r => exact .inr ⟨r, by simp⟩
  | evicted valid => exact .inl valid

theorem Move.alone (move : Move site limits a is b) (sound : a.store.Sound)
    (alone : Alone a.store) : Alone b.store := by
  intro v f q r after left right
  rcases move.entry_before sound after with ⟨e, before, change⟩ | ⟨_, _, _, _, none, _⟩
  · rcases change.regs with fewer | ⟨p, _, only⟩
    · exact alone v e q r before (fewer q left) (fewer r right)
    · rw [(only q).mp left, (only r).mp right]
  · exact absurd left (none q)

theorem Move.kept (move : Move site limits a is b) (sound : a.store.Sound)
    (kept : Kept a.store limits.lost) : Kept b.store limits.lost := by
  intro v f after wanted
  rcases move.entry_before sound after.1 with ⟨e, before, change⟩ | ⟨_, _, _, valid, _⟩
  · rw [change.name] at wanted
    exact change.kept after.2 wanted (kept v e ⟨before, change.known after.2⟩ wanted)
  · exact .inl valid

theorem Moves.alone (moves : Moves site limits a is b) (sound : a.store.Sound)
    (alone : Alone a.store) : Alone b.store := by
  induction moves with
  | refl => exact alone
  | step before move ih => exact move.alone (before.sound sound) ih

theorem Moves.kept (moves : Moves site limits a is b) (sound : a.store.Sound)
    (kept : Kept a.store limits.lost) : Kept b.store limits.lost := by
  induction moves with
  | refl => exact kept
  | step before move ih => exact move.kept (before.sound sound) ih

/-- What is true of the descriptors between two instructions. -/
structure Consistent (s : Store Mem) : Prop where
  sound : s.Sound
  alone : Alone s
  kept : Kept s none

theorem Moves.consistent (moves : Moves site limits a is b) (lost : limits.lost = none)
    (consistent : Consistent a.store) : Consistent b.store :=
  ⟨moves.sound consistent.sound, moves.alone consistent.sound consistent.alone,
    lost ▸ moves.kept consistent.sound (lost ▸ consistent.kept)⟩

end ThreeAddress.Codegen
