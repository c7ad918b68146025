import ThreeAddress.Proofs.Pressure

/-! When the operands of an instruction get into registers. Temporaries are in registers only, so that no
register is left if and only if each of them is in use or holds a temporary that is wanted, and an operand
is unknown if and only if it is a temporary in no register. -/
namespace ThreeAddress.Codegen

open Asm (Line Mem)
open Descriptor (Store Var Entry)

variable {site : Site} {b c : Body} {name : String} {needs : Needs} {r : Reg}

/-! Temporaries in registers -/

/-- The name is neither a declared scalar nor a global one. -/
def Temporary (table : Scope) (b : Body) (name : String) : Prop :=
  placeOf table b.function name = .temporary name

/-- The instruction does not overwrite the variable, and it or the code behind it reads it. -/
def Wanted (later : String → Bool) (needs : Needs) (name : String) : Prop :=
  needs.overwrites name = false ∧ (needs.other = some name ∨ later name = true)

theorem entryCost_eq_none {later : String → Bool} {e : Entry Mem} : entryCost later needs r e = none ↔
    Wanted later needs e.name ∧ e.hasCopyBeside r = false ∧ e.home = none := by
  unfold entryCost Wanted
  cases e.home <;> grind

/-- Where no temporary owns a spare word, a variable has a home if and only if it is no temporary. -/
theorem Housed.home_isSome {table : Scope} {v : Var} {e : Entry Mem} (housed : Housed table b)
    (unowned : b.spare.owners = []) (known : b.store.Has v e) :
    e.home.isSome = true ↔ ¬ Temporary table b e.name := by
  constructor
  · intro homed temporary
    obtain ⟨home, place⟩ := Option.isSome_iff_exists.mp homed
    obtain ⟨slot, has, _⟩ := housed.home v e home known place
    cases has with
    | declared other => rw [Temporary, other] at temporary; cases temporary
    | global other => rw [Temporary, other] at temporary; cases temporary
    | spare _ owner => rw [unowned] at owner; cases owner
  · intro other
    cases home : e.home with
    | some _ => rfl
    | none => exact absurd (housed.homeless v e known home) other

theorem Housed.homeless_of_temporary {table : Scope} {v : Var} {e : Entry Mem} (housed : Housed table b)
    (unowned : b.spare.owners = []) (known : b.store.Has v e) (temporary : Temporary table b e.name) :
    e.home = none := by
  cases home : e.home with
  | none => rfl
  | some h => exact absurd temporary ((housed.home_isSome unowned known).mp (by simp [home]))

/-- The generator in a procedure that has called nothing. Each variable but the one of the name has a valid
copy. -/
structure Calm (table : Scope) (lost : Option String) (b : Body) : Prop where
  sound : b.store.Sound
  alone : Alone b.store
  kept : Kept b.store lost
  housed : Housed table b
  unowned : b.spare.owners = []

/-- The registers that the instruction uses hold the variables of the names. -/
structure Locks (locked : String → Prop) (b : Body) : Prop where
  reserved : ∀ r ∈ b.reserved, ∃ n, locked n ∧ Resides b r n
  locked : ∀ n, locked n → ∃ r ∈ b.reserved, Resides b r n

namespace Calm

variable {locked : String → Prop} {lost : Option String}

theorem weaken {table : Scope} {outer : Option String} (calm : Calm table lost b)
    (before : lost = none ∨ lost = outer) : Calm table outer b := by
  refine ⟨calm.sound, calm.alone, ?_, calm.housed, calm.unowned⟩
  rcases before with rfl | rfl
  · exact fun v e known _ => calm.kept v e known (by simp)
  · exact calm.kept

theorem moves {limits : Limits} {is : List Asm.Instr} {outer : Option String}
    (calm : Calm site.table lost b) (moves : Moves site limits b is c) (before : lost = none ∨ lost = outer)
    (during : limits.lost = none ∨ limits.lost = outer) : Calm site.table outer c where
  sound := moves.sound calm.sound
  alone := moves.alone calm.sound calm.alone
  kept := by
    have wider : Moves site { limits with lost := outer } b is c :=
      moves.mono ⟨fun _ => id, during, fun _ => id, Nat.le_refl _⟩
    exact wider.kept calm.sound (calm.weaken before).kept
  housed := moves.housed calm.sound calm.housed
  unowned := moves.sameProcedure.spare ▸ calm.unowned

theorem resides_unique {table : Scope} (calm : Calm table lost b) {q p : Reg} {n : String}
    (left : Resides b q n) (right : Resides b p n) : q = p := by
  obtain ⟨v, e, entry, listed, rfl⟩ := left
  obtain ⟨w, f, entry', listed', same⟩ := right
  have known := calm.sound.known_of_reg entry listed
  obtain rfl := calm.sound.unique v w e f known (calm.sound.known_of_reg entry' listed') same.symm
  cases Option.some.inj (entry.symm.trans entry')
  exact calm.alone v e q p entry listed listed'

/-- Losing the variable in a register means losing a temporary that is wanted. -/
theorem loses_iff (calm : Calm site.table lost b) : Loses site needs b r ↔
    ∃ n, Resides b r n ∧ Temporary site.table b n ∧ Wanted (laterUse site b) needs n := by
  constructor
  · rintro ⟨v, e, held, entry, price⟩
    obtain ⟨wanted, _, homeless⟩ := entryCost_eq_none.mp price
    obtain ⟨f, known, listed⟩ := calm.sound.known_of_held held
    cases Option.some.inj (entry.symm.trans known.1)
    exact ⟨e.name, ⟨v, e, entry, listed, rfl⟩, calm.housed.homeless v e known homeless, wanted⟩
  · rintro ⟨_, ⟨v, e, entry, listed, rfl⟩, temporary, wanted⟩
    have known := calm.sound.known_of_reg entry listed
    have homeless := calm.housed.homeless_of_temporary calm.unowned known temporary
    have nowhere : e.hasCopyBeside r = false := by
      apply Bool.eq_false_iff.mpr
      intro beside
      rcases Entry.hasCopyBeside_iff.mp beside with valid | ⟨q, inside⟩
      · simpa [homeless] using calm.sound.housed v e entry valid
      · obtain ⟨inside, other⟩ := KeySet.mem_erase.mp inside
        exact other (calm.alone v e q r entry inside listed)
    refine ⟨v, e, (calm.sound.listed r v).mpr ⟨e, entry, listed⟩, entry, ?_⟩
    exact entryCost_eq_none.mpr ⟨wanted, nowhere, homeless⟩

theorem barred_iff (calm : Calm site.table lost b) (locks : Locks locked b) : Barred site needs b r ↔
    ∃ n, Resides b r n ∧ (locked n ∨ Temporary site.table b n ∧ Wanted (laterUse site b) needs n) := by
  constructor
  · rintro (used | loses)
    · obtain ⟨n, isLocked, resides⟩ := locks.reserved r used
      exact ⟨n, resides, .inl isLocked⟩
    · obtain ⟨n, resides, lost⟩ := calm.loses_iff.mp loses
      exact ⟨n, resides, .inr lost⟩
  · rintro ⟨n, resides, isLocked | lost⟩
    · obtain ⟨q, used, other⟩ := locks.locked n isLocked
      exact .inl (calm.resides_unique resides other ▸ used)
    · exact .inr (calm.loses_iff.mpr ⟨n, resides, lost⟩)

end Calm

/-! Loading a variable -/

/-- The variable is in memory or in a register. -/
def Available (table : Scope) (b : Body) (name : String) : Prop := ¬ Temporary table b name ∨ b.Bears name

/-- The register that was taken for the name holds its variable. -/
structure Loaded (site : Site) (needs : Needs) (name : String) (b : Body) (r : Reg) (c : Body) : Prop
    extends Takes site needs b r c where
  resides : Resides c r name
  fewer : ∀ q n, Resides c q n → Resides b q n ∨ n = name

/-- A variable is valid in its home behind some moves unless it was not before. -/
theorem Moves.homeValid {limits : Limits} {is : List Asm.Instr} {v : Var} {f : Entry Mem}
    (moves : Moves site limits b is c) (sound : b.store.Sound) (known : c.store.Has v f) :
    f.homeValid = true ∨ ∃ e, b.store.Has v e ∧ e.name = f.name ∧ e.homeValid = false := by
  induction moves generalizing f with
  | refl =>
    cases valid : f.homeValid with
    | true => exact .inl rfl
    | false => exact .inr ⟨f, known, rfl, valid⟩
  | step first move ih =>
    rcases move.entry_before (first.sound sound) known.1 with ⟨e, entry, change⟩ | ⟨_, _, _, valid, _⟩
    · rcases ih ⟨entry, change.known known.2⟩ with valid | ⟨g, before, named, stale⟩
      · rcases change.homeValid valid with valid | forgotten
        · exact .inl valid
        · rw [known.2] at forgotten
          cases forgotten
      · exact .inr ⟨g, before, named.trans change.name.symm, stale⟩
    · exact .inl valid

section Sought

variable {limits : Limits} {lost : Option String} {is : List Asm.Instr} {v : Var} {e : Entry Mem}

/-- A variable that is in no register is in its home. -/
theorem Calm.homeValid (calm : Calm site.table lost b) (moves : Moves site limits b is c)
    (known : c.store.Has v e) (present : lost ≠ some e.name) (absent : ¬ b.Bears e.name) :
    e.homeValid = true := by
  rcases moves.homeValid calm.sound known with valid | ⟨f, before, named, stale⟩
  · exact valid
  · rcases calm.kept v f before (named ▸ present) with valid | ⟨q, listed⟩
    · rw [stale] at valid
      cases valid
    · exact absurd ⟨q, v, f, before.1, listed, named⟩ absent

theorem Calm.temporary_of_unknown (calm : Calm site.table lost b) (moves : Moves site limits b is c)
    (unknown : c.store.lookup name = none)
    (absent : ∀ x, site.table.lookup name = some x → x.isScalar = false) : Temporary site.table b name := by
  have temporary := (moves.housed calm.sound calm.housed).temporary_of_unknown unknown absent
  rwa [moves.sameProcedure.function] at temporary

theorem Calm.available_of_home (calm : Calm site.table lost b) (moves : Moves site limits b is c)
    (known : c.store.Has v e) (homed : e.home.isSome = true) : Available site.table b e.name := by
  refine .inl fun temporary => ?_
  rw [Temporary, ← moves.sameProcedure.function] at temporary
  have unowned : c.spare.owners = [] := moves.sameProcedure.spare ▸ calm.unowned
  exact (moves.housed calm.sound calm.housed).home_isSome unowned known |>.mp homed temporary

end Sought

theorem Resides.listed {v : Var} {e : Entry Mem} (resides : Resides b r e.name) (sound : b.store.Sound)
    (known : b.store.Has v e) : r ∈ e.regs := by
  obtain ⟨w, f, entry, listed, named⟩ := resides
  obtain rfl := sound.unique w v f e (sound.known_of_reg entry listed) known named
  cases Option.some.inj (entry.symm.trans known.1)
  exact listed

/-- Putting a variable into an empty register puts nothing else into one. -/
theorem resides_bind {o : Output} {v : Var} {e : Entry Mem} (empty : ∀ w, w ∉ b.store.held r)
    (entry : b.store.get? v = some e) :
    Resides { b with out := o, store := b.store.bind r v } r e.name ∧
      ∀ q n, Resides { b with out := o, store := b.store.bind r v } q n → Resides b q n ∨ n = e.name := by
  have bound := Store.get?_bind (s := b.store) (r := r) (v := v) fun w member => absurd member (empty w)
  constructor
  · refine ⟨v, { e with regs := e.regs.insert r }, ?_, by simp, rfl⟩
    rw [bound, if_pos rfl, entry]
    rfl
  · rintro q n ⟨w, f, found, listed, rfl⟩
    rw [bound] at found
    by_cases same : w = v
    · rw [if_pos same, entry] at found
      cases Option.some.inj found
      exact .inr rfl
    · rw [if_neg same] at found
      exact .inl ⟨w, f, found, listed, rfl⟩

/-- The variable is loaded from its home into the register that was taken, which is empty. -/
theorem Takes.load {v : Var} {e : Entry Mem} {home : Mem} (takes : Takes site needs b r c)
    (sound : c.store.Sound) (fewer : ∀ q n, Resides c q n → Resides b q n) (known : c.store.Has v e)
    (valid : e.homeValid = true) (place : e.home = some home) (unlisted : ∀ q, q ∉ e.regs)
    (empty : ∀ w, w ∉ c.store.held r) (usable : c.store.isUsable r = true) :
    Loaded site needs e.name b r
      { c with out := c.out.append (loadInstrs site.options (.pool r) home), store := c.store.bind r v } := by
  obtain ⟨is, moves⟩ := takes.moves
  have load : Move site ⟨Reg.all.filter (· ≠ r), needs.lost?, [], 0⟩ c _ _ :=
    .load (by simp) known valid place unlisted empty usable
  obtain ⟨there, only⟩ :=
    resides_bind (o := c.out.append (loadInstrs site.options (.pool r) home)) empty known.1
  refine ⟨⟨⟨_, moves.trans (.one load)⟩, takes.reserved, fun barred n before => ?_⟩, there, ?_⟩
  · obtain ⟨w, f, entry, listed, _⟩ := takes.keeps barred n before
    exact absurd ((sound.listed r w).mpr ⟨f, entry, listed⟩) (empty w)
  · exact fun q n resides => (only q n resides).imp_left (fewer q n)

/-- What is known of a variable in memory or in a register can be loaded into a register taken for it. -/
theorem ensureLoaded_verdict {lost : Option String} (strict : site.options.strict = true)
    (calm : Calm site.table lost b) (present : lost ≠ some name) (acquired : Acquired site needs name b r c) :
    Verdict False (Available site.table b name) (fun _ d => Loaded site needs name b r d)
      (ensureLoaded site name r c) := by
  obtain ⟨is, moves⟩ := acquired.moves
  have sound := moves.sound calm.sound
  obtain ⟨o, d, ran⟩ := resolve?_runs site name c
  obtain ⟨moves', found, reserved, held, absent⟩ : Moves site .still c [] d ∧ _ := resolve?_moves sound ran
  have moves' : Moves site ⟨Reg.all.filter (· ≠ r), needs.lost?, [], 0⟩ c [] d :=
    moves'.mono ⟨fun q _ => mem_regs_all q, .inl rfl, by simp [Limits.still], Nat.le_refl _⟩
  have same (q : Reg) (n : String) : Resides d q n ↔ Resides c q n := moves'.resides_iff sound (held q)
  have fewer (q : Reg) (n : String) (there : Resides d q n) : Resides b q n :=
    acquired.fewer q n ((same q n).mp there)
  have sound' := moves'.sound sound
  have moves := moves.trans moves'
  have takes : Takes site needs b r d := by
    refine ⟨⟨_, moves⟩, reserved.trans acquired.reserved, fun barred n there => ?_⟩
    exact (same r n).mpr (acquired.keeps barred n there)
  -- A name that was in some register is in the register that was taken.
  have taken (bears : b.Bears name) : Resides d r name := by
    rcases acquired.place with ⟨_, there⟩ | ⟨nowhere, _⟩
    · exact (same r name).mpr there
    · exact absurd bears nowhere
  cases o with
  | none =>
    have ensures : ensureLoaded site name r c = _ := bind_of_ok ran
    rw [ensures]
    simp only [unresolved, strict, if_true]
    refine .unknown id (fun known => ?_) rfl rfl
    rcases known with homed | bears
    · exact homed (calm.temporary_of_unknown moves found (absent rfl))
    · simpa [found] using (taken bears).lookup sound'
  | some v =>
    obtain ⟨e, known, rfl⟩ := Store.lookup_spec found
    have ensures : ensureLoaded site e.name r c = _ :=
      (bind_of_ok ran).trans (bind_of_ok (entryOf_ok.mpr ⟨known.1, rfl⟩))
    rw [ensures]
    by_cases inside : r ∈ e.regs
    · rw [if_pos (KeySet.contains_iff.mpr inside)]
      have resides : Resides d r e.name := ⟨v, e, known.1, inside, rfl⟩
      exact .success id (.inr ⟨r, fewer r e.name resides⟩)
        ⟨takes, resides, fun q n there => .inl (fewer q n there)⟩
    rw [if_neg (by simpa using inside)]
    have nowhere (q : Reg) : ¬ Resides d q e.name := fun there =>
      inside ((taken ⟨q, fewer q e.name there⟩).listed sound' known)
    have unlisted : ∀ q, q ∉ e.regs := fun q listed => nowhere q ⟨v, e, known.1, listed, rfl⟩
    have first : e.register? = none := KeySet.first?_eq_none_iff.mpr unlisted
    have valid := calm.homeValid moves known present fun bears => nowhere r (taken bears)
    have homed := sound'.housed v e known.1 valid
    obtain ⟨home, place⟩ := Option.isSome_iff_exists.mp homed
    have empty (w : Var) : w ∉ d.store.held r := by
      rcases acquired.place with ⟨_, there⟩ | ⟨_, empty⟩
      · exact absurd ((same r e.name).mpr there) (nowhere r)
      · exact held r ▸ empty w
    have usable := (moves'.isUsable sound r).trans acquired.usable
    have ran : (do emitAll (loadInstrs site.options (.pool r) home); modifyStore (·.bind r v) : Step Unit) d =
        .ok ((), _) := bind_ok.mpr ⟨(), _, emitAll_ok.mpr rfl, rfl⟩
    simp only [first, valid, if_true, place]
    rw [ran]
    exact .success id (calm.available_of_home moves known homed)
      (takes.load sound' fewer known valid place unlisted empty usable)

theorem loaded_verdict {lost : Option String} (strict : site.options.strict = true)
    (calm : Calm site.table lost b) (present : lost ≠ some name) :
    Verdict (Full site name needs b) (Available site.table b name) (Loaded site needs name b)
      (loaded site name needs b) := by
  have verdict := (acquire_verdict site calm.sound name needs).bind
    (f := fun r => do ensureLoaded site name r; pure r) fun r c acquired =>
      (ensureLoaded_verdict strict calm present acquired).bind (f := fun _ => pure r) fun _ d loaded =>
        (.success id trivial loaded : Verdict False True (Loaded site needs name b) (.ok (r, d)))
  rwa [true_and, and_true] at verdict

/-- Where the value of an operand is: that of a variable is in a register. -/
inductive Fetched (site : Site) (needs : Needs) (b : Body) : Operand → MachineReg → Body → Prop
  | literal (n : Int) (y : MachineReg) (is : List Asm.Instr) :
      Fetched site needs b (.literal n) y { b with out := b.out.append is }
  | variable {name : String} {r : Reg} {c : Body} :
      Loaded site needs name b r c → Fetched site needs b (.variable name) (.pool r) c

theorem operand_verdict {lost : Option String} {x : Operand} {scratch : MachineReg}
    (strict : site.options.strict = true) (calm : Calm site.table lost b)
    (present : ∀ name, x.name? = some name → lost ≠ some name) :
    Verdict (∃ name, x.name? = some name ∧ Full site name needs b)
      (∀ name, x.name? = some name → Available site.table b name)
      (fun y c => Fetched site needs b x y c) (operand site x needs scratch b) := by
  cases x with
  | literal n =>
    by_cases zero : n = 0
    · have ran : operand site (.literal n) needs scratch b = .ok (.zero, b) := by
        simp only [operand, if_pos zero]
        rfl
      rw [ran]
      exact .success (by simp [Operand.name?]) (by simp [Operand.name?]) (.literal n .zero [])
    · have ran : operand site (.literal n) needs scratch b =
          .ok (scratch, { b with out := b.out.append (immediateInstrs scratch n) }) := by
        simp only [operand, if_neg zero]
        exact bind_ok.mpr ⟨(), _, emitAll_ok.mpr rfl, rfl⟩
      rw [ran]
      exact .success (by simp [Operand.name?]) (by simp [Operand.name?]) (.literal n scratch _)
  | «variable» name =>
    have loads : Verdict _ _ (Loaded site needs name b) _ := loaded_verdict strict calm (present name rfl)
    have verdict := loads.bind (f := fun r => (pure (.pool r) : Step MachineReg)) fun r d loaded =>
        (.success id trivial (.variable loaded) :
          Verdict False True (fun y c => Fetched site needs b (.variable name) y c) (.ok (.pool r, d)))
    change Verdict _ _ _ (operand site (.variable name) needs scratch b) at verdict
    simpa [Operand.name?] using verdict

theorem copyTo_verdict {lost : Option String} {x : Operand} {i : Fin 8}
    (strict : site.options.strict = true) (calm : Calm site.table lost b)
    (present : ∀ name, x.name? = some name → lost ≠ some name) :
    Verdict False (∀ name, x.name? = some name → Available site.table b name)
      (fun _ c => ∃ is, Moves site ⟨Reg.all, none, [i], 0⟩ b is c) (copyTo site (.arg i) x b) := by
  have moves {d : Body} (ran : copyTo site (.arg i) x b = .ok ((), d)) :
      ∃ is, Moves site ⟨Reg.all, none, [i], 0⟩ b is d := by
    obtain ⟨⟨is, copied⟩, _⟩ := copyTo_copied calm.sound ran
    exact ⟨is, copied.moves⟩
  cases x with
  | literal n =>
    have ran : copyTo site (.arg i) (.literal n) b = .ok ((), _) := emitAll_ok.mpr rfl
    have moves := moves ran
    rw [ran]
    exact .success id (by simp [Operand.name?]) moves
  | «variable» name =>
    obtain ⟨o, d, resolved⟩ := resolve?_runs site name b
    obtain ⟨steps, found, reserved, held, absent⟩ : Moves site .still b [] d ∧ _ :=
      resolve?_moves calm.sound resolved
    have sound := steps.sound calm.sound
    have resides (q : Reg) (n : String) : Resides d q n ↔ Resides b q n := steps.resides_iff calm.sound (held q)
    cases o with
    | none =>
      have copies : copyTo site (.arg i) (.variable name) b = _ := bind_of_ok resolved
      rw [copies]
      simp only [unresolved, strict, if_true]
      refine .unknown id (fun known => ?_) rfl rfl
      rcases known name rfl with homed | ⟨q, there⟩
      · exact homed (calm.temporary_of_unknown steps found (absent rfl))
      · simpa [found] using ((resides q name).mpr there).lookup sound
    | some v =>
      obtain ⟨e, known, rfl⟩ := Store.lookup_spec found
      have copies : copyTo site (.arg i) (.variable e.name) b = _ :=
        (bind_of_ok resolved).trans (bind_of_ok (entryOf_ok.mpr ⟨known.1, rfl⟩))
      cases first : e.register? with
      | some q =>
        have listed := KeySet.mem_of_first? first
        obtain ⟨c, ran⟩ : ∃ c, copyTo site (.arg i) (.variable e.name) b = .ok ((), c) := by
          rw [copies, first]
          exact ⟨_, emitInstr_ok.mpr rfl⟩
        have moves := moves ran
        rw [ran]
        refine .success id ?_ moves
        rintro _ ⟨⟩
        exact .inr ⟨q, (resides q e.name).mp ⟨v, e, known.1, listed, rfl⟩⟩
      | none =>
        have unlisted := KeySet.first?_eq_none_iff.mp first
        have nowhere : ¬ b.Bears e.name := fun bears => by
          obtain ⟨q, there⟩ := bears
          exact unlisted q (((resides q e.name).mpr there).listed sound known)
        have valid := calm.homeValid steps known (present _ rfl) nowhere
        have homed := sound.housed v e known.1 valid
        obtain ⟨home, place⟩ := Option.isSome_iff_exists.mp homed
        obtain ⟨c, ran⟩ : ∃ c, copyTo site (.arg i) (.variable e.name) b = .ok ((), c) := by
          rw [copies, first]
          simp only [valid, if_true, place]
          exact ⟨_, emitAll_ok.mpr rfl⟩
        have moves := moves ran
        rw [ran]
        refine .success id ?_ moves
        rintro _ ⟨⟩
        exact calm.available_of_home steps known homed

/-! What stays in registers -/

/-- The procedure, its waiting arguments and its registers are the same. -/
structure Abides (b c : Body) : Prop where
  function : c.function = b.function
  pending : c.pending = b.pending
  usable : ∀ r, c.store.isUsable r = b.store.isUsable r

theorem Abides.symm (abides : Abides b c) : Abides c b :=
  ⟨abides.function.symm, abides.pending.symm, fun r => (abides.usable r).symm⟩

theorem Abides.trans {d : Body} (first : Abides b c) (second : Abides c d) : Abides b d :=
  ⟨second.function.trans first.function, second.pending.trans first.pending,
    fun r => (second.usable r).trans (first.usable r)⟩

theorem Abides.laterUse_eq (abides : Abides b c) (site : Site) : laterUse site c = laterUse site b := by
  funext n
  rw [laterUse, laterUse, abides.pending]

theorem Abides.temporary_iff (abides : Abides b c) (table : Scope) (n : String) :
    Temporary table c n ↔ Temporary table b n := by
  rw [Temporary, Temporary, abides.function]

theorem Moves.abides {limits : Limits} {is : List Asm.Instr} (moves : Moves site limits b is c)
    (sound : b.store.Sound) : Abides b c :=
  ⟨moves.sameProcedure.function, moves.sameProcedure.pending, moves.isUsable sound⟩

theorem Moves.resides_locked {limits : Limits} {is : List Asm.Instr} {n : String}
    (moves : Moves site limits b is c) (sound : b.store.Sound) (lock : r ∈ limits.locked)
    (resides : Resides b r n) : Resides c r n := by
  obtain ⟨v, e, entry, listed, rfl⟩ := resides
  obtain ⟨f, known, named, _, listed⟩ :=
    moves.stays_locked sound (sound.known_of_reg entry listed) lock listed
  exact ⟨v, f, known.1, listed, named⟩

section Stay

variable {lost outer : Option String} {n : String} {x : Operand} {y : MachineReg}

theorem Takes.stays {q : Reg} (takes : Takes site needs b r c) (sound : b.store.Sound)
    (barred : Barred site needs b q) (resides : Resides b q n) : Resides c q n := by
  by_cases same : q = r
  · subst same
    exact takes.keeps barred n resides
  · obtain ⟨is, moves⟩ := takes.moves
    exact moves.resides_locked sound (by simp [mem_regs_all, same]) resides

theorem Takes.calm (takes : Takes site needs b r c) (calm : Calm site.table lost b)
    (before : lost = none ∨ lost = outer) (during : needs.lost? = none ∨ needs.lost? = outer) :
    Calm site.table outer c := by
  obtain ⟨is, moves⟩ := takes.moves
  exact calm.moves moves before during

theorem Takes.abides (takes : Takes site needs b r c) (sound : b.store.Sound) : Abides b c := by
  obtain ⟨is, moves⟩ := takes.moves
  exact moves.abides sound

/-- A temporary that is wanted stays in its register. -/
theorem Takes.bears (takes : Takes site needs b r c) (calm : Calm site.table lost b)
    (temporary : Temporary site.table b n) (wanted : Wanted (laterUse site b) needs n) (bears : b.Bears n) :
    c.Bears n := by
  obtain ⟨q, resides⟩ := bears
  exact ⟨q, takes.stays calm.sound (.inr (calm.loses_iff.mpr ⟨n, resides, temporary, wanted⟩)) resides⟩

theorem Acquired.bears_iff (acquired : Acquired site needs name b r c) (calm : Calm site.table lost b)
    (temporary : Temporary site.table b n) (wanted : Wanted (laterUse site b) needs n) :
    c.Bears n ↔ b.Bears n := by
  refine ⟨fun bears => ?_, acquired.bears calm temporary wanted⟩
  obtain ⟨q, resides⟩ := bears
  exact ⟨q, acquired.fewer q n resides⟩

/-- A register taken for a name can be written for it. -/
theorem Acquired.ready (acquired : Acquired site needs name b r c) (sound : b.store.Sound) : Ready c r name := by
  obtain ⟨is, moves⟩ := acquired.moves
  refine ⟨by simp [acquired.reserved], acquired.usable, ?_⟩
  rcases acquired.place with ⟨_, resides⟩ | ⟨_, empty⟩
  · exact resides.owned (moves.sound sound)
  · exact fun v e held => absurd held (empty v)

theorem Resides.ready (resides : Resides b r name) (sound : b.store.Sound) (reserved : r ∈ b.reserved) :
    Ready b r name := by
  refine ⟨reserved, ?_, resides.owned sound⟩
  obtain ⟨v, e, entry, listed, _⟩ := resides
  exact sound.usable r v ((sound.listed r v).mpr ⟨e, entry, listed⟩)

theorem Calm.emits {table : Scope} (calm : Calm table lost b) (out : Output) :
    Calm table lost { b with out := out } :=
  ⟨calm.sound, calm.alone, calm.kept, calm.housed, calm.unowned⟩

namespace Fetched

theorem calm (fetched : Fetched site needs b x y c) (calm : Calm site.table lost b)
    (before : lost = none ∨ lost = outer) (during : needs.lost? = none ∨ needs.lost? = outer) :
    Calm site.table outer c := by
  cases fetched with
  | literal => exact (calm.weaken before).emits _
  | «variable» loaded => exact loaded.calm calm before during

theorem sound (fetched : Fetched site needs b x y c) (sound : b.store.Sound) : c.store.Sound := by
  cases fetched with
  | literal => exact sound
  | «variable» loaded =>
    obtain ⟨is, moves⟩ := loaded.moves
    exact moves.sound sound

theorem abides (fetched : Fetched site needs b x y c) (sound : b.store.Sound) : Abides b c := by
  cases fetched with
  | literal => exact ⟨rfl, rfl, fun _ => rfl⟩
  | «variable» loaded => exact loaded.toTakes.abides sound

/-- What the instruction uses already stays where it is. -/
theorem holds (fetched : Fetched site needs b x y c) (sound : b.store.Sound) (reserved : r ∈ b.reserved)
    (resides : Resides b r n) : r ∈ c.reserved ∧ Resides c r n := by
  cases fetched with
  | literal => exact ⟨reserved, resides⟩
  | «variable» loaded =>
    refine ⟨?_, loaded.stays sound (.inl reserved) resides⟩
    rw [loaded.reserved]
    exact List.mem_cons_of_mem _ reserved

theorem locks {locked : String → Prop} (fetched : Fetched site needs b x y c) (sound : b.store.Sound)
    (locks : Locks locked b) : Locks (fun n => locked n ∨ x.name? = some n) c := by
  cases fetched with
  | literal =>
    refine ⟨fun q used => ?_, fun m isLocked => ?_⟩
    · obtain ⟨m, isLocked, resides⟩ := locks.reserved q used
      exact ⟨m, .inl isLocked, resides⟩
    · rcases isLocked with isLocked | other
      · exact locks.locked m isLocked
      · cases other
  | @«variable» name p c loaded =>
    refine ⟨fun q used => ?_, fun m isLocked => ?_⟩
    · rw [loaded.reserved] at used
      rcases List.mem_cons.mp used with rfl | used
      · exact ⟨name, .inr rfl, loaded.resides⟩
      · obtain ⟨m, isLocked, resides⟩ := locks.reserved q used
        exact ⟨m, .inl isLocked, loaded.stays sound (.inl used) resides⟩
    · rw [loaded.reserved]
      rcases isLocked with isLocked | same
      · obtain ⟨q, used, resides⟩ := locks.locked m isLocked
        exact ⟨q, List.mem_cons_of_mem _ used, loaded.stays sound (.inl used) resides⟩
      · cases Option.some.inj same
        exact ⟨p, List.mem_cons_self, loaded.resides⟩

theorem bears_iff (fetched : Fetched site needs b x y c) (calm : Calm site.table lost b)
    (temporary : Temporary site.table b n) (wanted : Wanted (laterUse site b) needs n)
    (other : x.name? ≠ some n) : c.Bears n ↔ b.Bears n := by
  cases fetched with
  | literal => exact Iff.rfl
  | «variable» loaded =>
    refine ⟨fun bears => ?_, loaded.bears calm temporary wanted⟩
    obtain ⟨q, resides⟩ := bears
    rcases loaded.fewer q n resides with before | rfl
    · exact ⟨q, before⟩
    · exact absurd rfl other

end Fetched

end Stay

/-! Results -/

/-- A name got its value in a register, and the other names stay where they are. -/
structure Finished (table : Scope) (res : String) (b c : Body) : Prop where
  calm : Calm table none c
  abides : Abides b c
  bears : ∀ n, c.Bears n ↔ n = res ∨ b.Bears n

theorem Body.assign_bears {res n : String} (sound : b.store.Sound) (ready : Ready b r res) :
    (b.assign r res).Bears n ↔ n = res ∨ b.Bears n := by
  have sound' := Body.assign_sound sound ready
  constructor
  · rintro ⟨q, v, f, entry, listed, rfl⟩
    rcases Body.assign_has sound ready.owned (sound'.known_of_reg entry listed) with ⟨same, _⟩ | ⟨_, known, _⟩
    · exact .inl same
    · exact .inr ⟨q, v, f, known.1, listed, rfl⟩
  · obtain ⟨v, e, known, named, regs⟩ := Body.assign_result sound ready.owned
    have here : (b.assign r res).Bears res := ⟨r, v, e, known.1, by simp [regs], named⟩
    rintro (rfl | ⟨q, w, f, entry, listed, rfl⟩)
    · exact here
    · by_cases same : f.name = res
      · rw [same]
        exact here
      · obtain ⟨g, after, named, _⟩ := Body.assign_stays sound ready.owned (sound.known_of_reg entry listed)
        rcases Body.assign_has sound ready.owned after with ⟨other, _⟩ | ⟨_, known, _⟩
        · exact absurd (named.symm.trans other) same
        · obtain rfl : f = g := Option.some.inj (entry.symm.trans known.1)
          exact ⟨q, w, f, after.1, listed, rfl⟩

theorem Assigned.finished {res : String} {ks : List Asm.Instr} (assigned : Assigned site res b r ks c)
    (calm : Calm site.table (some res) b) : Finished site.table res b c := by
  have same := assigned.sameProcedure
  refine ⟨⟨assigned.sound calm.sound, assigned.alone calm.sound calm.alone, assigned.kept calm.sound calm.kept,
    assigned.housed calm.sound calm.housed, same.spare ▸ calm.unowned⟩, ⟨same.function, same.pending, ?_⟩, ?_⟩
  all_goals cases assigned with
    | @intro d plain ready moves held ready' unknown => ?_
  · intro q
    have own := ready'.owned.intern (moves.sound calm.sound)
    have committed := Store.isUsable_commit own q
    have moved := moves.isUsable calm.sound q
    rw [Store.isUsable_intern] at committed
    exact committed.trans moved
  · intro n
    rw [Body.assign_bears (moves.sound calm.sound) ready']
    exact or_congr_right (exists_congr fun q => moves.resides_iff calm.sound (held q))

/-- A result in a register that was taken for it. -/
theorem commit_finishes {res : String} {ks : List Asm.Instr} (calm : Calm site.table (some res) b)
    (ready : Ready b r res) (plain : ∀ k ∈ ks, isResult r k = true) :
    ∃ c, (do emitAll ks; commit site r res : Step Unit) b = .ok ((), c) ∧ Finished site.table res b c := by
  obtain ⟨_, c, ran⟩ := commit_runs (b := { b with out := b.out.append ks }) site calm.sound r res
  exact ⟨c, bind_ok.mpr ⟨(), _, emitAll_ok.mpr rfl, ran⟩,
    (commit_assigned calm.sound ready plain ran).finished calm⟩

/-! Flushes -/

/-- A flush leaves no name in a register. -/
theorem flush_clears (site : Site) (sound : b.store.Sound) :
    ∃ c is, flush b = .ok ((), c) ∧ Moves site {} b is c ∧ ∀ n, ¬ c.Bears n := by
  obtain ⟨_, c, ran⟩ := flush_runs b
  obtain ⟨⟨is, moves, _⟩, empty, _⟩ : (∃ is, Moves site {} b is c ∧ _) ∧ _ := flush_moves sound ran
  refine ⟨c, is, ran, moves, fun n bears => ?_⟩
  obtain ⟨q, v, e, entry, listed, _⟩ := bears
  exact empty q v (((moves.sound sound).listed q v).mpr ⟨e, entry, listed⟩)

theorem evictHomed_fewer {q : Reg} {n : String} (ran : evictHomed b = .ok ((), c)) (resides : Resides c q n) :
    Resides b q n := by
  simp only [evictHomed, bind_ok, get_ok] at ran
  obtain ⟨_, _, ⟨rfl, rfl⟩, ran⟩ := ran
  obtain ⟨v, f, entry, listed, rfl⟩ := resides
  rw [evictAll_get? ran] at entry
  split at entry
  · obtain ⟨e, before, rfl⟩ := Option.map_eq_some_iff.mp entry
    unfold evictedEntry at listed ⊢
    split at listed
    · exact absurd listed (KeySet.not_mem_empty q)
    · rename_i homeless
      rw [if_neg homeless]
      exact ⟨v, e, before, listed, rfl⟩
  · exact ⟨v, f, entry, listed, rfl⟩

/-- The flush behind an instruction leaves temporaries where they are. -/
theorem flushBehind_keeps (calm : Calm site.table none b) :
    ∃ c, flushBehind site b = .ok ((), c) ∧ Calm site.table none c ∧ Abides b c ∧
      ∀ n, Temporary site.table b n → (c.Bears n ↔ b.Bears n) := by
  by_cases each : site.options.flushEach = true
  · obtain ⟨_, d, wrote⟩ := writeBack_runs b
    obtain ⟨_, c, evicted⟩ := evictHomed_runs d
    have ran : flushBehind site b = .ok ((), c) := by
      rw [flushBehind, if_pos each]
      exact bind_ok.mpr ⟨(), d, wrote, evicted⟩
    obtain ⟨is, moves⟩ := flushBehind_moves calm.sound ran
    have flushed := flushedEach_of_steps site ⟨calm.sound, calm.alone, calm.kept⟩ wrote evicted
    refine ⟨c, ran, calm.moves moves (.inl rfl) (.inl rfl), moves.abides calm.sound, fun n temporary => ⟨?_, ?_⟩⟩
    · rintro ⟨q, resides⟩
      obtain ⟨v, f, entry, listed, rfl⟩ := evictHomed_fewer evicted resides
      obtain ⟨_, stored, _⟩ : (∃ is, Moves site {} b is d ∧ _) ∧ _ := writeBack_moves wrote
      obtain ⟨e, before, rfl | rfl⟩ := stored.entry v f entry
      · exact ⟨q, v, f, before, listed, rfl⟩
      · exact ⟨q, v, e, before, listed, rfl⟩
    · rintro ⟨q, v, e, entry, listed, rfl⟩
      have known := calm.sound.known_of_reg entry listed
      have homeless := calm.housed.homeless_of_temporary calm.unowned known temporary
      exact ⟨q, v, e, (flushed.kept v e known homeless).1, listed, rfl⟩
  · refine ⟨b, ?_, calm, ⟨rfl, rfl, fun _ => rfl⟩, fun _ _ => Iff.rfl⟩
    rw [flushBehind, if_neg each]
    rfl

end ThreeAddress.Codegen
