import ThreeAddress.Proofs.Agreement

/-! What the instructions of the generator compute: the sequences for operators and immediates give
their values, and operands and results are where the descriptors say. -/
namespace ThreeAddress.Codegen

open Asm (Line Mem)
open Descriptor (Store Var Entry)

/-! Operators and immediates -/

theorem setWidth_mul_signExtend (x y : Word) :
    (x.signExtend 64 * y.signExtend 64).setWidth 32 = x * y := by
  have narrow (z : Word) : (z.signExtend 64).setWidth 32 = z := by
    ext i bound
    have inside : i < 64 := by omega
    simp [BitVec.getElem_signExtend, inside, bound]
  rw [BitVec.setWidth_mul _ _ (by decide), narrow, narrow]

theorem truth_ult_sub (x y : Word) : truth ((0 : Word).ult (x - y)) = truth (x ≠ y) := by
  congr 1
  by_cases same : x = y
  · simp [same]
  · have less : (0 : Word).toNat < (x - y).toNat := by bv_omega
    simpa [BitVec.ult, same] using less

theorem truth_xor_one (p : Bool) : truth p ^^^ (1 : Word) = truth (!p) := by
  cases p <;> rfl

theorem truth_ult_one (x : Word) : truth (x.ult 1) = truth (x = 0) := by
  congr 1
  by_cases zero : x = 0
  · simp [zero]
  · have more : ¬ x.toNat < (1 : Word).toNat := by bv_omega
    rw [decide_eq_false zero]
    exact decide_eq_false more

/-- The instructions of an operator leave its value in the result register. -/
theorem binary_exec {data : Data} {op : BinaryOp} {r : Reg} {y z : MachineReg} {m : Machine} {w : Word}
    (value : op.eval (m.read y) (m.read z) = some w) :
    ∃ m', m.execAll data (binaryInstrs op (.pool r) y z) = some m' ∧ m'.read (.pool r) = w := by
  have zero (m : Machine) : m.read .zero = 0 := rfl
  cases op with
  | mul =>
    cases Option.some.inj value
    exact ⟨_, rfl, by simp [Machine.write, Machine.read, setWidth_mul_signExtend]⟩
  | div | mod =>
    simp only [BinaryOp.eval] at value
    split at value
    · contradiction
    · rename_i nonzero
      cases Option.some.inj value
      have divides : m.exec data (.div y z) = some { m with
          lo := (m.read y).sdiv (m.read z), hi := (m.read y).srem (m.read z) } := if_neg nonzero
      simp only [binaryInstrs, Machine.execAll, divides]
      exact ⟨_, rfl, Machine.read_write_pool ..⟩
  | eq =>
    cases Option.some.inj value
    refine ⟨_, rfl, ?_⟩
    simp only [Machine.read_write_pool, Asm.ImmOp.eval, Asm.AluOp.eval, zero, truth_ult_sub]
    exact (truth_xor_one _).trans (by simp)
  | ne =>
    cases Option.some.inj value
    refine ⟨_, rfl, ?_⟩
    simp only [Machine.read_write_pool, Asm.AluOp.eval, zero, truth_ult_sub]
  | le | ge =>
    cases Option.some.inj value
    refine ⟨_, rfl, ?_⟩
    simp only [Machine.read_write_pool, Asm.ImmOp.eval, Asm.AluOp.eval, BitVec.sle_eq_not_slt]
    exact truth_xor_one _
  | _ =>
    cases Option.some.inj value
    exact ⟨_, rfl, Machine.read_write_pool ..⟩

/-- Without a value the instructions of an operator stop the machine. -/
theorem binary_stops {data : Data} {op : BinaryOp} {r : Reg} {y z : MachineReg} {m : Machine}
    (undefined : op.eval (m.read y) (m.read z) = none) :
    m.execAll data (binaryInstrs op (.pool r) y z) = none := by
  cases op with
  | div | mod =>
    simp only [BinaryOp.eval] at undefined
    split at undefined
    · rename_i zero
      simp [binaryInstrs, Machine.execAll, Machine.exec, zero]
    · contradiction
  | _ => contradiction

theorem unary_exec {data : Data} (op : UnaryOp) (r : Reg) (y : MachineReg) (m : Machine) :
    ∃ m', m.execAll data (unaryInstrs op (.pool r) y) = some m' ∧
      m'.read (.pool r) = op.eval (m.read y) := by
  have zero : m.read .zero = 0 := rfl
  cases op with
  | neg =>
    refine ⟨_, rfl, ?_⟩
    simp [Asm.AluOp.eval, UnaryOp.eval, zero]
  | bitNot =>
    refine ⟨_, rfl, ?_⟩
    simp [Asm.AluOp.eval, UnaryOp.eval]
  | not =>
    refine ⟨_, rfl, ?_⟩
    rw [Machine.read_write_pool]
    exact truth_ult_one _
  | plus =>
    simp only [unaryInstrs]
    split
    · rename_i same
      exact ⟨m, rfl, by rw [same]; rfl⟩
    · exact ⟨_, rfl, Machine.read_write_pool ..⟩

/-- An immediate is the sum of its halves. -/
theorem ofInt_halves (n : Int) :
    BitVec.ofInt 32 (n / 0x10000) <<< (16 : Nat) ||| BitVec.ofInt 32 (n % 0x10000) = BitVec.ofInt 32 n := by
  apply BitVec.eq_of_toNat_eq
  simp only [BitVec.toNat_or, BitVec.toNat_shiftLeft, BitVec.toNat_ofInt]
  have low : (n % 0x10000 % ((2 ^ 32 : Nat) : Int)).toNat < 2 ^ 16 := by omega
  have high : (n / 0x10000 % ((2 ^ 32 : Nat) : Int)).toNat <<< 16 % 2 ^ 32 =
      (n / 0x10000 % 0x10000).toNat <<< 16 := by
    rw [Nat.shiftLeft_eq, Nat.shiftLeft_eq]
    omega
  rw [high, ← Nat.shiftLeft_add_eq_or_of_lt low, Nat.shiftLeft_eq]
  omega

theorem immediate?_of_range {n : Int} (range : -2 ^ 31 ≤ n ∧ n < 2 ^ 31) :
    Machine.immediate? n = some (BitVec.ofInt 32 n) := if_pos range

theorem immediate_exec {data : Data} {dst : MachineReg} {n : Int} (m : Machine)
    (real : dst ≠ .zero) (range : Instr.immediateInRange n = true) :
    ∃ m', m.execAll data (immediateInstrs dst n) = some m' ∧ m'.read dst = BitVec.ofInt 32 n := by
  simp only [Instr.immediateInRange, Bool.and_eq_true, decide_eq_true_eq] at range
  have zero : m.read .zero = 0 := rfl
  unfold immediateInstrs
  split
  · simp only [Machine.execAll, Machine.exec, immediate?_of_range range]
    exact ⟨_, rfl, by simp [Machine.read_write, real, Asm.ImmOp.eval, zero]⟩
  · have upper := immediate?_of_range (n := n / 0x10000) (by omega)
    have lower := immediate?_of_range (n := n % 0x10000) (by omega)
    simp only [Machine.execAll, Machine.exec, upper, lower]
    refine ⟨_, rfl, ?_⟩
    simp only [Machine.read_write, real, ne_eq, not_false_eq_true, and_self, if_true, Asm.ImmOp.eval]
    exact ofInt_halves n

/-! Operands -/

variable {A : Activation} {site : Site} {limits : Limits} {b c : Body} {is : List Asm.Instr}
variable {tracked : Place → Prop} {env : Env} {m m' : Machine}

theorem isEncodable_of_exec {data : Data} {x : Asm.Instr} (ran : m.exec data x = some m') :
    x.isEncodable = true := by
  cases x with
  | aluImm op dst src imm | lui dst imm =>
    obtain ⟨k, read, _⟩ := Option.map_eq_some_iff.mp ran
    simp [Asm.Instr.isEncodable, read]
  | _ => rfl

theorem isEncodable_of_execAll {data : Data} (ran : m.execAll data is = some m') :
    ∀ x ∈ is, x.isEncodable = true := by
  induction is generalizing m with
  | nil => simp
  | cons x is ih =>
    obtain ⟨m₁, first, rest⟩ := Option.bind_eq_some_iff.mp ran
    intro y member
    rcases List.mem_cons.mp member with rfl | member
    · exact isEncodable_of_exec first
    · exact ih rest y member

/-- Moves that were executed keep the machine in agreement. -/
theorem Moves.agrees (moves : Moves site limits b is c) (suits : Suits A site b)
    (slots : limits.outgoing ≤ A.outgoing) (ran : m.execAll A.data is = some m')
    (agrees : Agrees A tracked b.store env m) :
    Agrees A tracked c.store env m' ∧ Untouched A limits m m' := by
  obtain ⟨m'', again, agrees', untouched⟩ :=
    moves.run suits slots (isEncodable_of_execAll ran) agrees
  cases Option.some.inj (ran.symm.trans again)
  exact ⟨agrees', untouched⟩

theorem loadInstrs_isEncodable (options : Options) (dst : MachineReg) (src : Mem) :
    ∀ x ∈ loadInstrs options dst src, x.isEncodable = true := by
  unfold loadInstrs delay
  split <;> simp [Asm.Instr.isEncodable]

/-- Moves that compute nothing have no immediates. -/
theorem Moves.isEncodable (moves : Moves site limits b is c) (none : limits.free = []) :
    ∀ x ∈ is, x.isEncodable = true := by
  induction moves with
  | refl => simp
  | step _ move ih =>
    intro x member
    rcases List.mem_append.mp member with member | member
    · exact ih x member
    · cases move with
      | save | pass =>
        rw [List.mem_singleton.mp member]
        rfl
      | load => exact loadInstrs_isEncodable _ _ _ x member
      | scratch plain =>
        have scratch := plain x member
        rw [none] at scratch
        unfold isScratch at scratch
        split at scratch
        all_goals first
          | rfl
          | simp at scratch
      | fetch free =>
        rw [none] at free
        simp at free
      | _ => simp at member

/-- The limits forbid to change the register. -/
def Limits.Guards (limits : Limits) : MachineReg → Prop
  | .arg i => i ∉ limits.free
  | .pool r => r ∈ limits.locked
  | _ => True

theorem Untouched.read {y : MachineReg} (untouched : Untouched A limits m m')
    (guarded : limits.Guards y) : m'.read y = m.read y := by
  cases y with
  | zero => rfl
  | ra => exact untouched.ra
  | sp => exact untouched.sp
  | arg i => exact untouched.args i guarded
  | pool r => exact untouched.locked r guarded

/-- What stays untouched within limits does so within wider ones. -/
theorem Untouched.mono {outer : Limits} (untouched : Untouched A limits m m')
    (within : limits.Within outer) : Untouched A outer m m' := by
  refine ⟨fun r lock => untouched.locked r (within.locked r lock),
    fun i fixed => untouched.args i fun free => fixed (within.free i free), untouched.sp, untouched.ra, ?_⟩
  intro s member fixed a address
  refine untouched.words s member ?_ a address
  have less := within.outgoing
  unfold Slot.isWritable at fixed ⊢
  split at fixed <;> simp at fixed ⊢
  omega

theorem Agrees.read {r : Reg} {name : String} (agrees : Agrees A tracked b.store env m)
    (sound : b.store.Sound) (resides : Resides b r name) (track : tracked (A.place name)) :
    m.read (.pool r) = env (A.place name) := by
  obtain ⟨v, e, entry, listed, rfl⟩ := resides
  exact agrees.regs v e r (sound.known_of_reg entry listed) track listed

theorem immediate_run {i : Fin 8} {n : Int} (range : Instr.immediateInRange n = true)
    (agrees : Agrees A tracked b.store env m) (free : i ∈ limits.free) :
    ∃ m', m.execAll A.data (immediateInstrs (.arg i) n) = some m' ∧
      Agrees A tracked b.store env m' ∧ Untouched A limits m m' ∧ m'.read (.arg i) = BitVec.ofInt 32 n := by
  obtain ⟨m', ran, value⟩ : ∃ m', m.execAll A.data (immediateInstrs (.arg i) n) = some m' ∧ _ :=
    immediate_exec m (by simp) range
  obtain ⟨m'', again, mem, others⟩ : ∃ m'', m.execAll A.data (immediateInstrs (.arg i) n) = some m'' ∧ _ :=
    scratch_run m (isScratch_immediate i n) (isEncodable_of_execAll ran)
  cases Option.some.inj (ran.symm.trans again)
  have fixed (q : MachineReg) (other : ∀ j ∈ limits.free, q ≠ .arg j) : m'.read q = m.read q :=
    others q fun j member => by
      rw [List.mem_singleton.mp member]
      exact other i free
  obtain ⟨agrees, untouched⟩ := agrees.scratch mem fixed
  exact ⟨m', ran, agrees, untouched, value⟩

/-- The register of an operand holds its value. -/
theorem Located.run {needs : Needs} {i : Fin 8} {x : Operand} {y : MachineReg}
    (located : Located site needs (.arg i) b x y is c) (suits : Suits A site b)
    (range : x.isInRange = true) (quiet : c.out.warnings.size ≤ b.out.warnings.size)
    (track : ∀ name, x = .variable name → tracked (A.place name))
    (agrees : Agrees A tracked b.store env m) :
    ∃ m', m.execAll A.data is = some m' ∧ Agrees A tracked c.store env m' ∧
      Untouched A ⟨b.reserved, needs.res, [i], 0⟩ m m' ∧ m'.read y = x.eval A.place env := by
  cases located with
  | zero => exact ⟨m, rfl, agrees, .refl _ m, rfl⟩
  | literal n => exact immediate_run range agrees (by simp)
  | @«variable» _ name r _ moves ready resides =>
    obtain ⟨m', ran, agrees', untouched⟩ :=
      moves.run suits (Nat.zero_le _) (moves.isEncodable rfl) agrees
    refine ⟨m', ran, agrees', ?_, ?_⟩
    · exact untouched.mono ⟨fun _ member => member, .inr rfl, by simp, Nat.le_refl 0⟩
    · exact agrees'.read (moves.sound suits.sound) (resides quiet) (track name rfl)

/-- The register of an operand is safe from what spares the registers in use. -/
theorem Located.guards {needs : Needs} {i : Fin 8} {x : Operand} {y : MachineReg}
    (located : Located site needs (.arg i) b x y is c) (locked : ∀ r ∈ c.reserved, r ∈ limits.locked)
    (spared : i ∉ limits.free) : limits.Guards y := by
  cases located with
  | zero => trivial
  | literal n => exact spared
  | «variable» moves ready => exact locked _ ready.reserved

/-- An argument register gets the value of an operand. -/
theorem Copied.run {i : Fin 8} {x : Operand} (copied : Copied site i b x is c) (suits : Suits A site b)
    (range : x.isInRange = true) (quiet : c.out.warnings.size ≤ b.out.warnings.size)
    (track : ∀ name, x = .variable name → tracked (A.place name))
    (agrees : Agrees A tracked b.store env m) :
    ∃ m', m.execAll A.data is = some m' ∧ Agrees A tracked c.store env m' ∧
      Untouched A ⟨Reg.all, none, [i], 0⟩ m m' ∧ m'.read (.arg i) = x.eval A.place env := by
  have stays {d : Body} (moves : Moves site .still b [] d) : Agrees A tracked d.store env m :=
    (moves.agrees suits (Nat.zero_le _) rfl agrees).1
  have written (w : Word) (q : MachineReg) (other : ∀ j ∈ [i], q ≠ .arg j) :
      (m.write (.arg i) w).read q = m.read q := Machine.read_write_ne (other i (by simp)) w
  cases copied with
  | literal n => exact immediate_run range agrees (by simp)
  | @register d name r moves resides =>
    obtain ⟨agrees', untouched⟩ : _ ∧ Untouched A ⟨Reg.all, none, [i], 0⟩ m _ :=
      (stays moves).scratch (Machine.mem_write ..) (written (m.read (.pool r)))
    refine ⟨_, rfl, agrees', untouched, ?_⟩
    rw [Machine.read_write_arg]
    exact (stays moves).read (moves.sound suits.sound) resides (track name rfl)
  | @home d v e h moves known valid place =>
    obtain ⟨s, a, _, _, _, found⟩ := (moves.suits suits).home known place
    obtain ⟨agrees', untouched⟩ : _ ∧ Untouched A ⟨Reg.all, none, [i], 0⟩ m _ :=
      (stays moves).scratch (Machine.mem_write ..) (written (m.mem a))
    refine ⟨_, load_run m (address?_of_address agrees.sp found), agrees', untouched, ?_⟩
    rw [Machine.read_write_arg]
    exact (stays moves).homes v e h a known (track e.name rfl) valid place found
  | unresolved _ loud => exact absurd quiet loud

/-! Results -/

theorem isResult_target {r : Reg} {x : Asm.Instr} {q : MachineReg} (result : isResult r x = true)
    (other : q ≠ .pool r) : x.target? ≠ some q := by
  cases x with
  | alu | aluImm | lui | mv | mflo | mfhi | lw =>
    intro same
    cases Option.some.inj same
    exact other (of_decide_eq_true result)
  | _ => simp [Asm.Instr.target?]

theorem Body.assign_known {r : Reg} {name : String} (sound : b.store.Sound) (owned : Owned b r name) :
    ∃ v f, (b.assign r name).store.Has v f ∧ f.name = name := by
  obtain ⟨e, known, same⟩ := Store.intern_has b.store name
  refine ⟨(b.store.intern name).1, { e with regs := .single r, homeValid := false }, ⟨?_, known.2⟩, same⟩
  rw [Body.assign, Store.get?_commit (owned.intern sound), if_pos rfl, known.1]
  rfl

/-- A register that gets the value of a name makes the machine agree with the new value. -/
theorem Agrees.assign {r : Reg} {res : String} (agrees : Agrees A tracked b.store env m)
    (sound : b.store.Sound) (owned : Owned b r res) (mem : m'.mem = m.mem)
    (others : ∀ q, q ≠ .pool r → m'.read q = m.read q) :
    Agrees A (fun p => p = A.place res ∨ tracked p) (b.assign r res).store
      (env.set (A.place res) (m'.read (.pool r))) m' := by
  have differs {name : String} (other : name ≠ res) : A.place name ≠ A.place res :=
    fun same => other (placeOf_injective same)
  refine ⟨(others .sp (by simp)).trans agrees.sp, ?_, ?_, ?_⟩
  · intro v f q known track inside
    rcases Body.assign_has sound owned known with ⟨name, only, _⟩ | ⟨other, before, free⟩
    · rw [only, KeySet.mem_single] at inside
      rw [inside, name, Env.set_same]
    · have apart : q ≠ r := fun same => free (same ▸ inside)
      rw [others _ (by simpa using apart), Env.set_other _ (differs other)]
      exact agrees.regs v f q before (track.resolve_left (differs other)) inside
  · intro v f h a known track valid place address
    rcases Body.assign_has sound owned known with ⟨_, _, invalid, _⟩ | ⟨other, before, _⟩
    · rw [valid] at invalid
      contradiction
    · rw [mem, Env.set_other _ (differs other)]
      exact agrees.homes v f h a before (track.resolve_left (differs other)) valid place address
  · intro name a track global unknown address
    have other : Place.global name ≠ A.place res := by
      intro same
      obtain ⟨v, f, known, named⟩ := Body.assign_known sound owned
      exact unknown v f known (named ▸ same.symm)
    rw [mem, Env.set_other _ other]
    refine agrees.absent name a (track.resolve_left other) global (fun v e known => ?_) address
    obtain ⟨f, after, same, _⟩ := Body.assign_stays sound owned known
    exact same ▸ unknown v f after

theorem Assigned.run {res : String} {r : Reg} {ks : List Asm.Instr}
    (assigned : Assigned site res b r ks c) (suits : Suits A site b)
    (agrees : Agrees A tracked b.store env m) (ran : m.execAll A.data ks = some m') :
    Agrees A (fun p => p = A.place res ∨ tracked p) c.store
        (env.set (A.place res) (m'.read (.pool r))) m' ∧
      m'.mem = m.mem ∧ ∀ q, q ≠ .pool r → m'.read q = m.read q := by
  cases assigned with
  | @intro d plain ready moves held after absent =>
    have mem : m'.mem = m.mem := by
      refine Machine.execAll_mem ran fun src dst member => ?_
      simpa [isResult] using plain _ member
    have others (q : MachineReg) (other : q ≠ .pool r) : m'.read q = m.read q :=
      Machine.execAll_read ran fun x member => isResult_target (plain x member) other
    have suits' : Suits A site { b with out := b.out.append ks } := suits.update _ _ _ _
    obtain ⟨agrees', _⟩ := moves.agrees suits' (Nat.zero_le _) rfl agrees
    exact ⟨agrees'.assign (moves.sound suits.sound) after.owned mem others, mem, others⟩

/-! Ends of blocks -/

theorem Flushed.run (flushed : Flushed site b is c) (suits : Suits A site b)
    (agrees : Agrees A tracked b.store env m) :
    ∃ m', m.execAll A.data is = some m' ∧ Agrees A tracked c.store env m' ∧ Untouched A {} m m' ∧
      ∀ q, m'.read q = m.read q := by
  obtain ⟨m', ran, agrees', untouched⟩ :=
    flushed.moves.run suits (Nat.zero_le _) (flushed.moves.isEncodable rfl) agrees
  refine ⟨m', ran, agrees', untouched, fun q => Machine.execAll_read ran fun x member => ?_⟩
  have store := flushed.stores x member
  unfold isStore at store
  split at store
  · simp [Asm.Instr.target?]
  · contradiction

theorem HasSlot.eq_declared {owners : List String} {name : String} {s : Slot}
    (slot : HasSlot A.table A.function owners name s) (place : A.place name = .frame name) :
    s = .declared name := by
  cases slot with
  | declared => rfl
  | global other => cases place.symm.trans other
  | spare other => cases place.symm.trans other

theorem HasSlot.eq_global {owners : List String} {name : String} {s : Slot}
    (slot : HasSlot A.table A.function owners name s) (place : A.place name = .global name) :
    s = .global name := by
  cases slot with
  | declared other => cases place.symm.trans other
  | global => rfl
  | spare other => cases place.symm.trans other

/-- Where every home is valid, the words of global variables hold their values. -/
theorem Agrees.global_word {name : String} {a : Word} (agrees : Agrees A tracked b.store env m)
    (suits : Suits A site b) (settled : Settled b.store)
    (track : tracked (.global name)) (global : isGlobalScalar A.table name = true)
    (address : A.slot (.global name) = some a) : m.mem a = env (.global name) := by
  by_cases mentioned : ∃ v e, b.store.Has v e ∧ A.place e.name = .global name
  · obtain ⟨v, e, known, place⟩ := mentioned
    obtain ⟨h, home⟩ := Option.isSome_iff_exists.mp (suits.homed_of_global known place)
    obtain ⟨s, a', slot, _, at_, found⟩ := suits.home known home
    have same : e.name = name := by
      rcases placeOf_cases A.table A.function e.name with frame | other | temporary
      · cases place.symm.trans frame
      · exact Place.global.inj (other.symm.trans place)
      · cases place.symm.trans temporary
    rw [same] at place
    have word := (same ▸ slot).eq_global place
    rw [word, address] at at_
    cases Option.some.inj at_
    have valid := settled v e known (by simp [home])
    have value := agrees.homes v e h a known (by rwa [same, place]) valid home found
    rwa [same, place] at value
  · refine agrees.absent name a track global (fun v e known place => ?_) address
    exact mentioned ⟨v, e, known, place⟩

theorem Agrees.frame_word {name : String} {a : Word} (agrees : Agrees A tracked b.store env m)
    (suits : Suits A site b) (settled : Settled b.store)
    (track : tracked (.frame name)) (place : A.place name = .frame name)
    (address : A.slot (.declared name) = some a) : m.mem a = env (.frame name) := by
  have declared := placeOf_eq_frame.mp place
  rw [suits.function] at declared
  obtain ⟨v, e, known, rfl, homed⟩ := suits.housed.declared name declared
  obtain ⟨h, home⟩ := Option.isSome_iff_exists.mp homed
  obtain ⟨s, a', slot, _, at_, found⟩ := suits.home known home
  rw [slot.eq_declared place, address] at at_
  cases Option.some.inj at_
  have value := agrees.homes v e h a known (by rwa [place]) (settled v e known homed) home found
  rwa [place] at value

/-- Where control goes from the end of one block to the start of another, the machine agrees with
the descriptors there on all that has its word at both ends. -/
theorem Agrees.jump {there : Site} {d : Body} {fewer : Place → Prop}
    (agrees : Agrees A tracked b.store env m) (suits : Suits A site b) (suits' : Suits A there d)
    (settled : Settled b.store) (empty : ∀ r w, w ∉ d.store.held r)
    (narrower : ∀ p, fewer p → tracked p)
    (homes : ∀ v e h, d.store.Has v e → e.home = some h → A.place e.name = .temporary e.name →
      fewer (A.place e.name) → ∃ w f, b.store.Has w f ∧ f.name = e.name ∧ f.home = some h) :
    Agrees A fewer d.store env m := by
  refine ⟨agrees.sp, ?_, ?_, ?_⟩
  · intro v e r known _ inside
    exact absurd ((suits'.sound.listed r v).mpr ⟨e, known.1, inside⟩) (empty r v)
  · intro v e h a known track _ home address
    obtain ⟨s, a', slot, _, at_, found⟩ := suits'.home known home
    cases Option.some.inj (address.symm.trans found)
    rcases placeOf_cases A.table A.function e.name with place | place | place
    · have word := slot.eq_declared place
      rw [word] at at_
      change A.place e.name = _ at place
      rw [place] at track ⊢
      exact agrees.frame_word suits settled (narrower _ track) place at_
    · have word := slot.eq_global place
      rw [word] at at_
      change A.place e.name = _ at place
      rw [place] at track ⊢
      exact agrees.global_word suits settled (narrower _ track) (isGlobalScalar_of_place place) at_
    · obtain ⟨w, f, old, same, home'⟩ := homes v e h known home place track
      rw [← same] at track ⊢
      exact agrees.homes w f h a old (narrower _ track) (settled w f old (by simp [home'])) home' address
  · intro name a track global _ address
    exact agrees.global_word suits settled (narrower _ track) global address

end ThreeAddress.Codegen
