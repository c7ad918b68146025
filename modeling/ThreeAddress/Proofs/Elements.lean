import ThreeAddress.Proofs.CallBoundary
import ThreeAddress.Proofs.FrameParts
import ThreeAddress.Proofs.Survival

/-! Elements of arrays on the machine. The code of an access computes the address of the element, reads or writes
that word, and writes nothing else but variables to their homes. -/
namespace ThreeAddress

open Asm (Line Mem)

namespace Machine

variable {data : Data} {m m' : Machine}

/-- The word that an instruction writes, and what it writes there. -/
def write? (data : Data) (m : Machine) : Asm.Instr → Option (Word × Word)
  | .sw src dst => (m.address? data dst).map fun a => (a, m.read src)
  | _ => none

/-- The words that instructions write, in the order in which they do. -/
def writes (data : Data) (m : Machine) : List Asm.Instr → List (Word × Word)
  | [] => []
  | i :: is => (m.write? data i).toList ++ ((m.exec data i).map fun m' => m'.writes data is).getD []

theorem writes_cons {i : Asm.Instr} (ran : m.exec data i = some m') (is : List Asm.Instr) :
    m.writes data (i :: is) = (m.write? data i).toList ++ m'.writes data is := by
  rw [writes, ran, Option.map_some, Option.getD_some]

theorem writes_append {is : List Asm.Instr} (ran : m.execAll data is = some m') (js : List Asm.Instr) :
    m.writes data (is ++ js) = m.writes data is ++ m'.writes data js := by
  induction is generalizing m with
  | nil =>
    cases ran
    rfl
  | cons i is ih =>
    obtain ⟨m₁, first, rest⟩ := Option.bind_eq_some_iff.mp ran
    rw [List.cons_append, writes_cons first, writes_cons first, ih rest, List.append_assoc]

theorem writes_eq_nil {is : List Asm.Instr} (ran : m.execAll data is = some m')
    (load : ∀ src dst, .sw src dst ∉ is) : m.writes data is = [] := by
  induction is generalizing m with
  | nil => rfl
  | cons i is ih =>
    obtain ⟨m₁, first, rest⟩ := Option.bind_eq_some_iff.mp ran
    rw [writes_cons first, ih rest fun src dst member => load src dst (List.mem_cons_of_mem i member),
      List.append_nil]
    cases i with
    | sw src dst => exact absurd List.mem_cons_self (load src dst)
    | _ => rfl

/-- A word that is not written stays as it is. -/
theorem mem_of_writes {is : List Asm.Instr} {a : Word} (ran : m.execAll data is = some m')
    (elsewhere : ∀ p ∈ m.writes data is, p.1 ≠ a) : m'.mem a = m.mem a := by
  induction is generalizing m with
  | nil =>
    cases ran
    rfl
  | cons i is ih =>
    obtain ⟨m₁, first, rest⟩ := Option.bind_eq_some_iff.mp ran
    rw [writes_cons first] at elsewhere
    rw [ih rest fun p member => elsewhere p (List.mem_append_right _ member)]
    by_cases store : ∃ src dst, i = .sw src dst
    · obtain ⟨src, dst, rfl⟩ := store
      obtain ⟨w, address, rfl⟩ := Option.map_eq_some_iff.mp first
      have other : w ≠ a := elsewhere (w, m.read src) (by simp [write?, address])
      rw [mem_store, if_neg other.symm]
    · rw [exec_mem first fun src dst same => store ⟨src, dst, same⟩]

end Machine

namespace Codegen

open Descriptor (Store Var Entry)

/-! Homes -/

/-- The word is one where a variable lives. -/
def Activation.IsHome (A : Activation) (owners : List String) (a : Word) : Prop :=
  (∃ name s, HasSlot A.table A.function owners name s ∧ A.slot s = some a) ∨
    ∃ name, isGlobalScalar A.table name = true ∧ A.slot (.global name) = some a

/-- A variable is written to its home. -/
def Activation.Spills (A : Activation) (owners : List String) (env : Env) (p : Word × Word) : Prop :=
  ∃ name s, HasSlot A.table A.function owners name s ∧ A.slot s = some p.1 ∧ p.2 = env (A.place name)

variable {A : Activation} {site : Site} {limits : Limits} {b c d : Body} {is js : List Asm.Instr}
variable {env : Env} {m m' : Machine} {needs : Needs} {array : String} {index : Operand} {a : Word}

theorem Activation.Spills.isHome {owners : List String} {p : Word × Word} (spills : A.Spills owners env p) :
    A.IsHome owners p.1 := by
  obtain ⟨name, s, slot, address, _⟩ := spills
  exact .inl ⟨name, s, slot, address⟩

theorem Move.writes (move : Move site limits b is c) (suits : Suits A site b) (inside : limits.outgoing = 0)
    (ran : m.execAll A.data is = some m') (agrees : Agrees A everything b.store env m) :
    ∀ p ∈ m.writes A.data is, A.Spills b.spare.owners env p := by
  have nothing (load : ∀ src dst, .sw src dst ∉ is) : ∀ p ∈ m.writes A.data is, A.Spills b.spare.owners env p := by
    rw [Machine.writes_eq_nil ran load]
    simp
  cases move with
  | @save v e r home entry listed place =>
    have known := suits.sound.known_of_reg entry listed
    obtain ⟨s, a, slot, member, address, found⟩ := suits.home known place
    intro p written
    simp only [Machine.writes, Machine.write?, address?_of_address agrees.sp found, Machine.exec] at written
    obtain rfl : p = (a, m.read (.pool r)) := by simpa using written
    exact ⟨e.name, s, slot, address, agrees.regs v e r known trivial listed⟩
  | pass bound =>
    rw [inside] at bound
    cases bound
  | load => exact nothing fun src dst member => by simpa [isResult] using isResult_load _ _ _ _ member
  | fetch =>
    refine nothing fun src dst member => ?_
    unfold loadInstrs delay at member
    split at member <;> simp at member
  | scratch plain => exact nothing fun src dst member => by simpa [isScratch] using plain _ member
  | _ => exact nothing (by simp)

/-- Moves write variables to their homes and nothing else. -/
theorem Moves.writes (moves : Moves site limits b is c) (suits : Suits A site b) (inside : limits.outgoing = 0)
    (ran : m.execAll A.data is = some m') (agrees : Agrees A everything b.store env m) :
    ∀ p ∈ m.writes A.data is, A.Spills b.spare.owners env p := by
  induction moves generalizing m' with
  | refl => simp [Machine.writes]
  | step before move ih =>
    rw [Machine.execAll_append] at ran
    obtain ⟨m₁, first, rest⟩ := Option.bind_eq_some_iff.mp ran
    obtain ⟨middle, _⟩ := before.agrees suits (inside ▸ Nat.zero_le _) first agrees
    rw [Machine.writes_append first, ← before.sameProcedure.spare]
    intro p member
    rcases List.mem_append.mp member with early | late
    · rw [before.sameProcedure.spare]
      exact ih first p early
    · exact move.writes (before.suits suits) inside rest middle p late

/-! Addresses -/

/-- Where the elements of an array start. -/
def Activation.base? (A : Activation) (env : Env) (array : String) : ArrayPlace → Option Word
  | .global => A.data array
  | .frame offset => some (A.sp + BitVec.ofInt 32 offset.toInt)
  | .pointer => some (env (A.place array))

/-- The address register gets four times the index. -/
def scaleInstr (y : MachineReg) : Asm.Instr := .aluImm .sll .address y 2

/-- The base is added to the address register. -/
def offsetInstr (y : MachineReg) : Asm.Instr := .alu .add .address .address y

/-- The address of an element is computed from its index in a register. -/
inductive Addressed (site : Site) (needs : Needs) (array : String) (index : Operand) (b : Body) (y : MachineReg) :
    ArrayPlace → List Asm.Instr → Mem → Body → Prop
  | global : Addressed site needs array index b y .global [scaleInstr y] (.indexed array .address)
      { b with out := b.out.append [scaleInstr y] }
  | frame (offset : Int64) : Addressed site needs array index b y (.frame offset) ([scaleInstr y] ++ [offsetInstr .sp])
      (.offset offset.toInt .address) { b with out := (b.out.append [scaleInstr y]).append [offsetInstr .sp] }
  | pointer {d : Body} {r : Reg} {js : List Asm.Instr} :
      Located site ⟨index.name?, needs.res⟩ (.arg 6) { b with out := b.out.append [scaleInstr y] } (.variable array)
        (.pool r) js d →
      Addressed site needs array index b y .pointer ([scaleInstr y] ++ js ++ [offsetInstr (.pool r)])
        (.offset 0 .address) { d with out := d.out.append [offsetInstr (.pool r)] }

theorem element_addressed {mem : Mem} (sound : b.store.Sound) (ran : element site array index needs b = .ok (mem, c)) :
    ∃ y is js d place, operand site index needs .scratchLeft b = .ok (y, d) ∧
      Located site needs (.arg 6) b index y is d ∧ d.place? site.table array = some place ∧
      Addressed site needs array index d y place js mem c := by
  simp only [element, bind_ok, within_ok, emitInstr_ok] at ran
  obtain ⟨y, d, fetched, _, _, rfl, place, _, placed, ran⟩ := ran
  obtain ⟨is, located⟩ := operand_located sound fetched
  rw [arrayPlace_eq] at placed
  split at placed
  case h_2 => cases placed
  case h_1 place' at_ =>
    cases placed
    refine ⟨y, is, ?_⟩
    cases place with
    | global =>
      obtain ⟨rfl, rfl⟩ := pure_ok.mp ran
      exact ⟨_, d, _, fetched, located, at_, .global⟩
    | frame offset =>
      simp only [bind_ok, emitInstr_ok, pure_ok] at ran
      obtain ⟨_, _, rfl, rfl, rfl⟩ := ran
      exact ⟨_, d, _, fetched, located, at_, .frame offset⟩
    | pointer =>
      simp only [bind_ok, within_ok, emitInstr_ok, pure_ok] at ran
      obtain ⟨r, e, loads, _, _, rfl, rfl, rfl⟩ := ran
      obtain ⟨⟨js, moves⟩, ready, resides⟩ :=
        loaded_moves (b := { d with out := d.out.append [scaleInstr y] }) (located.moves.sound sound) loads
      exact ⟨_, d, _, fetched, located, at_, .pointer (.variable moves ready resides)⟩

theorem Addressed.moves {y : MachineReg} {place : ArrayPlace} {mem : Mem}
    (addressed : Addressed site needs array index b y place js mem c) :
    Moves site ⟨b.reserved, needs.res, [6, 7], 0⟩ b js c := by
  have scale : Moves site ⟨b.reserved, needs.res, [6, 7], 0⟩ b [scaleInstr y] _ :=
    .one (.scratch (by simp [isScratch, scaleInstr, MachineReg.address]))
  cases addressed with
  | global => exact scale
  | frame offset => exact scale.trans (.one (.scratch (by simp [isScratch, offsetInstr, MachineReg.address])))
  | pointer located =>
    have loads : Moves site ⟨b.reserved, needs.res, [6, 7], 0⟩ _ _ _ :=
      located.moves.mono ⟨fun _ member => member, .inr rfl, by simp, Nat.le_refl 0⟩
    exact (scale.trans loads).trans (.one (.scratch (by simp [isScratch, offsetInstr, MachineReg.address])))

theorem scale_exec (data : Data) (m : Machine) (y : MachineReg) :
    m.exec data (scaleInstr y) = some (m.write .address (4 * m.read y)) := by
  have shifted : m.read y <<< (2 : Nat) = 4 * m.read y := by
    apply BitVec.eq_of_toNat_eq
    rw [BitVec.toNat_shiftLeft, BitVec.toNat_mul, Nat.shiftLeft_eq, Nat.mul_comm]
    rfl
  rw [← shifted]
  rfl

theorem offset_exec (data : Data) (m : Machine) (y : MachineReg) :
    m.exec data (offsetInstr y) = some (m.write .address (m.read .address + m.read y)) := rfl

theorem Agrees.write_address {tracked : Place → Prop} {s : Store Mem} (agrees : Agrees A tracked s env m) (w : Word) :
    Agrees A tracked s env (m.write .address w) :=
  agrees.congr (Machine.mem_write ..) (fun r => Machine.read_write_ne (by simp [MachineReg.address]) w)
    (Machine.read_write_ne (by simp [MachineReg.address]) w)

/-- The address register holds the address of the element, or what is missing from it is in the memory operand. -/
theorem Addressed.run {y : MachineReg} {place : ArrayPlace} {mem : Mem} {base w : Word}
    (addressed : Addressed site needs array index b y place js mem c) (suits : Suits A site b)
    (quiet : c.out.warnings.size ≤ b.out.warnings.size) (agrees : Agrees A everything b.store env m)
    (value : m.read y = w) (based : A.base? env array place = some base)
    (short : ∀ offset, place = .frame offset → -2 ^ 31 ≤ offset.toInt ∧ offset.toInt < 2 ^ 31)
    (aligned : (base + 4 * w).toNat % 4 = 0) :
    ∃ m', m.execAll A.data js = some m' ∧ Agrees A everything c.store env m' ∧
      ∀ m'' : Machine, m''.read .address = m'.read .address → m''.address? A.data mem = some (base + 4 * w) := by
  have scaled : m.exec A.data (scaleInstr y) = some (m.write .address (4 * w)) := value ▸ scale_exec A.data m y
  have agrees₁ := agrees.write_address (4 * w)
  have held (m : Machine) (x : Word) : (m.write .address x).read .address = x := Machine.read_write_arg ..
  have whole : Machine.aligned? (base + 4 * w) = some (base + 4 * w) := if_pos aligned
  cases addressed with
  | global =>
    refine ⟨_, Machine.execAll_one scaled, agrees₁, fun m'' same => ?_⟩
    have data : A.data array = some base := based
    rw [held] at same
    rw [Machine.address?, data, Option.bind_some, same, BitVec.add_comm, whole]
  | frame offset =>
    cases Option.some.inj based
    refine ⟨_, Machine.execAll_trans (Machine.execAll_one scaled) (Machine.execAll_one (offset_exec ..)),
      agrees₁.write_address _, fun m'' same => ?_⟩
    rw [held, held, agrees₁.sp] at same
    rw [Machine.address?, immediate?_of_range (short offset rfl), Option.bind_some, same, BitVec.add_assoc,
      BitVec.add_comm, whole]
  | @pointer d r js located =>
    cases Option.some.inj based
    have suits₁ := suits.update (b.out.append [scaleInstr y]) b.pending b.reserved b.returned
    have silent : d.out.warnings.size ≤ (b.out.append [scaleInstr y]).warnings.size := by
      simpa [Output.warnings_append] using quiet
    obtain ⟨m₂, ran₂, agrees₂, untouched, pointer⟩ :=
      located.run suits₁ rfl silent (fun _ _ => trivial) agrees₁
    -- the pointer may have to be loaded, but not into the register of the address
    have kept : m₂.read .address = 4 * w := (untouched.args 7 (by simp)).trans (held ..)
    refine ⟨_, Machine.execAll_trans (Machine.execAll_trans (Machine.execAll_one scaled) ran₂)
      (Machine.execAll_one (offset_exec ..)), agrees₂.write_address _, fun m'' same => ?_⟩
    rw [held, kept, pointer] at same
    have zero (x : Word) : x + BitVec.ofInt 32 0 = x := BitVec.add_zero x
    rw [Machine.address?, immediate?_of_range (by decide), Option.bind_some, same, zero, BitVec.add_comm]
    exact whole

/-! Arrays in the frame -/

theorem place?_frame {table : Scope} {offset : Int64} (place : b.place? table array = some (.frame offset)) :
    b.arrays.lookup array = some (.frame offset) := by
  unfold Body.place? at place
  rcases Option.or_eq_some_iff.mp place with found | ⟨_, other⟩
  · exact found
  · split at other
    · cases other
    · split at other <;> cases other

/-- The offset of an array in such a frame can be encoded. -/
theorem Activation.Placed.array_offset (placed : A.Placed) (shape : ∃ d, A.layout = Frame.layout d) {offset : Int64}
    (found : (arrayPlaces A.layout A.function).lookup array = some (.frame offset)) :
    -2 ^ 31 ≤ offset.toInt ∧ offset.toInt < 2 ^ 31 := by
  obtain ⟨_, _, split, _⟩ := List.lookup_eq_some_iff.mp found
  have member : (array, ArrayPlace.frame offset) ∈ arrayPlaces A.layout A.function := by
    rw [split]
    simp
  have measured := placed.measured shape
  have small := placed.small
  have room := measured.room
  have outgoing := measured.stacked.outgoing
  have zero : (0 : Int64).toInt = 0 := rfl
  unfold Activation.extent at small
  obtain ⟨inside, _⟩ : (∀ x ∈ placeLocals A.layout 0 A.function.locals, _) ∧ _ :=
    measured.placeLocals (by omega) (by omega)
  unfold arrayPlaces at member
  rw [List.partition_eq_filter_filter] at member
  rcases List.mem_append.mp member with parameter | declared
  · obtain ⟨x, _, other⟩ := List.mem_map.mp parameter
    cases other
  · obtain ⟨x, here, same⟩ := List.mem_map.mp declared
    cases same
    have bounds := inside x (List.mem_filter.mp here).1
    omega

/-! Pointers -/

/-- The name stands for a temporary without a home, and for a global array as well. -/
structure Doubled (table : Scope) (b : Body) (name : String) : Prop where
  undeclared : b.arrays.lookup name = none
  temporary : ∃ v e, b.store.Has v e ∧ e.name = name ∧ e.home = none
  global : (table.lookup name).any Symbol.isVariable = true ∧ ¬ (table.lookup name).any Symbol.isScalar = true

/-- Without a new warning everything that an operand refers to was there. -/
theorem operand_resolved {x : Operand} {scratch y : MachineReg} (sound : b.store.Sound)
    (ran : operand site x needs scratch b = .ok (y, c)) (quiet : c.out.warnings.size ≤ b.out.warnings.size) :
    ∀ name ∈ x.names, missing? site.table b.store name = none := by
  obtain ⟨warned, _⟩ := (operand_notes sound x needs scratch).ran y c ran
  have none : noted site (b.readsOf site.table x) = [] := by
    have count := congrArg List.length warned
    rw [List.length_append, Array.length_toList, Array.length_toList] at count
    exact List.length_eq_zero_iff.mp (by omega)
  intro name member
  have read : b.reads site.table name ∈ b.readsOf site.table x := List.mem_map_of_mem member
  exact Option.map_eq_none_iff.mp (List.filterMap_eq_nil_iff.mp none _ read)

/-- How an array is addressed does not change while the index gets into a register, if the name of a pointer that
may be lost then is not the name of a global array. -/
theorem place?_behind_index {y : MachineReg} (consistent : Consistent b.store)
    (ran : operand site index needs .scratchLeft b = .ok (y, c))
    (quiet : c.out.warnings.size ≤ b.out.warnings.size) (addressed : (c.place? site.table array).isSome = true)
    (sheltered : Doubled site.table b array → Shielded site needs b index.names array) :
    c.place? site.table array = b.place? site.table array := by
  have sound := consistent.sound
  obtain ⟨is, located⟩ := operand_located sound ran
  have moves := located.moves
  refine moves.place?_of_known sound fun undeclared scalar before lost => ?_
  obtain ⟨v, found⟩ := Option.isSome_iff_exists.mp before
  obtain ⟨e, known, rfl⟩ := Store.lookup_spec found
  have homeless : e.home = none := by
    cases home : e.home with
    | none => rfl
    | some h =>
      obtain ⟨f, stays, name, _⟩ := moves.homed_stays sound known (by simp [home])
      obtain ⟨w, again⟩ := Store.lookup_isSome stays
      rw [name, lost] at again
      cases again
  have global : (site.table.lookup e.name).any Symbol.isVariable = true := by
    simpa [Body.place?, moves.sameProcedure.arrays, undeclared, lost, scalar] using addressed
  have shielded := sheltered ⟨undeclared, ⟨v, e, known, rfl, homeless⟩, global, scalar⟩
  have there : missing? site.table b.store e.name = none :=
    missing?_of_copy sound known (consistent.kept v e known (by simp))
  have stays := operand_shields sound ran (operand_resolved sound ran quiet) there shielded
  rw [missing?_of_lookup lost, if_neg scalar] at stays
  cases stays

/-! Accesses -/

/-- The word is the element of the array at the index, and no variable lives there. -/
structure IsElement (A : Activation) (b : Body) (env : Env) (array : String) (index : Operand) (a : Word) : Prop where
  based : ∃ place base, b.place? A.table array = some place ∧ A.base? env array place = some base ∧
    a = base + 4 * index.eval A.place env
  aligned : a.toNat % 4 = 0
  apart : ¬ A.IsHome b.spare.owners a

/-- The instructions make the address of the element, and write nothing else but variables to their homes. -/
structure Approaches (A : Activation) (owners : List String) (env : Env) (a : Word) (mem : Mem)
    (is : List Asm.Instr) (m m' : Machine) : Prop where
  ran : m.execAll A.data is = some m'
  spills : ∀ p ∈ m.writes A.data is, A.Spills owners env p
  address : m'.address? A.data mem = some a
  word : m'.mem a = m.mem a

theorem IsElement.mem_eq {owners : List String} (apart : ¬ A.IsHome owners a) (ran : m.execAll A.data is = some m')
    (spills : ∀ p ∈ m.writes A.data is, A.Spills owners env p) : m'.mem a = m.mem a :=
  Machine.mem_of_writes ran fun p member same => apart (same ▸ (spills p member).isHome)

theorem element_run {mem : Mem} (consistent : Consistent b.store)
    (ran : element site array index needs b = .ok (mem, c)) (suits : Suits A site b) (range : index.isInRange = true)
    (quiet : c.out.warnings.size ≤ b.out.warnings.size) (agrees : Agrees A everything b.store env m)
    (element : IsElement A b env array index a)
    (short : ∀ offset, b.arrays.lookup array = some (.frame offset) → -2 ^ 31 ≤ offset.toInt ∧ offset.toInt < 2 ^ 31)
    (sheltered : Doubled site.table b array → Shielded site needs b index.names array) :
    ∃ is m', Moves site ⟨b.reserved, needs.res, [6, 7], 0⟩ b is c ∧ m.execAll A.data is = some m' ∧
      Agrees A everything c.store env m' ∧
      ∀ m'' : Machine, m''.read .address = m'.read .address → m''.address? A.data mem = some a := by
  obtain ⟨y, is, js, d, place, fetched, located, placed, addressed⟩ := element_addressed consistent.sound ran
  have silent : c.out.warnings.size ≤ d.out.warnings.size := Nat.le_trans quiet located.moves.warnings.1
  have silent' : d.out.warnings.size ≤ b.out.warnings.size := Nat.le_trans addressed.moves.warnings.1 quiet
  have same := place?_behind_index consistent fetched silent' (by simp [placed]) sheltered
  obtain ⟨place', base, before, based, rfl⟩ := element.based
  rw [suits.table, ← same, placed] at before
  cases before
  obtain ⟨m₁, ran₁, agrees₁, _, value⟩ := located.run suits range silent' (fun _ _ => trivial) agrees
  have short (offset : Int64) (framed : place = .frame offset) : -2 ^ 31 ≤ offset.toInt ∧ offset.toInt < 2 ^ 31 := by
    have here : b.place? site.table array = some (.frame offset) := by rw [← same, placed, framed]
    exact short offset (place?_frame here)
  obtain ⟨m₂, ran₂, agrees₂, points⟩ :=
    addressed.run (located.moves.suits suits) silent agrees₁ value based short element.aligned
  have first : Moves site ⟨b.reserved, needs.res, [6, 7], 0⟩ b is d :=
    located.moves.mono ⟨fun _ member => member, .inr rfl, by simp, Nat.le_refl 0⟩
  have second : Moves site ⟨b.reserved, needs.res, [6, 7], 0⟩ d js c :=
    addressed.moves.mono ⟨first.reserved, .inr rfl, fun _ member => member, Nat.le_refl 0⟩
  exact ⟨is ++ js, m₂, first.trans second, Machine.execAll_trans ran₁ ran₂, agrees₂, points⟩

theorem Assigned.warnings_le {res : String} {r : Reg} (assigned : Assigned site res b r is c) :
    b.out.warnings.size ≤ c.out.warnings.size := by
  cases assigned with
  | intro _ _ moves =>
    have less := moves.warnings.1
    rwa [Output.warnings_append] at less

theorem Assigned.resides {res : String} {r : Reg} (assigned : Assigned site res b r is c) (sound : b.store.Sound) :
    Resides c r res := by
  cases assigned with
  | intro _ _ moves _ after =>
    obtain ⟨v, e, known, named, regs⟩ := Body.assign_result (moves.sound sound) after.owned
    exact ⟨v, e, known.1, by simp [regs], named⟩

/-- The code of a load up to the access leads to the element, and the load leaves its word in a register of the
result. -/
theorem loadElement_run {res : String} (consistent : Consistent b.store)
    (ran : loadElement site array index res b = .ok ((), c)) (suits : Suits A site b) (range : index.isInRange = true)
    (quiet : c.out.warnings.size ≤ b.out.warnings.size) (agrees : Agrees A everything b.store env m)
    (element : IsElement A b env array index a)
    (short : ∀ offset, b.arrays.lookup array = some (.frame offset) → -2 ^ 31 ≤ offset.toInt ∧ offset.toInt < 2 ^ 31)
    (sheltered : Doubled site.table b array → Shielded site ⟨none, some res⟩ b index.names array) :
    ∃ is r mem m', Emits b (is ++ loadInstrs site.options (.pool r) mem) c ∧
      Approaches A b.spare.owners env a mem is m m' ∧ Resides c r res ∧ Suits A site c ∧ c.spare = b.spare ∧
      Agrees A everything c.store (env.set (A.place res) (m.mem a)) (m'.write (.pool r) (m.mem a)) := by
  simp only [loadElement, bind_ok, within_ok, emitAll_ok] at ran
  obtain ⟨mem, b₁, addressed, r, b₂, acquired, _, _, rfl, commits⟩ := ran
  have sound₁ : b₁.store.Sound := by
    obtain ⟨_, moves⟩ := element_moves consistent.sound addressed
    exact moves.sound consistent.sound
  obtain ⟨⟨js, acquires⟩, taken⟩ := acquire_moves sound₁ acquired
  have sound₂ := acquires.sound sound₁
  have assigned : Assigned site res b₂ r (loadInstrs site.options (.pool r) mem) c :=
    commit_assigned sound₂ (taken.ready sound₂) (isResult_load site.options r mem) commits
  have silent : b₁.out.warnings.size ≤ b.out.warnings.size :=
    Nat.le_trans acquires.warnings.1 (Nat.le_trans assigned.warnings_le quiet)
  obtain ⟨is, m₁, moves, ran₁, agrees₁, points⟩ :=
    element_run consistent addressed suits range silent agrees element short sheltered
  have suits₁ := moves.suits suits
  obtain ⟨m₂, ran₂, agrees₂, untouched⟩ :=
    acquires.run suits₁ (Nat.zero_le _) (acquires.isEncodable rfl) agrees₁
  have both : Moves site ⟨b.reserved, some res, [6, 7], 0⟩ b (is ++ js) b₂ :=
    moves.trans (acquires.mono ⟨moves.reserved, .inr rfl, by simp, Nat.le_refl 0⟩)
  have ran := Machine.execAll_trans ran₁ ran₂
  -- making room for the result only writes homes, so the word of the element is still the one before
  have spills := both.writes suits rfl ran agrees
  have address := points m₂ (untouched.args 7 (by simp))
  have word := IsElement.mem_eq element.apart ran spills
  obtain ⟨agrees₃, _, _⟩ := assigned.run (both.suits suits) agrees₂ (load_run m₂ address)
  rw [Machine.read_write_pool, word] at agrees₃
  refine ⟨is ++ js, r, mem, m₂, Emits.trans both.lines assigned.emits, ⟨ran, spills, address, word⟩,
    assigned.resides sound₂, assigned.suits (both.suits suits), ?_, agrees₃.narrow fun _ _ => .inr trivial⟩
  exact assigned.sameProcedure.spare.trans both.sameProcedure.spare

/-- A word where no variable lives may be written. -/
theorem Agrees.store_element (agrees : Agrees A everything b.store env m) (suits : Suits A site b)
    (apart : ¬ A.IsHome b.spare.owners a) (w : Word) : Agrees A everything b.store env (m.store a w) := by
  refine ⟨(Machine.read_store ..).trans agrees.sp, ?_, ?_, ?_⟩
  · intro v e r known track listed
    rw [Machine.read_store]
    exact agrees.regs v e r known track listed
  · intro v e h x known track valid home address
    obtain ⟨s, x', slot, _, at_, found⟩ := suits.home known home
    cases Option.some.inj (address.symm.trans found)
    have other : x ≠ a := fun same => apart (.inl ⟨e.name, s, slot, same ▸ at_⟩)
    rw [Machine.mem_store, if_neg other]
    exact agrees.homes v e h x known track valid home address
  · intro name x track global unknown address
    have other : x ≠ a := fun same => apart (.inr ⟨name, global, same ▸ address⟩)
    rw [Machine.mem_store, if_neg other]
    exact agrees.absent name x track global unknown address

/-- The code of a store up to the access leads to the element and has the value in a register. -/
theorem storeElement_run {value : Operand} (consistent : Consistent b.store)
    (ran : storeElement site array index value b = .ok ((), c)) (suits : Suits A site b)
    (range : index.isInRange = true ∧ value.isInRange = true)
    (quiet : c.out.warnings.size ≤ b.out.warnings.size) (agrees : Agrees A everything b.store env m)
    (element : IsElement A b env array index a)
    (short : ∀ offset, b.arrays.lookup array = some (.frame offset) → -2 ^ 31 ≤ offset.toInt ∧ offset.toInt < 2 ^ 31)
    (sheltered : Doubled site.table b array → Shielded site ⟨value.name?, none⟩ b index.names array) :
    ∃ is y mem m', Emits b (is ++ [.sw y mem]) c ∧ Approaches A b.spare.owners env a mem is m m' ∧
      m'.read y = value.eval A.place env ∧ Suits A site c ∧ c.spare = b.spare ∧
      Agrees A everything c.store env (m'.store a (value.eval A.place env)) := by
  simp only [storeElement, bind_ok, within_ok, emitInstr_ok] at ran
  obtain ⟨mem, b₁, addressed, y, b₂, fetched, rfl⟩ := ran
  have sound₁ : b₁.store.Sound := by
    obtain ⟨_, moves⟩ := element_moves consistent.sound addressed
    exact moves.sound consistent.sound
  -- the value is fetched when the address already stands in its register
  obtain ⟨js, located⟩ := operand_located sound₁ fetched
  rw [Output.warnings_append] at quiet
  have silent : b₁.out.warnings.size ≤ b.out.warnings.size := Nat.le_trans located.moves.warnings.1 quiet
  obtain ⟨is, m₁, moves, ran₁, agrees₁, points⟩ :=
    element_run consistent addressed suits range.1 silent agrees element short sheltered
  obtain ⟨m₂, ran₂, agrees₂, untouched, read⟩ := located.run (moves.suits suits) range.2
    (Nat.le_trans quiet moves.warnings.1) (fun _ _ => trivial) agrees₁
  have both : Moves site ⟨b.reserved, none, [6, 7], 0⟩ b (is ++ js) b₂ :=
    moves.trans (located.moves.mono ⟨moves.reserved, .inr rfl, by simp, Nat.le_refl 0⟩)
  have suits₂ := both.suits suits
  have ran := Machine.execAll_trans ran₁ ran₂
  have spills := both.writes suits rfl ran agrees
  have address := points m₂ (untouched.args 7 (by simp))
  have apart : ¬ A.IsHome b₂.spare.owners a := both.sameProcedure.spare ▸ element.apart
  refine ⟨is ++ js, y, mem, m₂, Emits.trans both.lines (Output.lines_append ..),
    ⟨ran, spills, address, IsElement.mem_eq element.apart ran spills⟩, read, suits₂.update _ _ _ _,
    both.sameProcedure.spare, agrees₂.store_element suits₂ apart _⟩

/-- The flush behind an instruction writes variables to their homes and changes no register. -/
theorem flushBehind_run (ran : flushBehind site b = .ok ((), c)) (suits : Suits A site b)
    (agrees : Agrees A everything b.store env m) :
    ∃ js m', Emits b js c ∧ m.execAll A.data js = some m' ∧ (∀ p ∈ m.writes A.data js, A.Spills b.spare.owners env p) ∧
      (∀ q, m'.read q = m.read q) ∧ Agrees A everything c.store env m' := by
  have moves : ∃ js, Moves site {} b js c ∧ ∀ x ∈ js, isStore x = true := by
    unfold flushBehind at ran
    split at ran
    · obtain ⟨_, d, wrote, evicted⟩ := bind_ok.mp ran
      obtain ⟨⟨js, moves, stores⟩, _, clean⟩ : (∃ is, Moves site {} b is d ∧ _) ∧ _ := writeBack_moves wrote
      have evicts : Moves site {} d [] c := evictHomed_moves (moves.sound suits.sound) clean evicted
      exact ⟨js, by simpa using moves.trans evicts, stores⟩
    · obtain ⟨_, rfl⟩ := pure_ok.mp ran
      exact ⟨[], .refl b, by simp⟩
  obtain ⟨js, moves, stores⟩ := moves
  obtain ⟨m', ran, agrees', _⟩ := moves.run suits (Nat.zero_le _) (moves.isEncodable rfl) agrees
  refine ⟨js, m', moves.lines, ran, moves.writes suits rfl ran agrees, fun q => ?_, agrees'⟩
  refine Machine.execAll_read ran fun x member => ?_
  have store := stores x member
  cases x with
  | sw src dst => simp [Asm.Instr.target?]
  | _ => cases store

/-! Instructions that access elements -/

/-- The array and the index of the element that an instruction accesses. -/
def elementOf : Instr → Option (String × Operand)
  | .load array index _ => some (array, index)
  | .store array index _ => some (array, index)
  | _ => none

/-- What else the instruction is about while its index gets into a register. -/
def elementNeeds : Instr → Needs
  | .load _ _ res => ⟨none, some res⟩
  | .store _ _ value => ⟨value.name?, none⟩
  | _ => {}

/-- The access itself, with the values of the variables behind it: a load leaves the word in the register that is
committed to the result, and a store writes the value to the word. -/
inductive Transfers (A : Activation) (options : Options) (env : Env) (a : Word) (mem : Mem) (m m' : Machine) (d : Body) :
    Instr → List Asm.Instr → Machine → Env → Prop
  | load {array res : String} {index : Operand} {r : Reg} :
      Resides d r res →
      Transfers A options env a mem m m' d (.load array index res) (loadInstrs options (.pool r) mem)
        (m'.write (.pool r) (m.mem a)) (env.set (A.place res) (m.mem a))
  | store {array : String} {index value : Operand} {y : MachineReg} :
      m'.read y = value.eval A.place env →
      Transfers A options env a mem m m' d (.store array index value) [.sw y mem]
        (m'.store a (value.eval A.place env)) env

/-- The code of an instruction that accesses the word: it makes the address, accesses the word and may flush behind
that. Before and behind the access it only writes variables to their homes. -/
structure Accesses (A : Activation) (options : Options) (owners : List String) (x : Instr) (d : Body) (env env' : Env)
    (a : Word) (mem : Mem) (is ks js : List Asm.Instr) (m m₁ m₂ m₃ : Machine) : Prop where
  approaches : Approaches A owners env a mem is m m₁
  transfers : Transfers A options env a mem m m₁ d x ks m₂ env'
  ran : m₁.execAll A.data ks = some m₂
  behind : m₂.execAll A.data js = some m₃
  saves : ∀ p ∈ m₂.writes A.data js, A.Spills owners env' p
  registers : ∀ q, m₃.read q = m₂.read q
  word : m₃.mem a = m₂.mem a

/-- The code that the generator emits for the instruction accesses the word, and behind it the machine agrees with the
descriptors. -/
def RunsAccess (A : Activation) (site : Site) (x : Instr) (b c : Body) (env : Env) (a : Word) (m : Machine) : Prop :=
  ∃ env' d is ks js mem m₁ m₂ m₃, flushBehind site d = .ok ((), c) ∧ Emits b (is ++ ks) d ∧ Emits d js c ∧
    Accesses A site.options b.spare.owners x d env env' a mem is ks js m m₁ m₂ m₃ ∧
    Agrees A everything c.store env' m₃

section Runs

variable {options : Options} {table : Scope} {code : List Quad} {instrs : List Instr} {n : Nat} {x : Instr}
variable {data : Data} {sp : Word}

/-- The flush behind the access is the same for a load and for a store. -/
theorem Transfers.flush {env' : Env} {ks : List Asm.Instr} {mem : Mem} {m₁ m₂ : Machine}
    (transfers : Transfers A site.options env a mem m m₁ d x ks m₂ env') (ran : m₁.execAll A.data ks = some m₂)
    (approaches : Approaches A b.spare.owners env a mem is m m₁) (apart : ¬ A.IsHome b.spare.owners a)
    (flushed : flushBehind site d = .ok ((), c)) (emits : Emits b (is ++ ks) d) (suits : Suits A site d)
    (spare : d.spare = b.spare) (agrees : Agrees A everything d.store env' m₂) : RunsAccess A site x b c env a m := by
  obtain ⟨js, m₃, more, behind, saves, registers, agrees₃⟩ := flushBehind_run flushed suits agrees
  rw [spare] at saves
  have word := IsElement.mem_eq apart behind saves
  exact ⟨env', d, is, ks, js, mem, m₁, m₂, m₃, flushed, emits, more,
    ⟨approaches, transfers, ran, behind, saves, registers, word⟩, agrees₃⟩

theorem lower_accesses (consistent : Consistent b.store) (suits : Suits A site b)
    (ran : lower site x b = .ok ((), c)) (names : elementOf x = some (array, index)) (range : x.isInRange = true)
    (quiet : c.out.warnings.size ≤ b.out.warnings.size) (agrees : Agrees A everything b.store env m)
    (element : IsElement A b env array index a)
    (short : ∀ offset, b.arrays.lookup array = some (.frame offset) → -2 ^ 31 ≤ offset.toInt ∧ offset.toInt < 2 ^ 31)
    (sheltered : Doubled site.table b array → Shielded site (elementNeeds x) b index.names array) :
    RunsAccess A site x b c env a m := by
  have silent {d : Body} (flushed : flushBehind site d = .ok ((), c)) : d.out.warnings.size ≤ b.out.warnings.size := by
    rwa [← (flushBehind_mild site d).1 () c flushed]
  cases x with
  | load _ _ res =>
    cases names
    obtain ⟨_, d, loads, flushed⟩ := bind_ok.mp ran
    obtain ⟨is, r, mem, m₁, emits, approaches, resides, suits', spare, agrees'⟩ :=
      loadElement_run consistent loads suits range (silent flushed) agrees element short sheltered
    have loaded : m₁.execAll A.data (loadInstrs site.options (.pool r) mem) = some (m₁.write (.pool r) (m.mem a)) :=
      approaches.word ▸ load_run m₁ approaches.address
    exact Transfers.flush (.load resides) loaded approaches element.apart flushed emits suits' spare agrees'
  | store _ _ value =>
    cases names
    obtain ⟨_, d, stores, flushed⟩ := bind_ok.mp ran
    obtain ⟨is, y, mem, m₁, emits, approaches, read, suits', spare, agrees'⟩ := storeElement_run consistent stores suits
      (Bool.and_eq_true_iff.mp range) (silent flushed) agrees element short sheltered
    have stored : m₁.exec A.data (.sw y mem) = some (m₁.store a (value.eval A.place env)) := by
      simp [Machine.exec, approaches.address, read]
    exact Transfers.flush (.store read) (Machine.execAll_one stored) approaches element.apart flushed emits suits' spare
      agrees'
  | _ => cases names

/-- A load or store that is accepted without a warning accesses the element of its array: the word at four times the
index from the address of a global array, from the place of a local array in the frame, or from the value of a
pointer. -/
theorem stateAt_accesses (decoded : decodeFrom 0 code = .ok instrs) (found : instrs[n]? = some x)
    (names : elementOf x = some (array, index)) (reached : stateAt options table code n = .ok (.inside b))
    (accepted : stateAt options table code (n + 1) = .ok (.inside c))
    (quiet : c.out.warnings.size = b.out.warnings.size)
    (whole : A = .whole data table b.function b.layout sp) (placed : A.Placed)
    (sheltered : Doubled table b array → Shielded (siteAt options table code n) (elementNeeds x)
      { b with reserved := [], returned := false } index.names array)
    (agrees : Agrees A everything b.store env m) (element : IsElement A b env array index a) :
    b.arrays = arrayPlaces b.layout b.function ∧ RunsAccess A (siteAt options table code n) x b c env a m := by
  subst whole
  obtain ⟨bound, _⟩ := List.getElem?_eq_some_iff.mp found
  have consistent : (State.inside b).Consistent := stateAt_consistent reached
  have provided : (State.inside b).Provided table (Frame.plan options table code) :=
    stateAt_provided decoded (Nat.le_of_lt bound) reached
  obtain ⟨_, _, layout⟩ := Frame.find_plan provided.frame
  have arranged : b.arrays = arrayPlaces b.layout b.function := stateAt_arranged reached
  have suits := (stateAt_suits decoded (Nat.le_of_lt bound) reached placed n).advance
  have range : x.isInRange = true := decodeFrom_isInRange decoded x (List.mem_of_getElem? found)
  obtain ⟨_, before, steps⟩ := (stateAt_succ decoded found).mp accepted
  cases Except.ok.inj (reached.symm.trans before)
  refine ⟨arranged, ?_⟩
  cases step_stepped steps with
  | nop => cases names
  | lower _ _ lowers =>
    have element : IsElement _ { b with reserved := [], returned := false } env array index a :=
      ⟨element.based, element.aligned, element.apart⟩
    refine lower_accesses (b := { b with reserved := [], returned := false }) consistent suits lowers names range
      (Nat.le_of_eq quiet) agrees element (fun offset framed => ?_) fun doubled => ?_
    · exact placed.array_offset ⟨_, layout⟩ (arranged ▸ framed)
    · exact sheltered ⟨doubled.undeclared, doubled.temporary, doubled.global⟩

end Runs

/-- Behind a load that accesses the word, every register of the result holds it. -/
theorem RunsAccess.loads {res : String} {v : Var} {e : Entry Mem} {r : Reg}
    (runs : RunsAccess A site (.load array index res) b c env a m) (emits : Emits b is c)
    (ran : m.execAll A.data is = some m') (known : c.store.Has v e) (named : e.name = res) (listed : r ∈ e.regs) :
    m'.read (.pool r) = m.mem a := by
  obtain ⟨env', d, is', ks, js, mem, m₁, m₂, m₃, _, first, second, accesses, agrees⟩ := runs
  obtain rfl := (first.trans second).unique emits
  have again := Machine.execAll_trans (Machine.execAll_trans accesses.approaches.ran accesses.ran) accesses.behind
  cases Option.some.inj (ran.symm.trans again)
  have value := agrees.regs v e r known trivial listed
  cases accesses.transfers with
  | load => rw [value, named, Env.set_same]

/-! A pointer with the name of a global array -/

theorem not_isHome {owners : List String} (few : owners.length ≤ A.spares) (apart : ∀ s ∈ A.slots, A.slot s ≠ some a) :
    ¬ A.IsHome owners a := by
  rintro (⟨name, s, slot, address⟩ | ⟨name, global, address⟩)
  · exact apart s (slot.mem few) address
  · exact apart _ (global_mem global) address

def doubledFunction : Symbol :=
  { name := "f", kind := .function, params := ["i", "y", "z"].map fun name => { name := name, size := 4 } }

def doubledTable : Scope := ⟨[{ name := "g", size := 40, isArray := true }, doubledFunction]⟩

/-- A temporary with the name of a global array is a pointer, and every register is in use when an element is loaded
through it. Whether the pointer is mentioned behind the load depends on the quads in between. -/
def doubledCode (between : List Quad) : List Quad :=
  Quad.numberedFrom 0 (
    { op := "label", arg1 := "func_f" } :: { op := "=", arg1 := "8192", res := "g" } ::
    ["u1", "u2", "u3", "u4"].map (fun u => { op := "=", arg1 := "1", res := u }) ++
    [{ op := "+", arg1 := "u4", arg2 := "y", res := "u4" }, { op := "+", arg1 := "u4", arg2 := "z", res := "u4" },
      { op := "=[]", arg1 := "g", arg2 := "i", res := "x" }] ++ between ++
    ["x", "u2", "u3", "u4"].map (fun u => { op := "+", arg1 := "u1", arg2 := u, res := "u1" }) ++
    [{ op := "return", res := "u1" }, { op := "label", arg1 := "end_f" }])

def doubledLoad : Instr := .load "g" (.variable "i") "x"

def doubledData (name : String) : Option Word := if name = "g" then some 0x1000 else none

def doubledActivation : Activation :=
  .whole doubledData doubledTable doubledFunction ⟨"f", true, 4, 0, 4, 0, 0⟩ 0x7ff0

/-- The values before the load, and a machine that holds them. -/
def doubledEnv : Env
  | .frame "i" => 1
  | .frame "y" => 6
  | .frame "z" => 7
  | .temporary "g" => 0x2000
  | .temporary "u4" => 14
  | _ => 1

def doubledMachine : Machine where
  regs
    | .sp => 0x7ff0
    | .pool r => [0x2000, 1, 1, 1, 14, 6, 7].getD r.val 0
    | _ => 0
  mem a := [(0x8000, 1), (0x8004, 6), (0x8008, 7), (0x2004, 77), (0x1004, 5)].lookup a |>.getD 0

theorem doubledActivation_placed : doubledActivation.Placed := by
  have none : ∀ name, isGlobalScalar doubledActivation.table name ≠ true := not_isGlobalScalar (by decide +kernel)
  exact ⟨by decide +kernel, by decide +kernel, by decide +kernel, by decide +kernel, by decide +kernel,
    fun name global => absurd global (none name), fun name _ global => absurd global (none name)⟩

/-- Whether the generator is at the load as it is meant. -/
def isDoubled (b : Body) : Bool :=
  b.function = doubledFunction && b.layout = doubledActivation.layout && b.spare.owners = [] &&
    b.place? doubledTable "g" = some .pointer && agreesWith doubledActivation b.store doubledEnv doubledMachine

theorem isElement_of_isDoubled (doubled : isDoubled b = true) :
    doubledActivation = .whole doubledData doubledTable b.function b.layout 0x7ff0 ∧
      Agrees doubledActivation everything b.store doubledEnv doubledMachine ∧
      IsElement doubledActivation b doubledEnv "g" (.variable "i") 0x2004 := by
  simp only [isDoubled, Bool.and_eq_true, decide_eq_true_eq] at doubled
  obtain ⟨⟨⟨⟨function, layout⟩, owners⟩, pointer⟩, agrees⟩ := doubled
  refine ⟨by rw [function, layout]; rfl, agrees_of_agreesWith agrees (not_isGlobalScalar (by decide +kernel)), ?_⟩
  refine ⟨⟨_, _, pointer, rfl, by decide +kernel⟩, by decide, ?_⟩
  rw [owners]
  exact not_isHome (Nat.zero_le _) (by decide +kernel)

def laterMention : List Quad := [{ op := "=", arg1 := "g", res := "g" }]

/-- A pointer that is mentioned later stays in its register, and the load goes through it. -/
theorem stateAt_accesses_doubled :
    ∃ b c, stateAt {} doubledTable (doubledCode laterMention) 8 = .ok (.inside b) ∧
      stateAt {} doubledTable (doubledCode laterMention) 9 = .ok (.inside c) ∧
      (∀ r, b.store.isUsable r = true → b.store.isFree r = false) ∧
      RunsAccess doubledActivation (siteAt {} doubledTable (doubledCode laterMention) 8) doubledLoad b c doubledEnv
        0x2004 doubledMachine := by
  have decodes : (decodeFrom 0 (doubledCode laterMention)).toOption.isSome = true := by decide +kernel
  obtain ⟨instrs, decoded⟩ := Option.isSome_iff_exists.mp decodes
  have found : (decodeFrom 0 (doubledCode laterMention)).toOption.bind (·[8]?) = some doubledLoad := by decide +kernel
  rw [decoded] at found
  have before : insideWith (fun b => (∀ r, b.store.isUsable r = true → b.store.isFree r = false) ∧
      b.out.warnings.size = 0 ∧ isDoubled b = true ∧
      isGuarded (siteAt {} doubledTable (doubledCode laterMention) 8) (elementNeeds doubledLoad)
        { b with reserved := [], returned := false } "g" = true)
      (stateAt {} doubledTable (doubledCode laterMention) 8) = true := by
    decide +kernel
  have after : insideWith (·.out.warnings.size = 0) (stateAt {} doubledTable (doubledCode laterMention) 9) = true := by
    decide +kernel
  obtain ⟨b, reached, checked⟩ := exists_of_insideWith before
  obtain ⟨c, accepted, silent⟩ := exists_of_insideWith after
  obtain ⟨full, quiet, doubled, guarded⟩ := of_decide_eq_true checked
  obtain ⟨whole, agrees, element⟩ := isElement_of_isDoubled doubled
  exact ⟨b, c, reached, accepted, full, (stateAt_accesses (eq_ok_of_toOption decoded) found rfl reached accepted
    ((of_decide_eq_true silent).trans quiet.symm) whole doubledActivation_placed (fun _ => .inr (.inl guarded)) agrees
    element).2⟩

/-- The pointer loses its register to the index if it is not mentioned later. Then its name stands for the global array,
and the load reads a word of that instead of the element. -/
theorem pointer_mistaken_for_array :
    ∃ b c, stateAt {} doubledTable (doubledCode []) 8 = .ok (.inside b) ∧
      stateAt {} doubledTable (doubledCode []) 9 = .ok (.inside c) ∧ c.out.warnings.size = b.out.warnings.size ∧
      doubledActivation = .whole doubledData doubledTable b.function b.layout 0x7ff0 ∧ doubledActivation.Placed ∧
      Agrees doubledActivation everything b.store doubledEnv doubledMachine ∧
      IsElement doubledActivation b doubledEnv "g" (.variable "i") 0x2004 ∧
      ¬ RunsAccess doubledActivation (siteAt {} doubledTable (doubledCode []) 8) doubledLoad b c doubledEnv 0x2004
        doubledMachine := by
  have decodes : (decodeFrom 0 (doubledCode [])).toOption.isSome = true := by decide +kernel
  obtain ⟨instrs, decoded⟩ := Option.isSome_iff_exists.mp decodes
  have found : (decodeFrom 0 (doubledCode [])).toOption.bind (·[8]?) = some doubledLoad := by decide +kernel
  rw [decoded] at found
  have checked : insideWith (fun b => isDoubled b &&
      insideWith (fun c => c.out.warnings.size = b.out.warnings.size &&
        c.out.lines.toList = b.out.lines.toList ++ ([.lw (.pool 0) (.offset 16 .sp), scaleInstr (.pool 0),
          .lw (.pool 5) (.indexed "g" .address)] : List Asm.Instr).map Line.instr &&
        c.store.entries[8]? = some ⟨"x", none, .single 5, false, false⟩)
        (step (siteAt {} doubledTable (doubledCode []) 8) doubledLoad (.inside b)))
      (stateAt {} doubledTable (doubledCode []) 8) = true := by
    decide +kernel
  obtain ⟨b, reached, checked⟩ := exists_of_insideWith checked
  obtain ⟨doubled, next⟩ := Bool.and_eq_true_iff.mp checked
  obtain ⟨c, steps, checked⟩ := exists_of_insideWith next
  simp only [Bool.and_eq_true, decide_eq_true_eq] at checked
  obtain ⟨⟨quiet, lines⟩, entry⟩ := checked
  obtain ⟨whole, agrees, element⟩ := isElement_of_isDoubled doubled
  have accepted := (stateAt_succ (eq_ok_of_toOption decoded) found).mpr ⟨_, reached, steps⟩
  refine ⟨b, c, reached, accepted, quiet, whole, doubledActivation_placed, agrees, element, fun runs => ?_⟩
  have loaded := runs.loads (r := 5) lines rfl ⟨entry, rfl⟩ rfl (KeySet.mem_single.mpr rfl)
  exact absurd loaded (by decide +kernel)

end Codegen

end ThreeAddress
