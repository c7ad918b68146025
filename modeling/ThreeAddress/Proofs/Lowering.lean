import ThreeAddress.Codegen.Compile
import ThreeAddress.Proofs.Allocation

/-! What the generator does for each kind of instruction, as moves around the instructions that
do the work. -/
namespace ThreeAddress

/-- The variable that an instruction gives a value to. A copy of a variable to itself is none. -/
def Instr.assigned? : Instr → Option String
  | .binary _ _ _ res => some res
  | .unary _ _ res => some res
  | .imm _ res => some res
  | .copy src res => if src = res then none else some res
  | .load _ _ res => some res
  | .loadInd _ res => some res
  | .call _ res => res
  | _ => none

/-- An instruction that neither calls nor is about the flow of control. -/
def Instr.isStraight : Instr → Bool
  | .call _ _ => false
  | .branch _ _ _ => false
  | .goto _ => false
  | .label _ => false
  | .ret _ => false
  | .nop => false
  | _ => true

end ThreeAddress

namespace ThreeAddress.Codegen

open Asm (Line Mem)
open Descriptor (Store Var Entry)

variable {site : Site} {limits : Limits} {b c : Body}

/-! Results -/

/-- An instruction that computes into the register and into nothing else that holds a variable. -/
def isResult (r : Reg) : Asm.Instr → Bool
  | .alu _ dst _ _ => dst = .pool r
  | .aluImm _ dst _ _ => dst = .pool r
  | .lui dst _ => dst = .pool r
  | .mv dst _ => dst = .pool r
  | .mflo dst => dst = .pool r
  | .mfhi dst => dst = .pool r
  | .lw dst _ => dst = .pool r
  | .mult _ _ => true
  | .div _ _ => true
  | .nop => true
  | _ => false

theorem isResult_binary (op : BinaryOp) (r : Reg) (y z : MachineReg) :
    ∀ k ∈ binaryInstrs op (.pool r) y z, isResult r k = true := by
  cases op <;> simp [binaryInstrs, isResult]

theorem isResult_unary (op : UnaryOp) (r : Reg) (y : MachineReg) :
    ∀ k ∈ unaryInstrs op (.pool r) y, isResult r k = true := by
  cases op with
  | plus =>
    simp only [unaryInstrs]
    split <;> simp [isResult]
  | _ => simp [unaryInstrs, isResult]

theorem isResult_immediate (r : Reg) (n : Int) :
    ∀ k ∈ immediateInstrs (.pool r) n, isResult r k = true := by
  unfold immediateInstrs
  split <;> simp [isResult]

theorem isResult_load (options : Options) (r : Reg) (mem : Mem) :
    ∀ k ∈ loadInstrs options (.pool r) mem, isResult r k = true := by
  unfold loadInstrs delay
  split <;> simp [isResult]

/-- The instructions compute the value of a name into the register, which becomes its only
location. -/
inductive Assigned (site : Site) (res : String) (b : Body) (r : Reg) (ks : List Asm.Instr) :
    Body → Prop
  | intro {d : Body} :
      (∀ k ∈ ks, isResult r k = true) → Ready b r res →
      Moves site {} { b with out := b.out.append ks } [] d →
      (∀ q, d.store.held q = b.store.held q) → Ready d r res →
      (d.store.lookup res = none →
        ∀ x, site.table.lookup res = some x → x.isScalar = false) →
      Assigned site res b r ks (d.assign r res)

theorem commit_assigned {res : String} {r : Reg} {ks : List Asm.Instr} (sound : b.store.Sound)
    (ready : Ready b r res) (plain : ∀ k ∈ ks, isResult r k = true)
    (ran : commit site r res { b with out := b.out.append ks } = .ok ((), c)) :
    Assigned site res b r ks c := by
  obtain ⟨d, moves, reserved, held, rfl, absent⟩ : ∃ d, Moves site {} _ [] d ∧ _ :=
    commit_assigns (b := { b with out := b.out.append ks }) sound ran
  refine .intro plain ready moves held ⟨?_, ?_, ?_⟩ absent
  · rw [reserved]
    exact ready.reserved
  · exact (moves.isUsable sound r).trans ready.usable
  · exact moves.owned_of_held sound (held r) ready.owned

theorem Assigned.sound {res : String} {r : Reg} {ks : List Asm.Instr}
    (assigned : Assigned site res b r ks c) (sound : b.store.Sound) : c.store.Sound := by
  cases assigned with
  | intro plain ready moves held after => exact Body.assign_sound (moves.sound sound) after

theorem Assigned.alone {res : String} {r : Reg} {ks : List Asm.Instr}
    (assigned : Assigned site res b r ks c) (sound : b.store.Sound) (alone : Alone b.store) :
    Alone c.store := by
  cases assigned with
  | intro plain ready moves held after =>
    exact Body.assign_alone (moves.sound sound) after (moves.alone sound alone)

/-- An assignment loses no variable that is somewhere. -/
theorem Assigned.retains {res : String} {r : Reg} {ks : List Asm.Instr} {v : Var} {e : Entry Mem}
    (assigned : Assigned site res b r ks c) (sound : b.store.Sound) (known : b.store.Has v e)
    (located : e.home.isSome = true ∨ ∃ q, q ∈ e.regs) : ∃ f, c.store.Has v f ∧ f.name = e.name := by
  cases assigned with
  | @intro d plain ready moves held after absent =>
    have sound' := moves.sound sound
    obtain ⟨f, stays, name⟩ : ∃ f, d.store.Has v f ∧ f.name = e.name := by
      rcases located with homed | ⟨q, listed⟩
      · obtain ⟨f, stays, name, _⟩ := moves.homed_stays sound known homed
        exact ⟨f, stays, name⟩
      · have inside : v ∈ d.store.held q := held q ▸ (sound.listed q v).mpr ⟨e, known.1, listed⟩
        obtain ⟨f, stays, _⟩ := sound'.known_of_held inside
        obtain ⟨g, found, name, _⟩ := moves.entry_name sound known.1
        cases Option.some.inj (stays.1.symm.trans found)
        exact ⟨f, stays, name⟩
    obtain ⟨g, has, same, _⟩ := Body.assign_stays sound' after.owned stays
    exact ⟨g, has, same.trans name⟩

theorem Assigned.kept {res : String} {r : Reg} {ks : List Asm.Instr}
    (assigned : Assigned site res b r ks c) (sound : b.store.Sound)
    (kept : Kept b.store (some res)) : Kept c.store none := by
  cases assigned with
  | intro plain ready moves held after =>
    have wider : Moves site ⟨[], some res, [], 0⟩ _ [] _ :=
      moves.mono ⟨by simp, .inl rfl, by simp, Nat.le_refl 0⟩
    exact Body.assign_kept (moves.sound sound) after.owned (wider.kept sound kept)

/-! Instructions that compute -/

theorem shared?_eq_some {x : Operand} {y : MachineReg} {res : String} {r : Reg}
    (shared : shared? x y res = some r) : x = .variable res ∧ y = .pool r := by
  unfold shared? at shared
  split at shared
  · split at shared
    · rename_i same
      exact ⟨by rw [same], by rw [Option.some.inj shared]⟩
    · contradiction
  · contradiction

theorem Located.ready {needs : Needs} {scratch : MachineReg} {res : String} {r : Reg}
    {is : List Asm.Instr} (located : Located site needs scratch b (.variable res) (.pool r) is c) :
    Ready c r res := by
  cases located with
  | «variable» _ ready => exact ready

theorem binary_ok {op : BinaryOp} {left right : Operand} {res : String} (sound : b.store.Sound)
    (ran : binary site op left right res b = .ok ((), c)) :
    ∃ y z r is js ks b₁ b₂ b₃,
      Located site ⟨right.name?, some res⟩ (.arg 6) b left y is b₁ ∧
      Located site ⟨left.name?, some res⟩ (.arg 7) b₁ right z js b₂ ∧
      Moves site ⟨b₂.reserved, some res, [], 0⟩ b₂ ks b₃ ∧
      Assigned site res b₃ r (binaryInstrs op (.pool r) y z) c := by
  simp only [binary, bind_ok, within_ok] at ran
  obtain ⟨y, b₁, first, z, b₂, second, ran⟩ := ran
  obtain ⟨is, left_at⟩ := operand_located sound first
  have sound₁ := left_at.moves.sound sound
  obtain ⟨js, right_at⟩ := operand_located sound₁ second
  have sound₂ := right_at.moves.sound sound₁
  have finish {r : Reg} {b₃ : Body} {ks : List Asm.Instr}
      (moves : Moves site ⟨b₂.reserved, some res, [], 0⟩ b₂ ks b₃) (ready : Ready b₃ r res)
      (ran : commit site r res
        { b₃ with out := b₃.out.append (binaryInstrs op (.pool r) y z) } = .ok ((), c)) :
      Assigned site res b₃ r (binaryInstrs op (.pool r) y z) c :=
    commit_assigned (moves.sound sound₂) ready (isResult_binary op r y z) ran
  cases shared : shared? left y res with
  | some r =>
    obtain ⟨rfl, rfl⟩ := shared?_eq_some shared
    simp only [shared, bind_ok, pure_ok, emitAll_ok] at ran
    obtain ⟨_, _, ⟨rfl, rfl⟩, _, _, rfl, ran⟩ := ran
    have ready := left_at.ready.moves sound₁ right_at.moves left_at.ready.reserved
    exact ⟨_, z, r, is, js, [], b₁, b₂, b₂, left_at, right_at, .refl b₂, finish (.refl b₂) ready ran⟩
  | none =>
    cases shared' : shared? right z res with
    | some r =>
      obtain ⟨rfl, rfl⟩ := shared?_eq_some shared'
      simp only [shared, shared', bind_ok, pure_ok, emitAll_ok] at ran
      obtain ⟨_, _, ⟨rfl, rfl⟩, _, _, rfl, ran⟩ := ran
      exact ⟨y, _, r, is, js, [], b₁, b₂, b₂, left_at, right_at, .refl b₂,
        finish (.refl b₂) right_at.ready ran⟩
    | none =>
      simp only [shared, shared', bind_ok, within_ok, emitAll_ok] at ran
      obtain ⟨r, b₃, taken, _, _, rfl, ran⟩ := ran
      obtain ⟨⟨ks, moves⟩, taken⟩ := acquire_moves sound₂ taken
      exact ⟨y, z, r, is, js, ks, b₁, b₂, b₃, left_at, right_at, moves,
        finish moves (taken.ready (moves.sound sound₂)) ran⟩

theorem unary_ok {op : UnaryOp} {x : Operand} {res : String} (sound : b.store.Sound)
    (ran : unary site op x res b = .ok ((), c)) :
    ∃ y r is js b₁ b₂, Located site ⟨none, some res⟩ (.arg 6) b x y is b₁ ∧
      Moves site ⟨b₁.reserved, some res, [], 0⟩ b₁ js b₂ ∧
      Assigned site res b₂ r (unaryInstrs op (.pool r) y) c := by
  simp only [unary, bind_ok] at ran
  obtain ⟨y, b₁, first, ran⟩ := ran
  obtain ⟨is, located⟩ := operand_located sound first
  have sound₁ := located.moves.sound sound
  cases shared : shared? x y res with
  | some r =>
    obtain ⟨rfl, rfl⟩ := shared?_eq_some shared
    simp only [shared, bind_ok, pure_ok, emitAll_ok] at ran
    obtain ⟨_, _, ⟨rfl, rfl⟩, _, _, rfl, ran⟩ := ran
    exact ⟨_, r, is, [], b₁, b₁, located, .refl b₁,
      commit_assigned sound₁ located.ready (isResult_unary op r _) ran⟩
  | none =>
    simp only [shared, bind_ok, within_ok, emitAll_ok] at ran
    obtain ⟨r, b₂, taken, _, _, rfl, ran⟩ := ran
    obtain ⟨⟨js, moves⟩, taken⟩ := acquire_moves sound₁ taken
    have sound₂ := moves.sound sound₁
    exact ⟨y, r, is, js, b₁, b₂, located, moves,
      commit_assigned sound₂ (taken.ready sound₂) (isResult_unary op r y) ran⟩

theorem immediate_ok {n : Int} {res : String} (sound : b.store.Sound)
    (ran : immediate site n res b = .ok ((), c)) :
    ∃ r is b₁, Moves site ⟨b.reserved, some res, [], 0⟩ b is b₁ ∧
      Assigned site res b₁ r (immediateInstrs (.pool r) n) c := by
  simp only [immediate, bind_ok, emitAll_ok] at ran
  obtain ⟨r, b₁, taken, _, _, rfl, ran⟩ := ran
  obtain ⟨⟨is, moves⟩, taken⟩ := acquire_moves sound taken
  have sound₁ := moves.sound sound
  exact ⟨r, is, b₁, moves,
    commit_assigned sound₁ (taken.ready sound₁) (isResult_immediate r n) ran⟩

theorem copy_ok {src res : String} (sound : b.store.Sound)
    (ran : copy site src res b = .ok ((), c)) :
    (src = res ∧ b = c) ∨
    src ≠ res ∧ ∃ y r is js b₁ b₂, Located site ⟨none, some res⟩ (.arg 6) b (.variable src) (.pool y) is b₁ ∧
      Moves site ⟨b₁.reserved, some res, [], 0⟩ b₁ js b₂ ∧
      Assigned site res b₂ r [.mv (.pool r) (.pool y)] c := by
  simp only [copy] at ran
  split at ran
  · exact .inl ⟨‹_›, (pure_ok.mp ran).2⟩
  · rename_i other
    simp only [bind_ok, within_ok, emitInstr_ok] at ran
    obtain ⟨y, b₁, filled, r, b₂, taken, _, _, rfl, ran⟩ := ran
    obtain ⟨⟨is, moves⟩, ready, resides⟩ := loaded_moves sound filled
    have sound₁ := moves.sound sound
    obtain ⟨⟨js, moves'⟩, taken⟩ := acquire_moves sound₁ taken
    have sound₂ := moves'.sound sound₁
    exact .inr ⟨other, y, r, is, js, b₁, b₂, .variable moves ready resides, moves',
      commit_assigned sound₂ (taken.ready sound₂) (by simp [isResult]) ran⟩

/-! Elements and pointers -/

theorem arrayPlace_reads {array : String} {place : ArrayPlace}
    (ran : arrayPlace site array b = .ok (place, c)) : b = c := by
  simp only [arrayPlace, bind_ok, get_ok] at ran
  obtain ⟨_, _, ⟨rfl, rfl⟩, ran⟩ := ran
  cases declared : b.arrays.lookup array with
  | some place =>
    simp only [declared] at ran
    exact (pure_ok.mp ran).2
  | none =>
    cases known : b.store.lookup array with
    | some v =>
      simp only [declared, known] at ran
      exact (pure_ok.mp ran).2
    | none =>
      cases symbol : site.table.lookup array with
      | none =>
        simp only [declared, known, symbol] at ran
        exact (failWith_ok.mp ran).elim
      | some x =>
        simp only [declared, known, symbol] at ran
        split at ran
        · exact (pure_ok.mp ran).2
        · split at ran
          · exact (pure_ok.mp ran).2
          · exact (failWith_ok.mp ran).elim

/-- A word whose address is in a register other than the stack pointer. -/
def isPointed : Mem → Bool
  | .global _ => false
  | .offset _ base => base ≠ .sp
  | .indexed _ index => index ≠ .sp

theorem element_isPointed {array : String} {index : Operand} {needs : Needs} {mem : Mem}
    (ran : element site array index needs b = .ok (mem, c)) : isPointed mem = true := by
  simp only [element, bind_ok] at ran
  obtain ⟨_, _, _, _, _, _, place, _, _, ran⟩ := ran
  cases place with
  | global =>
    obtain ⟨rfl, _⟩ := pure_ok.mp ran
    rfl
  | frame offset =>
    simp only [bind_ok, pure_ok] at ran
    obtain ⟨_, _, _, rfl, _⟩ := ran
    rfl
  | pointer =>
    simp only [bind_ok, pure_ok] at ran
    obtain ⟨_, _, _, _, _, _, rfl, _⟩ := ran
    rfl

/-- The address of an element is computed in the scratch registers. -/
theorem element_moves {array : String} {index : Operand} {needs : Needs} {mem : Mem}
    (sound : b.store.Sound) (ran : element site array index needs b = .ok (mem, c)) :
    ∃ is, Moves site ⟨b.reserved, needs.res, [6, 7], 0⟩ b is c := by
  simp only [element, bind_ok, within_ok, emitInstr_ok] at ran
  obtain ⟨i, b₁, first, _, _, rfl, place, _, placed, ran⟩ := ran
  obtain rfl := arrayPlace_reads placed
  obtain ⟨is, located⟩ := operand_located sound first
  have moves : Moves site ⟨b.reserved, needs.res, [6, 7], 0⟩ b is b₁ :=
    located.moves.mono ⟨fun _ member => member, .inr rfl, by simp, Nat.le_refl 0⟩
  have scale : Move site ⟨b.reserved, needs.res, [6, 7], 0⟩ b₁ [.aluImm .sll .address i 2] _ :=
    .scratch (by simp [isScratch, MachineReg.address])
  have scaled := moves.trans (.one scale)
  cases place with
  | global =>
    obtain ⟨_, rfl⟩ := pure_ok.mp ran
    exact ⟨_, scaled⟩
  | frame offset =>
    simp only [bind_ok, emitInstr_ok, pure_ok] at ran
    obtain ⟨_, _, rfl, _, rfl⟩ := ran
    exact ⟨_, scaled.trans (.one (.scratch (by simp [isScratch, MachineReg.address])))⟩
  | pointer =>
    simp only [bind_ok, within_ok, emitInstr_ok, pure_ok] at ran
    obtain ⟨base, d, filled, _, _, rfl, _, rfl⟩ := ran
    obtain ⟨⟨js, loads⟩, _⟩ := loaded_moves (scaled.sound sound) filled
    have loads : Moves site ⟨b.reserved, needs.res, [6, 7], 0⟩ _ js d :=
      loads.mono ⟨scaled.reserved, .inr rfl, by simp, Nat.le_refl 0⟩
    exact ⟨_, (scaled.trans loads).trans (.one (.scratch (by simp [isScratch, MachineReg.address])))⟩

theorem loadElement_ok {array res : String} {index : Operand} (sound : b.store.Sound)
    (ran : loadElement site array index res b = .ok ((), c)) :
    ∃ r is b₁ mem, Moves site ⟨b.reserved, some res, [6, 7], 0⟩ b is b₁ ∧
      Assigned site res b₁ r (loadInstrs site.options (.pool r) mem) c := by
  simp only [loadElement, bind_ok, within_ok, emitAll_ok] at ran
  obtain ⟨mem, b₁, addressed, r, b₂, taken, _, _, rfl, ran⟩ := ran
  obtain ⟨is, moves⟩ := element_moves sound addressed
  have sound₁ := moves.sound sound
  obtain ⟨⟨js, moves'⟩, taken⟩ := acquire_moves sound₁ taken
  have sound₂ := moves'.sound sound₁
  have moves' : Moves site ⟨b.reserved, some res, [6, 7], 0⟩ b₁ js b₂ :=
    moves'.mono ⟨moves.reserved, .inr rfl, by simp, Nat.le_refl 0⟩
  exact ⟨r, _, b₂, mem, moves.trans moves',
    commit_assigned sound₂ (taken.ready sound₂) (isResult_load site.options r mem) ran⟩

theorem loadIndirect_ok {pointer res : String} (sound : b.store.Sound)
    (ran : loadIndirect site pointer res b = .ok ((), c)) :
    ∃ r is b₁ mem, Moves site ⟨b.reserved, some res, [6, 7], 0⟩ b is b₁ ∧
      Assigned site res b₁ r (loadInstrs site.options (.pool r) mem) c := by
  simp only [loadIndirect, bind_ok, within_ok, emitAll_ok] at ran
  obtain ⟨p, b₁, filled, r, b₂, taken, _, _, rfl, ran⟩ := ran
  obtain ⟨⟨is, moves⟩, _⟩ := loaded_moves sound filled
  have sound₁ := moves.sound sound
  obtain ⟨⟨js, moves'⟩, taken⟩ := acquire_moves sound₁ taken
  have sound₂ := moves'.sound sound₁
  have both : Moves site ⟨b.reserved, some res, [], 0⟩ b (is ++ js) b₂ :=
    moves.trans (moves'.mono ⟨moves.reserved, .inr rfl, by simp, Nat.le_refl 0⟩)
  exact ⟨r, _, b₂, _, both.mono ⟨fun _ member => member, .inr rfl, by simp, Nat.le_refl 0⟩,
    commit_assigned sound₂ (taken.ready sound₂) (isResult_load site.options r _) ran⟩

theorem storeElement_ok {array : String} {index value : Operand} (sound : b.store.Sound)
    (ran : storeElement site array index value b = .ok ((), c)) :
    ∃ is b₁ x mem, Moves site ⟨b.reserved, none, [6, 7], 0⟩ b is b₁ ∧ isPointed mem = true ∧
      c = { b₁ with out := b₁.out.append [.sw x mem] } := by
  simp only [storeElement, bind_ok, within_ok, emitInstr_ok] at ran
  obtain ⟨mem, b₁, addressed, x, b₂, filled, rfl⟩ := ran
  obtain ⟨is, moves⟩ := element_moves sound addressed
  obtain ⟨js, located⟩ := operand_located (moves.sound sound) filled
  have loads : Moves site ⟨b.reserved, none, [6, 7], 0⟩ b₁ js b₂ :=
    located.moves.mono ⟨moves.reserved, .inr rfl, by simp, Nat.le_refl 0⟩
  exact ⟨_, b₂, x, mem, moves.trans loads, element_isPointed addressed, rfl⟩

theorem storeIndirect_ok {pointer : String} {value : Operand} (sound : b.store.Sound)
    (ran : storeIndirect site pointer value b = .ok ((), c)) :
    ∃ is b₁ x mem, Moves site ⟨b.reserved, none, [6, 7], 0⟩ b is b₁ ∧ isPointed mem = true ∧
      c = { b₁ with out := b₁.out.append [.sw x mem] } := by
  simp only [storeIndirect, bind_ok, within_ok, emitInstr_ok] at ran
  obtain ⟨p, b₁, filled, x, b₂, filled', rfl⟩ := ran
  obtain ⟨⟨is, moves⟩, _⟩ := loaded_moves sound filled
  have moves : Moves site ⟨b.reserved, none, [6, 7], 0⟩ b is b₁ :=
    moves.mono ⟨fun _ member => member, .inr rfl, by simp, Nat.le_refl 0⟩
  obtain ⟨js, located⟩ := operand_located (moves.sound sound) filled'
  have loads : Moves site ⟨b.reserved, none, [6, 7], 0⟩ b₁ js b₂ :=
    located.moves.mono ⟨moves.reserved, .inr rfl, by simp, Nat.le_refl 0⟩
  exact ⟨_, b₂, x, _, moves.trans loads, rfl, rfl⟩

/-! Instructions inside of a block -/

/-- The flush behind an instruction inside of a block. -/
def flushBehind (site : Site) : Step Unit :=
  if site.options.flushEach then do
    writeBack
    evictHomed
  else pure ()

theorem flushBehind_moves (sound : b.store.Sound) (ran : flushBehind site b = .ok ((), c)) :
    ∃ is, Moves site {} b is c := by
  unfold flushBehind at ran
  split at ran
  · simp only [bind_ok] at ran
    obtain ⟨_, e, wrote, evicted⟩ := ran
    obtain ⟨⟨is, moves, _⟩, _, clean⟩ : (∃ is, Moves site {} b is e ∧ _) ∧ _ := writeBack_moves wrote
    exact ⟨_, moves.trans (evictHomed_moves (moves.sound sound) clean evicted)⟩
  · obtain ⟨_, rfl⟩ := pure_ok.mp ran
    exact ⟨[], .refl b⟩

theorem straight_ok {x : Step Unit} (ran : straight site x b = .ok ((), c)) :
    ∃ d, x b = .ok ((), d) ∧ (d.store.Sound → ∃ is, Moves site {} d is c) := by
  obtain ⟨_, d, first, rest⟩ := bind_ok.mp ran
  exact ⟨d, first, fun sound => flushBehind_moves sound rest⟩

/-- What an instruction inside of a block does: it moves, and then gives a variable a value,
stores a word somewhere, or lets an argument wait. -/
inductive Effect (site : Site) (b : Body) : Option String → List Asm.Instr → Body → Prop
  | nothing : Effect site b none [] b
  | result {d c : Body} {res : String} {r : Reg} {is ks : List Asm.Instr} :
      Moves site ⟨b.reserved, some res, [6, 7], 0⟩ b is d → Assigned site res d r ks c →
      Effect site b (some res) (is ++ ks) c
  | write {d : Body} {x : MachineReg} {mem : Mem} {is : List Asm.Instr} :
      Moves site ⟨b.reserved, none, [6, 7], 0⟩ b is d → isPointed mem = true →
      Effect site b none (is ++ [.sw x mem]) { d with out := d.out.append [.sw x mem] }
  | queue (x : Operand) : Effect site b none [] { b with pending := b.pending ++ [x] }

theorem Effect.sound {name : Option String} {is : List Asm.Instr} (effect : Effect site b name is c)
    (sound : b.store.Sound) : c.store.Sound := by
  cases effect with
  | nothing => exact sound
  | result moves assigned => exact assigned.sound (moves.sound sound)
  | write moves => exact moves.sound sound
  | queue => exact sound

theorem Effect.alone {name : Option String} {is : List Asm.Instr} (effect : Effect site b name is c)
    (sound : b.store.Sound) (alone : Alone b.store) : Alone c.store := by
  cases effect with
  | nothing => exact alone
  | result moves assigned => exact assigned.alone (moves.sound sound) (moves.alone sound alone)
  | write moves => exact moves.alone sound alone
  | queue => exact alone

theorem Kept.some {s : Store Mem} (kept : Kept s none) (name : String) : Kept s (some name) :=
  fun v e known _ => kept v e known (by simp)

theorem Effect.kept {name : Option String} {is : List Asm.Instr} (effect : Effect site b name is c)
    (sound : b.store.Sound) (kept : Kept b.store none) : Kept c.store none := by
  cases effect with
  | nothing => exact kept
  | result moves assigned => exact assigned.kept (moves.sound sound) (moves.kept sound (kept.some _))
  | write moves => exact moves.kept sound kept
  | queue => exact kept

theorem binary_effect {op : BinaryOp} {left right : Operand} {res : String} (sound : b.store.Sound)
    (ran : binary site op left right res b = .ok ((), c)) :
    ∃ is, Effect site b (some res) is c := by
  obtain ⟨y, z, r, is, js, ks, b₁, b₂, b₃, left_at, right_at, moves, assigned⟩ := binary_ok sound ran
  have first : Moves site ⟨b.reserved, some res, [6, 7], 0⟩ b is b₁ :=
    left_at.moves.mono ⟨fun _ member => member, .inr rfl, by simp, Nat.le_refl 0⟩
  have second : Moves site ⟨b.reserved, some res, [6, 7], 0⟩ b₁ js b₂ :=
    right_at.moves.mono ⟨first.reserved, .inr rfl, by simp, Nat.le_refl 0⟩
  have third : Moves site ⟨b.reserved, some res, [6, 7], 0⟩ b₂ ks b₃ :=
    moves.mono ⟨(first.trans second).reserved, .inr rfl, by simp, Nat.le_refl 0⟩
  exact ⟨_, .result ((first.trans second).trans third) assigned⟩

theorem unary_effect {op : UnaryOp} {x : Operand} {res : String} (sound : b.store.Sound)
    (ran : unary site op x res b = .ok ((), c)) : ∃ is, Effect site b (some res) is c := by
  obtain ⟨y, r, is, js, b₁, b₂, located, moves, assigned⟩ := unary_ok sound ran
  have first : Moves site ⟨b.reserved, some res, [6, 7], 0⟩ b is b₁ :=
    located.moves.mono ⟨fun _ member => member, .inr rfl, by simp, Nat.le_refl 0⟩
  have second : Moves site ⟨b.reserved, some res, [6, 7], 0⟩ b₁ js b₂ :=
    moves.mono ⟨first.reserved, .inr rfl, by simp, Nat.le_refl 0⟩
  exact ⟨_, .result (first.trans second) assigned⟩

theorem copy_effect {src res : String} (sound : b.store.Sound)
    (ran : copy site src res b = .ok ((), c)) :
    ∃ is, Effect site b (Instr.copy src res).assigned? is c := by
  simp only [Instr.assigned?]
  rcases copy_ok sound ran with ⟨same, rfl⟩ | ⟨other, y, r, is, js, b₁, b₂, located, moves, assigned⟩
  · rw [if_pos same]
    exact ⟨[], .nothing⟩
  · rw [if_neg other]
    have first : Moves site ⟨b.reserved, some res, [6, 7], 0⟩ b is b₁ :=
      located.moves.mono ⟨fun _ member => member, .inr rfl, by simp, Nat.le_refl 0⟩
    have second : Moves site ⟨b.reserved, some res, [6, 7], 0⟩ b₁ js b₂ :=
      moves.mono ⟨first.reserved, .inr rfl, by simp, Nat.le_refl 0⟩
    exact ⟨_, .result (first.trans second) assigned⟩

/-- An instruction inside of a block has its effect, and then it may flush. -/
theorem lower_steps {x : Instr} (straight : x.isStraight = true) (sound : b.store.Sound)
    (ran : lower site x b = .ok ((), c)) :
    ∃ d is, Effect site b x.assigned? is d ∧ flushBehind site d = .ok ((), c) := by
  have finish {y : Step Unit} (ran : Codegen.straight site y b = .ok ((), c))
      (effect : ∀ d, y b = .ok ((), d) → ∃ is, Effect site b x.assigned? is d) :
      ∃ d is, Effect site b x.assigned? is d ∧ flushBehind site d = .ok ((), c) := by
    obtain ⟨_, d, first, rest⟩ := bind_ok.mp ran
    obtain ⟨is, effect⟩ := effect d first
    exact ⟨d, is, effect, rest⟩
  cases x with
  | binary op left right res => exact finish ran fun d first => binary_effect sound first
  | unary op x res => exact finish ran fun d first => unary_effect sound first
  | imm n res =>
    refine finish ran fun d first => ?_
    obtain ⟨r, is, b₁, moves, assigned⟩ := immediate_ok sound first
    have moves : Moves site ⟨b.reserved, some res, [6, 7], 0⟩ b is b₁ :=
      moves.mono ⟨fun _ member => member, .inr rfl, by simp, Nat.le_refl 0⟩
    exact ⟨_, .result moves assigned⟩
  | copy src res => exact finish ran fun d first => copy_effect sound first
  | load array index res =>
    refine finish ran fun d first => ?_
    obtain ⟨r, is, b₁, mem, moves, assigned⟩ := loadElement_ok sound first
    exact ⟨_, .result moves assigned⟩
  | store array index value =>
    refine finish ran fun d first => ?_
    obtain ⟨is, b₁, x, mem, moves, pointed, rfl⟩ := storeElement_ok sound first
    exact ⟨_, .write moves pointed⟩
  | loadInd pointer res =>
    refine finish ran fun d first => ?_
    obtain ⟨r, is, b₁, mem, moves, assigned⟩ := loadIndirect_ok sound first
    exact ⟨_, .result moves assigned⟩
  | storeInd pointer value =>
    refine finish ran fun d first => ?_
    obtain ⟨is, b₁, x, mem, moves, pointed, rfl⟩ := storeIndirect_ok sound first
    exact ⟨_, .write moves pointed⟩
  | param x =>
    refine finish ran fun d first => ?_
    obtain rfl := modify_ok.mp first
    exact ⟨_, .queue x⟩
  | _ => simp [Instr.isStraight] at straight

/-- Every instruction inside of a block has an effect, and moves follow it. -/
theorem lower_effect {x : Instr} (straight : x.isStraight = true) (sound : b.store.Sound)
    (ran : lower site x b = .ok ((), c)) :
    ∃ d is js, Effect site b x.assigned? is d ∧ Moves site {} d js c := by
  obtain ⟨d, is, effect, rest⟩ := lower_steps straight sound ran
  obtain ⟨js, moves⟩ := flushBehind_moves (effect.sound sound) rest
  exact ⟨d, is, js, effect, moves⟩

/-! Flow of control -/

/-- What a flush leaves behind: it only stores, and every register is empty after it. -/
structure Flushed (site : Site) (b : Body) (is : List Asm.Instr) (c : Body) : Prop where
  moves : Moves site {} b is c
  stores : ∀ x ∈ is, isStore x = true
  empty : ∀ r w, w ∉ c.store.held r

theorem flush_flushed (sound : b.store.Sound) (ran : flush b = .ok ((), c)) :
    ∃ is, Flushed site b is c := by
  obtain ⟨⟨is, moves, stores⟩, empty, _⟩ := flush_moves sound ran
  exact ⟨is, moves, stores, empty⟩

theorem branch_ok {cond : Operand} {ifTrue : Bool} {target : String} (sound : b.store.Sound)
    (ran : branch site cond ifTrue target b = .ok ((), c)) :
    ∃ y is js b₁ b₂, Located site {} (.arg 6) b cond y is b₁ ∧ Flushed site b₁ js b₂ ∧
      c = { b₂ with out := b₂.out.append (jumpInstrs site.options
        (if ifTrue = true then .bne y .zero target else .beq y .zero target)) } := by
  simp only [branch, bind_ok, emitAll_ok] at ran
  obtain ⟨y, b₁, first, _, b₂, flushed, rfl⟩ := ran
  obtain ⟨is, located⟩ := operand_located sound first
  obtain ⟨js, flushed⟩ := flush_flushed (located.moves.sound sound) flushed
  exact ⟨y, is, js, b₁, b₂, located, flushed, rfl⟩

theorem jump_ok {target : String} (sound : b.store.Sound)
    (ran : jump site target b = .ok ((), c)) :
    ∃ is b₁, Flushed site b is b₁ ∧
      c = { b₁ with out := b₁.out.append (jumpInstrs site.options (.j target)) } := by
  simp only [jump, bind_ok, emitAll_ok] at ran
  obtain ⟨_, b₁, flushed, rfl⟩ := ran
  obtain ⟨is, flushed⟩ := flush_flushed sound flushed
  exact ⟨is, b₁, flushed, rfl⟩

theorem label_ok {l : Label} (sound : b.store.Sound) (ran : lower site (.label l) b = .ok ((), c)) :
    ∃ is b₁, Flushed site b is b₁ ∧ c = { b₁ with out := b₁.out.push (.label l.name) } := by
  simp only [lower, emit, bind_ok, modify_ok] at ran
  obtain ⟨_, b₁, flushed, rfl⟩ := ran
  obtain ⟨is, flushed⟩ := flush_flushed sound flushed
  exact ⟨is, b₁, flushed, rfl⟩

/-- What is copied into the result register before a return. -/
inductive Returned (site : Site) (b : Body) : Option Operand → List Asm.Instr → Body → Prop
  | nothing : Returned site b none [] b
  | value {x : Operand} {is : List Asm.Instr} {c : Body} :
      Copied site 0 b x is c → Returned site b (some x) is c

def copyResult (site : Site) : Option Operand → Step Unit
  | some x => copyTo site .result x
  | none => pure ()

/-- A return has its value in the result register before it flushes. -/
theorem ret_steps {x : Option Operand} (ran : ret site x b = .ok ((), c)) :
    ∃ d, copyResult site x b = .ok ((), d) ∧ (do
      flush
      emitAll (epilogue site.options (← get).layout)
      modify fun b => { b with returned := true } : Step Unit) d = .ok ((), c) := by
  cases x with
  | none => exact ⟨b, rfl, ran⟩
  | some x =>
    obtain ⟨_, d, copies, ran⟩ := bind_ok.mp ran
    exact ⟨d, copies, ran⟩

theorem copyResult_returned {x : Option Operand} (sound : b.store.Sound)
    (ran : copyResult site x b = .ok ((), c)) : ∃ is, Returned site b x is c := by
  cases x with
  | none =>
    obtain ⟨_, rfl⟩ := pure_ok.mp ran
    exact ⟨[], .nothing⟩
  | some x =>
    obtain ⟨⟨is, copied⟩, _⟩ := copyTo_copied sound ran
    exact ⟨is, .value copied⟩

theorem Returned.sound {x : Option Operand} {is : List Asm.Instr} (returned : Returned site b x is c)
    (sound : b.store.Sound) : c.store.Sound := by
  cases returned with
  | nothing => exact sound
  | value copied => exact copied.moves.sound sound

theorem ret_ok {x : Option Operand} (sound : b.store.Sound) (ran : ret site x b = .ok ((), c)) :
    ∃ is js b₁ b₂, Returned site b x is b₁ ∧ Flushed site b₁ js b₂ ∧
      c = { b₂ with out := b₂.out.append (epilogue site.options b₂.layout), returned := true } := by
  obtain ⟨b₁, copies, rest⟩ := ret_steps ran
  obtain ⟨is, returned⟩ := copyResult_returned sound copies
  simp only [bind_ok, get_ok, emitAll_ok, modify_ok] at rest
  obtain ⟨_, b₂, flushed, _, _, ⟨rfl, rfl⟩, _, _, rfl, rfl⟩ := rest
  obtain ⟨js, flushed⟩ := flush_flushed (returned.sound sound) flushed
  exact ⟨is, js, b₁, b₂, returned, flushed, rfl⟩

theorem leave_ok (sound : b.store.Sound) (ran : leave site b = .ok ((), c)) :
    ∃ is b₁, Flushed site b is b₁ ∧
      c = { b₁ with
        out := b₁.out.append (if b₁.returned = true then [] else epilogue site.options b₁.layout) } := by
  simp only [leave, bind_ok, get_ok] at ran
  obtain ⟨_, b₁, flushed, _, _, ⟨rfl, rfl⟩, ran⟩ := ran
  obtain ⟨is, flushed⟩ := flush_flushed sound flushed
  refine ⟨is, b₁, flushed, ?_⟩
  split at ran
  · rename_i returned
    rw [if_pos returned]
    exact (pure_ok.mp ran).2.symm
  · rename_i returned
    rw [if_neg returned]
    exact (emitAll_ok.mp ran).symm

end ThreeAddress.Codegen
