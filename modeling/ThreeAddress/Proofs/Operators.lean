import ThreeAddress.Proofs.Execution
import ThreeAddress.Proofs.Positions

/-! Values of operators and immediates. Their instructions leave them in the result register, whatever registers the
operands are in, and change nothing else. -/
namespace ThreeAddress

/-! Values as integers and bits -/

/-- The word is the value of the operator. Sums, differences, products and quotients wrap around; comparisons are
signed; a shift goes by the low five bits and fills up with zeros; division goes towards zero. -/
def BinaryOp.Means (y z w : Word) : BinaryOp → Prop
  | .add => w.toInt = (y.toInt + z.toInt).bmod (2 ^ 32)
  | .sub => w.toInt = (y.toInt - z.toInt).bmod (2 ^ 32)
  | .and => ∀ i, w.getLsbD i = (y.getLsbD i && z.getLsbD i)
  | .or => ∀ i, w.getLsbD i = (y.getLsbD i || z.getLsbD i)
  | .xor => ∀ i, w.getLsbD i = (y.getLsbD i != z.getLsbD i)
  | .shl => w.toNat = y.toNat * 2 ^ (z.toNat % 32) % 2 ^ 32
  | .shr => w.toNat = y.toNat / 2 ^ (z.toNat % 32)
  | .eq => w.toInt = if y.toInt = z.toInt then 1 else 0
  | .ne => w.toInt = if y.toInt = z.toInt then 0 else 1
  | .lt => w.toInt = if y.toInt < z.toInt then 1 else 0
  | .gt => w.toInt = if y.toInt > z.toInt then 1 else 0
  | .le => w.toInt = if y.toInt ≤ z.toInt then 1 else 0
  | .ge => w.toInt = if y.toInt ≥ z.toInt then 1 else 0
  | .mul => w.toInt = (y.toInt * z.toInt).bmod (2 ^ 32)
  | .div => w.toInt = (y.toInt.tdiv z.toInt).bmod (2 ^ 32)
  | .mod => w.toInt = y.toInt.tmod z.toInt

def UnaryOp.Means (y w : Word) : UnaryOp → Prop
  | .neg => w.toInt = (-y.toInt).bmod (2 ^ 32)
  | .bitNot => ∀ i, i < 32 → w.getLsbD i = !y.getLsbD i
  | .not => w.toInt = if y.toInt = 0 then 1 else 0
  | .plus => w.toInt = y.toInt

def BinaryOp.isDivision : BinaryOp → Bool
  | .div => true
  | .mod => true
  | _ => false

theorem toInt_truth (p : Bool) : (truth p).toInt = if p then 1 else 0 := by
  cases p <;> rfl

theorem BinaryOp.means_of_eval {op : BinaryOp} {y z w : Word} (value : op.eval y z = some w) :
    op.Means y z w := by
  cases op with
  | add =>
    cases Option.some.inj value
    exact BitVec.toInt_add y z
  | sub =>
    cases Option.some.inj value
    exact BitVec.toInt_sub
  | mul =>
    cases Option.some.inj value
    exact BitVec.toInt_mul y z
  | and =>
    cases Option.some.inj value
    exact fun i => BitVec.getLsbD_and
  | or =>
    cases Option.some.inj value
    exact fun i => BitVec.getLsbD_or
  | xor =>
    cases Option.some.inj value
    exact fun i => BitVec.getLsbD_xor
  | shl =>
    cases Option.some.inj value
    exact (BitVec.toNat_shiftLeft ..).trans (by rw [Nat.shiftLeft_eq])
  | shr =>
    cases Option.some.inj value
    exact (BitVec.toNat_ushiftRight ..).trans (Nat.shiftRight_eq_div_pow ..)
  | eq | ne =>
    cases Option.some.inj value
    simp [Means, toInt_truth, BitVec.toInt_inj]
  | lt | gt =>
    cases Option.some.inj value
    simp [Means, toInt_truth, BitVec.slt_eq_decide]
  | le | ge =>
    cases Option.some.inj value
    simp [Means, toInt_truth, BitVec.sle_eq_decide]
  | div =>
    simp only [eval] at value
    split at value
    · contradiction
    · cases Option.some.inj value
      exact BitVec.toInt_sdiv y z
  | mod =>
    simp only [eval] at value
    split at value
    · contradiction
    · cases Option.some.inj value
      exact BitVec.toInt_srem y z

theorem BinaryOp.exists_eval {op : BinaryOp} {y z : Word} (nonzero : op.isDivision = true → z ≠ 0) :
    ∃ w, op.eval y z = some w := by
  cases op with
  | div | mod => exact ⟨_, if_neg (nonzero rfl)⟩
  | _ => exact ⟨_, rfl⟩

theorem UnaryOp.means_eval (op : UnaryOp) (y : Word) : op.Means y (op.eval y) := by
  cases op with
  | neg => exact BitVec.toInt_neg
  | bitNot =>
    intro i bound
    simp [eval, bound]
  | not =>
    have zero : y.toInt = 0 ↔ y = 0 := by
      rw [← BitVec.toInt_inj]
      simp
    simp [Means, eval, toInt_truth, zero]
  | plus => rfl

/-! Execution -/

/-- Nothing but the register has changed. -/
structure Machine.Sets (m : Machine) (r : MachineReg) (m' : Machine) : Prop where
  others : ∀ q, q ≠ r → m'.read q = m.read q
  mem : m'.mem = m.mem

namespace Codegen

variable {data : Data} {m m' : Machine}

theorem sets_of_execAll {is : List Asm.Instr} {r : MachineReg} (ran : m.execAll data is = some m')
    (targets : ∀ i ∈ is, ∀ q, q ≠ r → i.target? ≠ some q) (plain : ∀ src dst, .sw src dst ∉ is) :
    m.Sets r m' :=
  ⟨fun q other => Machine.execAll_read ran fun i member => targets i member q other,
    Machine.execAll_mem ran plain⟩

theorem sets_of_isResult {is : List Asm.Instr} {r : Reg} (ran : m.execAll data is = some m')
    (results : ∀ i ∈ is, isResult r i = true) : m.Sets (.pool r) m' := by
  refine sets_of_execAll ran (fun i member q other => isResult_target (results i member) other) ?_
  intro src dst member
  simpa [isResult] using results _ member

theorem binary_computes {op : BinaryOp} (r : Reg) {y z : MachineReg}
    (nonzero : op.isDivision = true → m.read z ≠ 0) :
    ∃ m', m.execAll data (binaryInstrs op (.pool r) y z) = some m' ∧ m.Sets (.pool r) m' ∧
      op.Means (m.read y) (m.read z) (m'.read (.pool r)) := by
  obtain ⟨w, value⟩ := BinaryOp.exists_eval (y := m.read y) nonzero
  obtain ⟨m', ran, same⟩ : ∃ m', m.execAll data (binaryInstrs op (.pool r) y z) = some m' ∧ _ := binary_exec value
  exact ⟨m', ran, sets_of_isResult ran (isResult_binary op r y z), same ▸ BinaryOp.means_of_eval value⟩

theorem unary_computes (op : UnaryOp) (r : Reg) (y : MachineReg) :
    ∃ m', m.execAll data (unaryInstrs op (.pool r) y) = some m' ∧ m.Sets (.pool r) m' ∧
      op.Means (m.read y) (m'.read (.pool r)) := by
  obtain ⟨m', ran, same⟩ : ∃ m', m.execAll data (unaryInstrs op (.pool r) y) = some m' ∧ _ := unary_exec op r y m
  exact ⟨m', ran, sets_of_isResult ran (isResult_unary op r y), same ▸ op.means_eval _⟩

theorem immediateInRange_iff {n : Int} : Instr.immediateInRange n = true ↔ -2 ^ 31 ≤ n ∧ n ≤ 2 ^ 31 - 1 := by
  simp only [Instr.immediateInRange, Bool.and_eq_true, decide_eq_true_eq]
  omega

theorem immediateInstrs_target {dst q : MachineReg} {n : Int} (other : dst ≠ q) :
    ∀ i ∈ immediateInstrs dst n, i.target? ≠ some q := by
  unfold immediateInstrs
  split <;> simp [Asm.Instr.target?, other]

theorem immediate_computes {dst : MachineReg} {n : Int} (real : dst ≠ .zero)
    (range : Instr.immediateInRange n = true) :
    ∃ m', m.execAll data (immediateInstrs dst n) = some m' ∧ m.Sets dst m' ∧ (m'.read dst).toInt = n := by
  obtain ⟨m', ran, same⟩ : ∃ m', m.execAll data (immediateInstrs dst n) = some m' ∧ _ :=
    immediate_exec m real range
  have plain (src : MachineReg) (mem : Asm.Mem) : .sw src mem ∉ immediateInstrs dst n := by
    unfold immediateInstrs
    split <;> simp
  have bounds := immediateInRange_iff.mp range
  refine ⟨m', ran, sets_of_execAll ran (fun i member q other => ?_) plain, ?_⟩
  · exact immediateInstrs_target other.symm i member
  · rw [same, BitVec.toInt_ofInt, Int.bmod_eq_of_le (by omega) (by omega)]

/-! Operands of the instructions -/

/-- The register that the operand is read from: the zero register or the scratch register for a literal, which holds
it, and a register of the pool for a variable. -/
inductive Held (m : Machine) (scratch : MachineReg) : Operand → MachineReg → Prop
  | zero : Held m scratch (.literal 0) .zero
  | literal {n : Int} : (m.read scratch).toInt = n → Held m scratch (.literal n) scratch
  | register {name : String} {q : Reg} : Held m scratch (.variable name) (.pool q)

variable {site : Site} {limits : Limits} {b c : Body} {is js : List Asm.Instr} {i : Fin 8}

theorem loadInstrs_target (options : Options) {dst q : MachineReg} (src : Asm.Mem) (other : dst ≠ q) :
    ∀ x ∈ loadInstrs options dst src, x.target? ≠ some q := by
  unfold loadInstrs delay
  split <;> simp [Asm.Instr.target?, other]

/-- Moves leave the argument registers alone that are not free. -/
theorem Moves.target (moves : Moves site limits b is c) (fixed : i ∉ limits.free) :
    ∀ x ∈ is, x.target? ≠ some (.arg i) := by
  induction moves with
  | refl => simp
  | step _ move ih =>
    refine List.forall_mem_append.mpr ⟨ih, ?_⟩
    cases move with
    | save | pass => simp [Asm.Instr.target?]
    | load => exact loadInstrs_target _ _ (by simp)
    | scratch plain =>
      refine fun x member => isScratch_target (plain x member) fun j free same => ?_
      cases same
      exact fixed free
    | fetch free =>
      refine loadInstrs_target _ _ fun same => ?_
      cases same
      exact fixed free
    | _ => simp

/-- A literal operand is in its register as soon as its code has run, and code that leaves the scratch register alone
keeps it there. -/
theorem Located.held {needs : Needs} {x : Operand} {y : MachineReg} (located : Located site needs (.arg i) b x y is c)
    (range : x.isInRange = true) (ran : m.execAll data (is ++ js) = some m')
    (fixed : ∀ k ∈ js, k.target? ≠ some (.arg i)) : Held m' (.arg i) x y := by
  obtain ⟨m₁, first, second⟩ := Option.bind_eq_some_iff.mp ((Machine.execAll_append m is js).symm.trans ran)
  cases located with
  | zero => exact .zero
  | literal n =>
    obtain ⟨m₂, again, _, value⟩ : ∃ m₂, m.execAll data (immediateInstrs (.arg i) n) = some m₂ ∧ _ :=
      immediate_computes (by simp) range
    cases Option.some.inj (first.symm.trans again)
    exact .literal (by rw [Machine.execAll_read second fixed, value])
  | «variable» => exact .register

theorem binary_lowers {op : BinaryOp} {left right : Operand} {res : String} (sound : b.store.Sound)
    (inLeft : left.isInRange = true) (inRight : right.isInRange = true)
    (ran : binary site op left right res b = .ok ((), c)) :
    ∃ front r y z, Emits b (front ++ binaryInstrs op (.pool r) y z) c ∧
      ∀ data (m m' : Machine), m.execAll data front = some m' →
        Held m' .scratchLeft left y ∧ Held m' .scratchRight right z := by
  obtain ⟨y, z, r, is, js, ks, b₁, b₂, b₃, first, second, moves, assigned⟩ := binary_ok sound ran
  have emits := ((Emits.trans first.moves.lines second.moves.lines).trans moves.lines).trans assigned.emits
  refine ⟨is ++ js ++ ks, r, y, z, emits, fun data m m' ran => ⟨?_, ?_⟩⟩
  · rw [List.append_assoc] at ran
    refine first.held inLeft ran (List.forall_mem_append.mpr ⟨second.moves.target ?_, moves.target ?_⟩)
    · simp
    · simp
  · rw [List.append_assoc, Machine.execAll_append] at ran
    obtain ⟨m₁, _, ran⟩ := Option.bind_eq_some_iff.mp ran
    exact second.held inRight ran (moves.target (by simp))

theorem unary_lowers {op : UnaryOp} {x : Operand} {res : String} (sound : b.store.Sound)
    (range : x.isInRange = true) (ran : unary site op x res b = .ok ((), c)) :
    ∃ front r y, Emits b (front ++ unaryInstrs op (.pool r) y) c ∧
      ∀ data (m m' : Machine), m.execAll data front = some m' → Held m' .scratchLeft x y := by
  obtain ⟨y, r, is, js, b₁, b₂, located, moves, assigned⟩ := unary_ok sound ran
  exact ⟨is ++ js, r, y, (Emits.trans located.moves.lines moves.lines).trans assigned.emits,
    fun data m m' ran => located.held range ran (moves.target (by simp))⟩

theorem immediate_lowers {n : Int} {res : String} (sound : b.store.Sound)
    (ran : immediate site n res b = .ok ((), c)) :
    ∃ front r, Emits b (front ++ immediateInstrs (.pool r) n) c := by
  obtain ⟨r, is, b₁, moves, assigned⟩ := immediate_ok sound ran
  exact ⟨is, r, Emits.trans moves.lines assigned.emits⟩

/-- Operators and immediates give the right values. Whatever registers the operands are in, the result register among
them, the instructions of an operator leave its value in the result register and change nothing else; those of an
immediate leave it in its register. An instruction is lowered to code that ends in these, with a literal operand in its
scratch register or, if it is zero, in the zero register. -/
theorem operators_compute :
    (∀ data (m : Machine) op r y z, (op.isDivision = true → m.read z ≠ 0) →
      ∃ m', m.execAll data (binaryInstrs op (.pool r) y z) = some m' ∧ m.Sets (.pool r) m' ∧
        op.Means (m.read y) (m.read z) (m'.read (.pool r))) ∧
    (∀ data (m : Machine) op r y,
      ∃ m', m.execAll data (unaryInstrs op (.pool r) y) = some m' ∧ m.Sets (.pool r) m' ∧
        op.Means (m.read y) (m'.read (.pool r))) ∧
    (∀ data (m : Machine) dst n, dst ≠ .zero → -2 ^ 31 ≤ n ∧ n ≤ 2 ^ 31 - 1 →
      ∃ m', m.execAll data (immediateInstrs dst n) = some m' ∧ m.Sets dst m' ∧ (m'.read dst).toInt = n) ∧
    (∀ site op left right res b c, b.store.Sound → left.isInRange = true → right.isInRange = true →
      binary site op left right res b = .ok ((), c) →
      ∃ front r y z, Emits b (front ++ binaryInstrs op (.pool r) y z) c ∧
        ∀ data (m m' : Machine), m.execAll data front = some m' →
          Held m' .scratchLeft left y ∧ Held m' .scratchRight right z) ∧
    (∀ site op x res b c, b.store.Sound → x.isInRange = true → unary site op x res b = .ok ((), c) →
      ∃ front r y, Emits b (front ++ unaryInstrs op (.pool r) y) c ∧
        ∀ data (m m' : Machine), m.execAll data front = some m' → Held m' .scratchLeft x y) ∧
    ∀ site n res b c, b.store.Sound → immediate site n res b = .ok ((), c) →
      ∃ front r, Emits b (front ++ immediateInstrs (.pool r) n) c := by
  refine ⟨fun data m op r y z nonzero => binary_computes r nonzero, fun data m op r y => unary_computes op r y,
    fun data m dst n real range => immediate_computes real (immediateInRange_iff.mpr range), ?_, ?_, ?_⟩
  · exact fun site op left right res b c sound inLeft inRight ran => binary_lowers sound inLeft inRight ran
  · exact fun site op x res b c sound range ran => unary_lowers sound range ran
  · exact fun site n res b c sound ran => immediate_lowers sound ran

/-- The least integer in every register but one, which holds minus one. -/
def edgeMachine : Machine where
  regs q := if q = .scratchRight then -1 else 0x80000000
  mem _ := 0

def edgeTable : Scope := ⟨[{ name := "f", kind := .function, params := [{ name := "x" }] }]⟩

def edgeSite : Site := ⟨{}, edgeTable, [], 1, []⟩

theorem operators_compute_edge :
    (∃ m', edgeMachine.execAll (fun _ => none) (binaryInstrs .div (.pool 0) (.pool 0) .scratchRight) = some m' ∧
      (m'.read (.pool 0)).toInt = -2147483648 ∧ m'.read (.pool 1) = 0x80000000) ∧
    (∃ m', edgeMachine.execAll (fun _ => none) (immediateInstrs .scratchLeft (-2147483648)) = some m' ∧
      (m'.read .scratchLeft).toInt = -2147483648) ∧
    ∃ b c front r y z, stateAt {} edgeTable [{ op := "label", arg1 := "func_f" }] 1 = .ok (.inside b) ∧
      binary edgeSite .sub (.literal (-70000)) (.variable "x") "x" b = .ok ((), c) ∧
      Emits b (front ++ binaryInstrs .sub (.pool r) y z) c := by
  obtain ⟨binaries, _, immediates, lowers, _⟩ := operators_compute
  obtain ⟨m₁, ran₁, sets, quotient⟩ := binaries (fun _ => none) edgeMachine .div 0 (.pool 0) .scratchRight
    (fun _ => by decide)
  obtain ⟨m₂, ran₂, _, least⟩ := immediates (fun _ => none) edgeMachine .scratchLeft (-2147483648) (by decide)
    (by decide)
  have inside : insideWith (fun b => (binary edgeSite .sub (.literal (-70000)) (.variable "x") "x" b).toOption.isSome)
      (stateAt {} edgeTable [{ op := "label", arg1 := "func_f" }] 1) = true := by
    decide +kernel
  obtain ⟨b, reached, lowered⟩ := exists_of_insideWith inside
  obtain ⟨⟨_, c⟩, ran⟩ := Option.isSome_iff_exists.mp lowered
  have ran := eq_ok_of_toOption ran
  have consistent : (State.inside b).Consistent := stateAt_consistent reached
  obtain ⟨front, r, y, z, emits, _⟩ := lowers _ _ _ _ _ _ _ consistent.sound (by decide) (by decide) ran
  exact ⟨⟨m₁, ran₁, quotient.trans (by decide), sets.others _ (by decide)⟩, ⟨m₂, ran₂, least⟩,
    b, c, front, r, y, z, reached, ran, emits⟩

end Codegen

end ThreeAddress
