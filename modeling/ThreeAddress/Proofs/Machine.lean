import Mathlib.Algebra.Order.Ring.Nat
import Mathlib.Logic.Relation
import ThreeAddress.Asm.Listing

/-! A machine that runs a listing: 32-bit registers and words of memory. An instruction that the
machine cannot execute stops it. -/
namespace ThreeAddress

open Asm (Line Mem AluOp ImmOp)

abbrev Word := BitVec 32

/-- Addresses of the global variables. -/
abbrev Data := String → Option Word

structure Machine where
  regs : MachineReg → Word
  mem : Word → Word
  hi : Word := 0
  lo : Word := 0

def truth (p : Bool) : Word := if p then 1 else 0

def Asm.AluOp.eval (x y : Word) : AluOp → Word
  | .add => x + y
  | .sub => x - y
  | .and => x &&& y
  | .or => x ||| y
  | .xor => x ^^^ y
  | .nor => ~~~(x ||| y)
  | .sllv => x <<< (y.toNat % 32)
  | .srlv => x >>> (y.toNat % 32)
  | .slt => truth (x.slt y)
  | .sltu => truth (x.ult y)

def Asm.ImmOp.eval (x k : Word) : ImmOp → Word
  | .addi => x + k
  | .ori => x ||| k
  | .xori => x ^^^ k
  | .sltiu => truth (x.ult k)
  | .sll => x <<< k.toNat

namespace Machine

/-- An immediate has 32 bits. -/
def immediate? (n : Int) : Option Word :=
  if -2 ^ 31 ≤ n ∧ n < 2 ^ 31 then some (BitVec.ofInt 32 n) else none

/-- Memory is addressed by whole words. -/
def aligned? (a : Word) : Option Word := if a.toNat % 4 = 0 then some a else none

def read (m : Machine) : MachineReg → Word
  | .zero => 0
  | r => m.regs r

def write (m : Machine) (r : MachineReg) (w : Word) : Machine :=
  { m with regs := fun q => if q = r then w else m.regs q }

def store (m : Machine) (a w : Word) : Machine :=
  { m with mem := fun x => if x = a then w else m.mem x }

def address? (data : Data) (m : Machine) : Mem → Option Word
  | .global name => (data name).bind aligned?
  | .offset bytes base => (immediate? bytes).bind fun k => aligned? (m.read base + k)
  | .indexed array index => (data array).bind fun a => aligned? (m.read index + a)

/-- Executes an instruction that does not jump. -/
def exec (data : Data) (m : Machine) : Asm.Instr → Option Machine
  | .alu op dst left right => some (m.write dst (op.eval (m.read left) (m.read right)))
  | .aluImm op dst src imm => (immediate? imm).map fun k => m.write dst (op.eval (m.read src) k)
  | .lui dst imm => (immediate? imm).map fun k : Word => m.write dst (k <<< (16 : Nat))
  | .mv dst src => some (m.write dst (m.read src))
  | .mult left right =>
    let product := (m.read left).signExtend 64 * (m.read right).signExtend 64
    some { m with lo := product.setWidth 32, hi := (product >>> 32).setWidth 32 }
  | .div left right =>
    if m.read right = 0 then none
    else some { m with
      lo := (m.read left).sdiv (m.read right), hi := (m.read left).srem (m.read right) }
  | .mflo dst => some (m.write dst m.lo)
  | .mfhi dst => some (m.write dst m.hi)
  | .lw dst src => (m.address? data src).map fun a => m.write dst (m.mem a)
  | .sw src dst => (m.address? data dst).map fun a => m.store a (m.read src)
  | .nop => some m
  | _ => none

def execAll (data : Data) (m : Machine) : List Asm.Instr → Option Machine
  | [] => some m
  | i :: is => (m.exec data i).bind fun m => m.execAll data is

variable {data : Data} {m m' : Machine}

theorem read_write (m : Machine) (r q : MachineReg) (w : Word) :
    (m.write r w).read q = if q = r ∧ q ≠ .zero then w else m.read q := by
  cases q <;> simp [read, write]

theorem read_write_ne {r q : MachineReg} (other : q ≠ r) (w : Word) :
    (m.write r w).read q = m.read q := by
  simp [read_write, other]

@[simp] theorem read_write_pool (m : Machine) (r : Reg) (w : Word) :
    (m.write (.pool r) w).read (.pool r) = w := by
  simp [read_write]

@[simp] theorem read_write_arg (m : Machine) (i : Fin 8) (w : Word) :
    (m.write (.arg i) w).read (.arg i) = w := by
  simp [read_write]

@[simp] theorem mem_write (m : Machine) (r : MachineReg) (w : Word) : (m.write r w).mem = m.mem := rfl

@[simp] theorem read_store (m : Machine) (a w : Word) (q : MachineReg) :
    (m.store a w).read q = m.read q := by
  cases q <;> rfl

theorem mem_store (m : Machine) (a w x : Word) :
    (m.store a w).mem x = if x = a then w else m.mem x := rfl

theorem execAll_append (m : Machine) (is js : List Asm.Instr) :
    m.execAll data (is ++ js) = (m.execAll data is).bind fun m => m.execAll data js := by
  induction is generalizing m with
  | nil => rfl
  | cons i is ih =>
    simp only [List.cons_append, execAll]
    cases m.exec data i with
    | none => rfl
    | some m' => exact ih m'

theorem execAll_trans {m'' : Machine} {is js : List Asm.Instr} (first : m.execAll data is = some m')
    (second : m'.execAll data js = some m'') : m.execAll data (is ++ js) = some m'' := by
  rw [execAll_append, first]
  exact second

theorem execAll_one {i : Asm.Instr} (ran : m.exec data i = some m') :
    m.execAll data [i] = some m' := by
  simp [execAll, ran]

end Machine

/-- The register that an instruction writes. -/
def Asm.Instr.target? : Asm.Instr → Option MachineReg
  | .alu _ dst _ _ => some dst
  | .aluImm _ dst _ _ => some dst
  | .lui dst _ => some dst
  | .mv dst _ => some dst
  | .mflo dst => some dst
  | .mfhi dst => some dst
  | .lw dst _ => some dst
  | _ => none

/-- The machine can read the immediate of the instruction. -/
def Asm.Instr.isEncodable : Asm.Instr → Bool
  | .aluImm _ _ _ imm => (Machine.immediate? imm).isSome
  | .lui _ imm => (Machine.immediate? imm).isSome
  | _ => true

namespace Machine

variable {data : Data} {m m' : Machine}

/-- An instruction changes no register but its target. -/
theorem exec_read {i : Asm.Instr} {q : MachineReg} (ran : m.exec data i = some m')
    (other : i.target? ≠ some q) : m'.read q = m.read q := by
  have wrote {r : MachineReg} (w : Word) (other : some r ≠ some q) :
      (m.write r w).read q = m.read q :=
    read_write_ne (fun same => other (by rw [same])) w
  cases i with
  | alu op dst left right =>
    cases Option.some.inj ran
    exact wrote _ other
  | aluImm op dst src imm =>
    obtain ⟨k, _, rfl⟩ := Option.map_eq_some_iff.mp ran
    exact wrote _ other
  | lui dst imm =>
    obtain ⟨k, _, rfl⟩ := Option.map_eq_some_iff.mp ran
    exact wrote _ other
  | mv dst src =>
    cases Option.some.inj ran
    exact wrote _ other
  | mult left right =>
    cases Option.some.inj ran
    cases q <;> rfl
  | div left right =>
    simp only [exec] at ran
    split at ran
    · contradiction
    · cases Option.some.inj ran
      cases q <;> rfl
  | mflo dst =>
    cases Option.some.inj ran
    exact wrote _ other
  | mfhi dst =>
    cases Option.some.inj ran
    exact wrote _ other
  | lw dst src =>
    obtain ⟨a, _, rfl⟩ := Option.map_eq_some_iff.mp ran
    exact wrote _ other
  | sw src dst =>
    obtain ⟨a, _, rfl⟩ := Option.map_eq_some_iff.mp ran
    exact read_store m a _ q
  | nop =>
    cases Option.some.inj ran
    rfl
  | _ => simp [exec] at ran

/-- An instruction that does not store leaves memory alone. -/
theorem exec_mem {i : Asm.Instr} (ran : m.exec data i = some m') (load : ∀ src dst, i ≠ .sw src dst) :
    m'.mem = m.mem := by
  cases i with
  | alu op dst left right => cases Option.some.inj ran; rfl
  | aluImm op dst src imm => obtain ⟨k, _, rfl⟩ := Option.map_eq_some_iff.mp ran; rfl
  | lui dst imm => obtain ⟨k, _, rfl⟩ := Option.map_eq_some_iff.mp ran; rfl
  | mv dst src => cases Option.some.inj ran; rfl
  | mult left right => cases Option.some.inj ran; rfl
  | div left right =>
    simp only [exec] at ran
    split at ran
    · contradiction
    · cases Option.some.inj ran
      rfl
  | mflo dst => cases Option.some.inj ran; rfl
  | mfhi dst => cases Option.some.inj ran; rfl
  | lw dst src => obtain ⟨a, _, rfl⟩ := Option.map_eq_some_iff.mp ran; rfl
  | sw src dst => exact absurd rfl (load src dst)
  | nop => cases Option.some.inj ran; rfl
  | _ => simp [exec] at ran

theorem execAll_read {is : List Asm.Instr} {q : MachineReg} (ran : m.execAll data is = some m')
    (other : ∀ i ∈ is, i.target? ≠ some q) : m'.read q = m.read q := by
  induction is generalizing m with
  | nil =>
    cases Option.some.inj ran
    rfl
  | cons i is ih =>
    obtain ⟨m₁, first, rest⟩ := Option.bind_eq_some_iff.mp ran
    rw [ih rest fun j member => other j (by simp [member]), exec_read first (other i (by simp))]

theorem execAll_mem {is : List Asm.Instr} (ran : m.execAll data is = some m')
    (load : ∀ src dst, .sw src dst ∉ is) : m'.mem = m.mem := by
  induction is generalizing m with
  | nil =>
    cases Option.some.inj ran
    rfl
  | cons i is ih =>
    obtain ⟨m₁, first, rest⟩ := Option.bind_eq_some_iff.mp ran
    rw [ih rest fun src dst member => load src dst (by simp [member]), exec_mem first]
    rintro src dst rfl
    exact load src dst (by simp)

end Machine

/-! Programs in memory -/

/-- The instructions of a listing, the positions of its labels and the addresses of its data. Of
two labels of one name the last one counts. -/
structure Image where
  code : List Asm.Instr
  labels : String → Option Nat
  data : Data

def codeOf (lines : List Line) : List Asm.Instr :=
  lines.filterMap fun
    | .instr i => some i
    | _ => none

/-- The position of a label among the instructions, which are counted from `pc`. -/
def labelFrom (pc : Nat) (name : String) : List Line → Option Nat
  | [] => none
  | .instr _ :: rest => labelFrom (pc + 1) name rest
  | .label l :: rest => (labelFrom pc name rest).or (if l = name then some pc else none)
  | _ :: rest => labelFrom pc name rest

/-- The address of a global variable, where the next one gets the address `a`. -/
def dataFrom (a : Word) (name : String) : List Line → Option Word
  | [] => none
  | .word l :: rest => (dataFrom (a + 4) name rest).or (if l = name then some a else none)
  | .space l bytes :: rest =>
    (dataFrom (a + BitVec.ofInt 32 bytes) name rest).or (if l = name then some a else none)
  | _ :: rest => dataFrom a name rest

/-- Data starts at this address. -/
def dataBase : Word := 0x1000

def Image.ofLines (lines : List Line) : Image where
  code := codeOf lines
  labels name := labelFrom 0 name lines
  data name := dataFrom dataBase name lines

/-- The instruction at a position. -/
def Image.fetch (image : Image) (pc : Int) : Option Asm.Instr :=
  if 0 ≤ pc then image.code[pc.toNat]? else none

/-- One step of the machine. -/
def Image.step (image : Image) : Int × Machine → Option (Int × Machine)
  | (pc, m) =>
    match image.fetch pc with
    | none => none
    | some (.beq left right target) =>
      if m.read left = m.read right then (image.labels target).map fun p : Nat => ((p : Int), m)
      else some (pc + 1, m)
    | some (.bne left right target) =>
      if m.read left ≠ m.read right then (image.labels target).map fun p : Nat => ((p : Int), m)
      else some (pc + 1, m)
    | some (.j target) => (image.labels target).map fun p : Nat => ((p : Int), m)
    | some (.jal target) =>
      (image.labels target).map fun p : Nat => ((p : Int), m.write .ra (BitVec.ofInt 32 (pc + 1)))
    | some (.jr r) => some ((m.read r).toInt, m)
    | some i => (m.exec image.data i).map fun m => (pc + 1, m)

/-- The machine gets from one state to the other in any number of steps. -/
def Image.Reaches (image : Image) : Int × Machine → Int × Machine → Prop :=
  Relation.ReflTransGen fun s t => image.step s = some t

/-- The instructions stand in the code from a position on. -/
def Image.Holds (image : Image) (pc : Nat) (is : List Asm.Instr) : Prop :=
  ∃ before after, image.code = before ++ is ++ after ∧ before.length = pc

namespace Image

variable {image : Image} {pc : Nat} {is js : List Asm.Instr} {m m' : Machine}

theorem Holds.left (holds : image.Holds pc (is ++ js)) : image.Holds pc is := by
  obtain ⟨before, after, code, length⟩ := holds
  exact ⟨before, js ++ after, by simp [code], length⟩

theorem Holds.right (holds : image.Holds pc (is ++ js)) : image.Holds (pc + is.length) js := by
  obtain ⟨before, after, code, length⟩ := holds
  exact ⟨before ++ is, after, by simp [code], by simp [length]⟩

theorem Holds.fetch {i : Asm.Instr} (holds : image.Holds pc (i :: is)) :
    image.fetch (pc : Int) = some i := by
  obtain ⟨before, after, code, rfl⟩ := holds
  simp [Image.fetch, code]

theorem step_of_exec {i : Asm.Instr} (fetched : image.fetch (pc : Int) = some i)
    (ran : m.exec image.data i = some m') : image.step (pc, m) = some ((pc : Int) + 1, m') := by
  cases i with
  | beq | bne | j | jal | jr => simp [Machine.exec] at ran
  | _ => simp [Image.step, fetched, ran]

/-- Instructions that execute one after the other take the machine behind them. -/
theorem reaches_execAll (holds : image.Holds pc is) (ran : m.execAll image.data is = some m') :
    image.Reaches (pc, m) (((pc + is.length : Nat) : Int), m') := by
  induction is generalizing pc m with
  | nil =>
    cases Option.some.inj ran
    exact .refl
  | cons i is ih =>
    obtain ⟨m₁, first, rest⟩ := Option.bind_eq_some_iff.mp ran
    have step := step_of_exec holds.fetch first
    have tail : image.Holds (pc + 1) is := (show image.Holds pc ([i] ++ is) from holds).right
    have later := ih tail rest
    rw [show pc + 1 + is.length = pc + (i :: is).length by simp; omega] at later
    exact .head step later

end Image

end ThreeAddress
