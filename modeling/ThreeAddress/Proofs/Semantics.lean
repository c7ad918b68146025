import ThreeAddress.Proofs.Denotation
import ThreeAddress.Proofs.Homes
import ThreeAddress.Proofs.Machine

/-! What three-address code means, for procedures without calls, arrays and pointers. Names stand
for words, and instructions change them one after the other. -/
namespace ThreeAddress

/-- Division by zero has no value. -/
def BinaryOp.eval (x y : Word) : BinaryOp → Option Word
  | .add => some (x + y)
  | .sub => some (x - y)
  | .and => some (x &&& y)
  | .or => some (x ||| y)
  | .xor => some (x ^^^ y)
  | .shl => some (x <<< (y.toNat % 32))
  | .shr => some (x >>> (y.toNat % 32))
  | .eq => some (truth (x = y))
  | .ne => some (truth (x ≠ y))
  | .lt => some (truth (x.slt y))
  | .gt => some (truth (y.slt x))
  | .le => some (truth (x.sle y))
  | .ge => some (truth (y.sle x))
  | .mul => some (x * y)
  | .div => if y = 0 then none else some (x.sdiv y)
  | .mod => if y = 0 then none else some (x.srem y)

def UnaryOp.eval (x : Word) : UnaryOp → Word
  | .neg => -x
  | .bitNot => ~~~x
  | .not => truth (x = 0)
  | .plus => x

/-- The instructions of procedures that work on scalars alone. -/
def Instr.isScalar : Instr → Bool
  | .binary _ _ _ _ => true
  | .unary _ _ _ => true
  | .imm _ _ => true
  | .copy _ _ => true
  | .branch _ _ _ => true
  | .goto _ => true
  | .label l => l.boundary = .plain
  | .ret _ => true
  | .nop => true
  | _ => false

/-- The literals of an instruction have 32 bits. -/
def Instr.isInRange : Instr → Bool
  | .binary _ left right _ => left.isInRange && right.isInRange
  | .unary _ x _ => x.isInRange
  | .imm n _ => immediateInRange n
  | .load _ index _ => index.isInRange
  | .store _ index value => index.isInRange && value.isInRange
  | .storeInd _ value => value.isInRange
  | .param x => x.isInRange
  | .branch cond _ _ => cond.isInRange
  | .ret x => x.all Operand.isInRange
  | _ => true

def Operand.names : Operand → List String
  | .literal _ => []
  | .variable name => [name]

/-- The names whose values an instruction uses. Arguments are used by their call, and a copy of a
variable to itself uses nothing. -/
def Instr.uses : Instr → List String
  | .binary _ left right _ => left.names ++ right.names
  | .unary _ x _ => x.names
  | .copy src res => if src = res then [] else [src]
  | .load array index _ => array :: index.names
  | .store array index value => array :: (index.names ++ value.names)
  | .loadInd pointer _ => [pointer]
  | .storeInd pointer value => pointer :: value.names
  | .branch cond _ _ => cond.names
  | .ret x => x.toList.flatMap Operand.names
  | _ => []

/-- The names that an instruction reads while arguments wait. -/
def Instr.reads (ys : List Operand) : Instr → List String
  | .call _ _ => ys.flatMap Operand.names
  | x => x.uses

/-- The arguments that wait for their call behind an instruction, of those before it. -/
def Instr.waits (ys : List Operand) : Instr → List Operand
  | .param y => ys ++ [y]
  | .call _ _ => []
  | _ => ys

/-- The name of a label that is no boundary of a procedure. -/
def Instr.plainLabel? : Instr → Option String
  | .label ⟨name, .plain⟩ => some name
  | _ => none

theorem Instr.reads_of_straight {x : Instr} (straight : x.isStraight = true) (ys : List Operand) :
    x.reads ys = x.uses := by
  cases x <;> first | rfl | contradiction

theorem Instr.plainLabel?_of_straight {x : Instr} (straight : x.isStraight = true) :
    x.plainLabel? = none := by
  cases x <;> first | rfl | contradiction

namespace Codegen

/-- Values of what names stand for. -/
abbrev Env := Place → Word

def Env.set (env : Env) (p : Place) (w : Word) : Env := fun q => if q = p then w else env q

@[simp] theorem Env.set_same (env : Env) (p : Place) (w : Word) : env.set p w p = w := if_pos rfl

theorem Env.set_other (env : Env) {p q : Place} (other : q ≠ p) (w : Word) : env.set p w q = env q :=
  if_neg other

end Codegen

open Codegen (Place Env)

def Operand.eval (place : String → Place) (env : Env) : Operand → Word
  | .literal n => BitVec.ofInt 32 n
  | .variable name => env (place name)

/-- Where a procedure is, or how it ended. -/
inductive Outcome
  | running (k : Nat) (env : Env)
  | returned (value : Option Word) (env : Env)

/-- The position behind a label of the procedure. -/
def target? (body : List Instr) (name : String) : Option Nat :=
  (body.findIdx? fun x => x.plainLabel? = some name).map (· + 1)

/-- What an instruction at a position does. -/
def Instr.run (place : String → Place) (body : List Instr) (k : Nat) (env : Env) :
    Instr → Option Outcome
  | .binary op left right res =>
    (op.eval (left.eval place env) (right.eval place env)).map fun w =>
      .running (k + 1) (env.set (place res) w)
  | .unary op x res => some (.running (k + 1) (env.set (place res) (op.eval (x.eval place env))))
  | .imm n res => some (.running (k + 1) (env.set (place res) (BitVec.ofInt 32 n)))
  | .copy src res => some (.running (k + 1) (env.set (place res) (env (place src))))
  | .branch cond ifTrue target =>
    if decide (cond.eval place env ≠ 0) = ifTrue then (target? body target).map (.running · env)
    else some (.running (k + 1) env)
  | .goto target => (target? body target).map (.running · env)
  | .ret x => some (.returned (x.map (·.eval place env)) env)
  | .label _ => some (.running (k + 1) env)
  | .nop => some (.running (k + 1) env)
  | _ => none

/-- One step of a procedure. Behind its last instruction it returns no value. -/
def Outcome.step (place : String → Place) (body : List Instr) : Outcome → Option Outcome
  | .running k env =>
    match body[k]? with
    | some x => x.run place body k env
    | none => some (.returned none env)
  | .returned _ _ => none

/-- The procedure gets from one state to the other in any number of steps. -/
def Outcome.Reaches (place : String → Place) (body : List Instr) : Outcome → Outcome → Prop :=
  Relation.ReflTransGen fun s t => s.step place body = some t

/-! Decoded instructions -/

theorem Instr.isInRange_of_operands {x : Instr} (ranges : ∀ y ∈ x.operands, y.isInRange = true) :
    x.isInRange = true := by
  cases x with
  | imm n res => exact ranges _ List.mem_cons_self
  | ret y => cases y <;> simp_all [Instr.operands, Instr.isInRange]
  | _ => simp_all [Instr.operands, Instr.isInRange]

/-- Literals are checked when code is decoded. -/
theorem Instr.ofQuad_isInRange {q : Quad} {x : Instr} (ran : ofQuad q = .ok x) : x.isInRange = true := by
  obtain ⟨ranges, denotes⟩ := ofQuad_denotes ran
  refine isInRange_of_operands fun y member => ?_
  obtain ⟨field, among, _, rfl⟩ := denotes.operand member
  exact ranges field among

theorem Codegen.decodeFrom_isInRange {start : Nat} {code : List Quad} {instrs : List Instr}
    (decoded : decodeFrom start code = .ok instrs) : ∀ x ∈ instrs, x.isInRange = true := by
  induction code generalizing start instrs with
  | nil =>
    cases Except.ok.inj decoded
    simp
  | cons q code ih =>
    obtain ⟨_, x, xs, first, rest, rfl⟩ := decodeFrom_cons_ok.mp decoded
    intro y member
    rcases List.mem_cons.mp member with rfl | member
    · exact Instr.ofQuad_isInRange first
    · exact ih rest y member

end ThreeAddress
