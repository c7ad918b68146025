import ThreeAddress.Proofs.FrameWords
import ThreeAddress.Proofs.Positions

/-! The machine runs a procedure as its three-address code says. For every step of the code the
machine executes the lines of one instruction, and the two agree again behind them. -/
namespace ThreeAddress.Codegen

open Asm (Line Mem Listing)
open Descriptor (Store Var Entry)

variable {A : Activation} {site : Site} {limits : Limits} {b c d : Body} {is js ks : List Asm.Instr}
variable {env : Env} {m m' : Machine} {tracked : Place → Prop}

/-- Every name counts. -/
abbrev everything : Place → Prop := fun _ => True

/-- The limits of an instruction of a block: it keeps what the frame keeps. -/
def blockLimits : Limits := { free := List.finRange 8 }

theorem Untouched.block {locked : List Reg} {lost : Option String} {free : List (Fin 8)}
    (untouched : Untouched A ⟨locked, lost, free, 0⟩ m m') : Untouched A blockLimits m m' :=
  ⟨by simp [blockLimits], fun i fixed => absurd (List.mem_finRange i) fixed, untouched.sp, untouched.ra,
    untouched.words⟩

theorem untouched_of_result {r : Reg} (mem : m'.mem = m.mem)
    (others : ∀ q, q ≠ .pool r → m'.read q = m.read q) : Untouched A blockLimits m m' := by
  refine ⟨by simp [blockLimits], fun i fixed => absurd (List.mem_finRange i) fixed,
    others _ (by simp), others _ (by simp), fun _ _ _ _ _ => ?_⟩
  rw [mem]

theorem Agrees.narrow {tracked fewer : Place → Prop} {s : Store Mem} (agrees : Agrees A tracked s env m)
    (narrower : ∀ p, fewer p → tracked p) : Agrees A fewer s env m :=
  ⟨agrees.sp, fun v e r known track => agrees.regs v e r known (narrower _ track),
    fun v e h a known track => agrees.homes v e h a known (narrower _ track),
    fun name a track => agrees.absent name a (narrower _ track)⟩

theorem Assigned.suits {res : String} {r : Reg} (assigned : Assigned site res b r ks c)
    (suits : Suits A site b) : Suits A site c := by
  have same := assigned.sameProcedure
  exact ⟨suits.table, suits.function.trans same.function.symm, suits.layout.trans same.layout.symm,
    same.spare ▸ suits.few, assigned.sound suits.sound, assigned.housed suits.sound suits.housed,
    suits.separate⟩

/-! Instructions that compute -/

/-- The value of a name is computed, and moves follow. -/
theorem Assigned.finish {res : String} {r : Reg} {w : Word} (assigned : Assigned site res b r ks d)
    (moves : Moves site {} d js c) (suits : Suits A site b) (agrees : Agrees A tracked b.store env m)
    (computes : ∃ m₁, m.execAll A.data ks = some m₁ ∧ m₁.read (.pool r) = w) :
    ∃ m', m.execAll A.data (ks ++ js) = some m' ∧
      Agrees A (fun p => p = A.place res ∨ tracked p) c.store (env.set (A.place res) w) m' ∧
      Untouched A blockLimits m m' := by
  obtain ⟨m₁, ran, rfl⟩ := computes
  obtain ⟨agrees₁, mem, others⟩ := assigned.run suits agrees ran
  obtain ⟨m', later, agrees', untouched⟩ := moves.run (assigned.suits suits) (Nat.zero_le _)
    (moves.isEncodable rfl) agrees₁
  exact ⟨m', Machine.execAll_trans ran later, agrees', (untouched_of_result mem others).trans untouched.block⟩

theorem Located.quiet {needs : Needs} {i : Fin 8} {x : Operand} {y : MachineReg}
    (located : Located site needs (.arg i) b x y is c) (strict : site.options.strict = true) :
    c.out.warnings.size ≤ b.out.warnings.size :=
  Nat.le_of_eq (located.moves.warnings.2 strict)

/-- An instruction of a block simulates its step: its code takes the machine to agreement with the
new environment. -/
def Simulates (A : Activation) (tracked : Place → Prop) (b c : Body) (env : Env) (m : Machine) : Prop :=
  ∃ is m', Emits b is c ∧ m.execAll A.data is = some m' ∧ Agrees A tracked c.store env m' ∧
    Untouched A blockLimits m m'

theorem Simulates.narrow {fewer : Place → Prop} (simulates : Simulates A tracked b c env m)
    (narrower : ∀ p, fewer p → tracked p) : Simulates A fewer b c env m := by
  obtain ⟨is, m', emits, ran, agrees, untouched⟩ := simulates
  exact ⟨is, m', emits, ran, agrees.narrow narrower, untouched⟩

/-- The operands of an operator are in registers when its instructions are executed. -/
theorem binary_operands {op : BinaryOp} {left right : Operand} {res : String}
    (strict : site.options.strict = true) (suits : Suits A site b)
    (range : left.isInRange = true ∧ right.isInRange = true)
    (track : ∀ name ∈ left.names ++ right.names, tracked (A.place name))
    (agrees : Agrees A tracked b.store env m)
    (ran : lower site (.binary op left right res) b = .ok ((), c)) :
    ∃ y z r is ls b' d m', Emits b is b' ∧ m.execAll A.data is = some m' ∧
      Agrees A tracked b'.store env m' ∧ Untouched A blockLimits m m' ∧ Suits A site b' ∧
      m'.read y = left.eval A.place env ∧ m'.read z = right.eval A.place env ∧
      Assigned site res b' r (binaryInstrs op (.pool r) y z) d ∧ Moves site {} d ls c := by
  obtain ⟨d, first, rest⟩ := straight_ok ran
  obtain ⟨y, z, r, is, js, ks, b₁, b₂, b₃, left_at, right_at, moves, assigned⟩ :=
    binary_ok suits.sound first
  have suits₁ := left_at.moves.suits suits
  have suits₂ := right_at.moves.suits suits₁
  have suits₃ := moves.suits suits₂
  obtain ⟨m₁, ran₁, agrees₁, untouched₁, left_value⟩ := left_at.run suits range.1 (left_at.quiet strict)
    (fun name same => track name (by simp [same, Operand.names])) agrees
  obtain ⟨m₂, ran₂, agrees₂, untouched₂, right_value⟩ := right_at.run suits₁ range.2
    (right_at.quiet strict) (fun name same => track name (by simp [same, Operand.names])) agrees₁
  obtain ⟨m₃, ran₃, agrees₃, untouched₃⟩ :=
    moves.run suits₂ (Nat.zero_le _) (moves.isEncodable rfl) agrees₂
  obtain ⟨ls, later⟩ := rest (assigned.sound suits₃.sound)
  refine ⟨y, z, r, is ++ (js ++ ks), ls, b₃, d, m₃, ?_, ?_, agrees₃, ?_, suits₃, ?_, ?_, assigned, later⟩
  · exact Emits.trans left_at.moves.lines (Emits.trans right_at.moves.lines moves.lines)
  · exact Machine.execAll_trans ran₁ (Machine.execAll_trans ran₂ ran₃)
  · exact untouched₁.block.trans (untouched₂.block.trans untouched₃.block)
  -- the operands stay in their registers while the other one and the result get theirs
  · rw [untouched₃.read (left_at.guards right_at.moves.reserved (by simp)),
      untouched₂.read (left_at.guards (fun _ member => member) (by simp)), left_value]
  · rw [untouched₃.read (right_at.guards (fun _ member => member) (by simp)), right_value]

theorem binary_simulates {op : BinaryOp} {left right : Operand} {res : String} {w : Word}
    (strict : site.options.strict = true) (suits : Suits A site b)
    (range : left.isInRange = true ∧ right.isInRange = true)
    (track : ∀ name ∈ left.names ++ right.names, tracked (A.place name))
    (agrees : Agrees A tracked b.store env m)
    (value : op.eval (left.eval A.place env) (right.eval A.place env) = some w)
    (ran : lower site (.binary op left right res) b = .ok ((), c)) :
    Simulates A (fun p => p = A.place res ∨ tracked p) b c (env.set (A.place res) w) m := by
  obtain ⟨y, z, r, is, ls, b', d, m₁, emits, ran₁, agrees₁, untouched₁, suits₁, left_value, right_value,
    assigned, later⟩ := binary_operands strict suits range track agrees ran
  obtain ⟨m', ran', agrees', untouched'⟩ := assigned.finish later suits₁ agrees₁
    (binary_exec (by rw [left_value, right_value]; exact value))
  exact ⟨is ++ (binaryInstrs op (.pool r) y z ++ ls), m', emits.trans (assigned.emits.trans later.lines),
    Machine.execAll_trans ran₁ ran', agrees', untouched₁.trans untouched'⟩

theorem unary_simulates {op : UnaryOp} {x : Operand} {res : String} (strict : site.options.strict = true)
    (suits : Suits A site b) (range : x.isInRange = true)
    (track : ∀ name ∈ x.names, tracked (A.place name)) (agrees : Agrees A tracked b.store env m)
    (ran : lower site (.unary op x res) b = .ok ((), c)) :
    Simulates A (fun p => p = A.place res ∨ tracked p) b c
      (env.set (A.place res) (op.eval (x.eval A.place env))) m := by
  obtain ⟨d, first, rest⟩ := straight_ok ran
  obtain ⟨y, r, is, js, b₁, b₂, located, moves, assigned⟩ := unary_ok suits.sound first
  have suits₁ := located.moves.suits suits
  have suits₂ := moves.suits suits₁
  obtain ⟨m₁, ran₁, agrees₁, untouched₁, value⟩ := located.run suits range (located.quiet strict)
    (fun name same => track name (by simp [same, Operand.names])) agrees
  obtain ⟨m₂, ran₂, agrees₂, untouched₂⟩ :=
    moves.run suits₁ (Nat.zero_le _) (moves.isEncodable rfl) agrees₁
  have stays : m₂.read y = x.eval A.place env := by
    rw [untouched₂.read (located.guards (fun _ member => member) (by simp)), value]
  obtain ⟨ls, later⟩ := rest (assigned.sound suits₂.sound)
  obtain ⟨m', ran', agrees', untouched'⟩ :=
    assigned.finish later suits₂ agrees₂ (stays ▸ unary_exec op r y m₂)
  refine ⟨is ++ (js ++ (unaryInstrs op (.pool r) y ++ ls)), m', ?_, ?_, agrees', ?_⟩
  · exact Emits.trans located.moves.lines (Emits.trans moves.lines (assigned.emits.trans later.lines))
  · exact Machine.execAll_trans ran₁ (Machine.execAll_trans ran₂ ran')
  · exact untouched₁.block.trans (untouched₂.block.trans untouched')

theorem imm_simulates {n : Int} {res : String} (suits : Suits A site b)
    (range : Instr.immediateInRange n = true) (agrees : Agrees A tracked b.store env m)
    (ran : lower site (.imm n res) b = .ok ((), c)) :
    Simulates A (fun p => p = A.place res ∨ tracked p) b c
      (env.set (A.place res) (BitVec.ofInt 32 n)) m := by
  obtain ⟨d, first, rest⟩ := straight_ok ran
  obtain ⟨r, is, b₁, moves, assigned⟩ := immediate_ok suits.sound first
  have suits₁ := moves.suits suits
  obtain ⟨m₁, ran₁, agrees₁, untouched₁⟩ :=
    moves.run suits (Nat.zero_le _) (moves.isEncodable rfl) agrees
  obtain ⟨ls, later⟩ := rest (assigned.sound suits₁.sound)
  obtain ⟨m', ran', agrees', untouched'⟩ :=
    assigned.finish later suits₁ agrees₁ (immediate_exec m₁ (by simp) range)
  refine ⟨is ++ (immediateInstrs (.pool r) n ++ ls), m', ?_, ?_, agrees', ?_⟩
  · exact Emits.trans moves.lines (assigned.emits.trans later.lines)
  · exact Machine.execAll_trans ran₁ ran'
  · exact untouched₁.block.trans untouched'

theorem copy_simulates {src res : String} (strict : site.options.strict = true) (suits : Suits A site b)
    (track : src ≠ res → tracked (A.place src)) (agrees : Agrees A tracked b.store env m)
    (ran : lower site (.copy src res) b = .ok ((), c)) :
    Simulates A (fun p => (src ≠ res ∧ p = A.place res) ∨ tracked p) b c
      (env.set (A.place res) (env (A.place src))) m := by
  obtain ⟨d, first, rest⟩ := straight_ok ran
  rcases copy_ok suits.sound first with ⟨rfl, rfl⟩ | ⟨other, y, r, is, js, b₁, b₂, located, moves, assigned⟩
  · have same : env.set (A.place src) (env (A.place src)) = env := by
      funext p
      unfold Env.set
      split <;> simp [*]
    obtain ⟨ls, later⟩ := rest suits.sound
    obtain ⟨m', ran', agrees', untouched⟩ :=
      later.run suits (Nat.zero_le _) (later.isEncodable rfl) agrees
    rw [same]
    exact ⟨ls, m', later.lines, ran', agrees'.narrow fun p track => track.resolve_left (by simp),
      untouched.block⟩
  · have suits₁ := located.moves.suits suits
    have suits₂ := moves.suits suits₁
    obtain ⟨m₁, ran₁, agrees₁, untouched₁, value⟩ := located.run suits rfl (located.quiet strict)
      (fun name same => Operand.variable.inj same ▸ track other) agrees
    obtain ⟨m₂, ran₂, agrees₂, untouched₂⟩ :=
      moves.run suits₁ (Nat.zero_le _) (moves.isEncodable rfl) agrees₁
    have stays : m₂.read (.pool y) = env (A.place src) := by
      rw [untouched₂.read (located.guards (fun _ member => member) (by simp)), value]
      rfl
    obtain ⟨ls, later⟩ := rest (assigned.sound suits₂.sound)
    obtain ⟨m', ran', agrees', untouched'⟩ := assigned.finish later suits₂ agrees₂
      ⟨_, rfl, (Machine.read_write_pool ..).trans stays⟩
    refine ⟨is ++ (js ++ ([.mv (.pool r) (.pool y)] ++ ls)), m', ?_, ?_,
      agrees'.narrow fun p track => track.imp_left And.right, ?_⟩
    · exact Emits.trans located.moves.lines (Emits.trans moves.lines (assigned.emits.trans later.lines))
    · exact Machine.execAll_trans ran₁ (Machine.execAll_trans ran₂ ran')
    · exact untouched₁.block.trans (untouched₂.block.trans untouched')

/-! Points of a procedure -/

/-- The activation is one of the procedure of the name. -/
structure Activation.IsOf (A : Activation) (options : Options) (table : Scope) (code : List Quad)
    (listing : Listing) (name : String) : Prop where
  data : A.data = (Image.ofLines listing.lines).data
  scope : A.table = table
  function : table.lookup name = some A.function
  layout : Frame.find (Frame.plan options table code) name = .ok A.layout

structure Activation.Runs (A : Activation) (options : Options) (table : Scope) (code : List Quad)
    (listing : Listing) (name : String) : Prop extends A.IsOf options table code listing name where
  separate : A.Separate

/-- The machine stands before the code of an instruction and agrees with the descriptors there. The
frame still keeps the caller's registers. -/
structure Matches (A : Activation) (m₀ : Machine) (b : Body) (env : Env) (s : Int × Machine) : Prop where
  position : s.1 = (State.inside b).position
  agrees : Agrees A everything b.store env s.2
  ra : s.2.read .ra = m₀.read .ra
  keeps : A.Keeps m₀ s.2
  returned : b.returned = false

section Procedures

variable {options : Options} {table : Scope} {code : List Quad} {instrs : List Instr}
variable {listing : Listing} {name : String} {p k : Nat} {body : List Instr} {m₀ : Machine}
variable {x : Instr} {s : Int × Machine}

/-- The generator is in the procedure of the activation. -/
theorem Activation.IsOf.frame (isOf : A.IsOf options table code listing name)
    (procedure : HasProcedure instrs name p body) (compiles : Compiles options table code instrs listing)
    (bound : k ≤ body.length) (here : stateAt options table code (p + 1 + k) = .ok (.inside b)) :
    A.function = b.function ∧ A.layout = b.layout := by
  obtain ⟨out, f, l, b', entered, _, _, again, function, layout⟩ :=
    procedure.stateAt_inside compiles bound
  cases Except.ok.inj (here.symm.trans again)
  have symbol := entered.symbol.symm.trans isOf.function
  have named : f.name = name := by simpa using List.find?_some entered.symbol
  have frame := entered.frame.symm.trans (named ▸ isOf.layout)
  rw [function, layout]
  exact ⟨(Option.some.inj symbol).symm, (Except.ok.inj frame).symm⟩

theorem Activation.Runs.suits (runs : A.Runs options table code listing name)
    (procedure : HasProcedure instrs name p body) (compiles : Compiles options table code instrs listing)
    (bound : k ≤ body.length) (here : stateAt options table code (p + 1 + k) = .ok (.inside b))
    (few : b.spare.owners.length ≤ A.spares) (n : Nat) : Suits A (siteAt options table code n) b := by
  obtain ⟨function, layout⟩ := runs.frame procedure compiles bound here
  have consistent : (State.inside b).Consistent := stateAt_consistent here
  have housed : (State.inside b).Housed table := stateAt_housed here
  exact ⟨runs.scope, function, layout, few, consistent.sound, housed, runs.separate⟩

/-- What moves within a block leave alone keeps the caller's registers. -/
theorem Activation.Keeps.block {m₀ : Machine} (keeps : A.Keeps m₀ m)
    (untouched : Untouched A blockLimits m m') : A.Keeps m₀ m' := by
  intro q member a address
  have entry : q ∈ entryPairs A.function A.layout := by
    simp only [entryPairs, List.mem_append] at member ⊢
    exact .inl member.symm
  rw [untouched.words q.2 (entryPairs_mem entry) ?_ a address, keeps q member a address]
  rcases List.mem_append.mp member with member | member
  · obtain ⟨r, j, rfl, _⟩ := savedPairs_cases member
    rfl
  · obtain ⟨_, rfl⟩ := mem_returnPairs.mp member
    rfl

/-- Without calls no temporary gets a spare word. -/
theorem HasProcedure.owners_nil (procedure : HasProcedure instrs name p body)
    (compiles : Compiles options table code instrs listing) (scalar : ∀ x ∈ body, x.isScalar = true)
    (bound : k ≤ body.length) (here : stateAt options table code (p + 1 + k) = .ok (.inside b)) :
    b.spare.owners = [] := by
  induction k generalizing b with
  | zero =>
    obtain ⟨out, f, l, _, _, _, start, _⟩ := procedure.stateAt_inside compiles bound
    cases Except.ok.inj (here.symm.trans start)
    rfl
  | succ k ih =>
    obtain ⟨_, _, _, b', _, _, _, before, _⟩ := procedure.stateAt_inside compiles (Nat.le_of_succ_le bound)
    have found := List.getElem?_eq_getElem bound
    obtain ⟨c, next, steps⟩ := procedure.step_inside compiles found before
    cases Except.ok.inj (here.symm.trans next)
    have owners := ih (Nat.le_of_succ_le bound) before
    have member := scalar _ (List.getElem_mem bound)
    generalize body[k] = x at steps member
    cases steps with
    | nop => exact owners
    | lower real plain lowers =>
      have consistent : (State.inside b').Consistent := stateAt_consistent before
      have same := (lower_marks (b := { b' with reserved := [], returned := false }) consistent
        (fun f res call => by simp [call, Instr.isScalar] at member) lowers).1
      rw [same]
      exact owners

theorem Suits.advance (suits : Suits A site b) :
    Suits A site { b with reserved := [], returned := false } :=
  suits.update _ _ _ _

theorem position_of_emits (emits : Emits b is c) :
    (State.inside c).position = (State.inside b).position + is.length := by
  unfold State.position
  simp only [State.out]
  rw [show c.out.lines.toList = _ from emits]
  simp

/-- The machine gets from the code of one instruction to that of the next. -/
theorem Matches.advance {env' : Env} {n : Nat} (here : Matches A m₀ b env s)
    (compiles : Compiles options table code instrs listing)
    (data : A.data = (Image.ofLines listing.lines).data) (bound : n ≤ instrs.length)
    (next : stateAt options table code n = .ok (.inside c)) (returned : c.returned = false)
    (simulates : Simulates A everything b c env' s.2) :
    ∃ s', (Image.ofLines listing.lines).Reaches s s' ∧ Matches A m₀ c env' s' := by
  obtain ⟨is, m', emits, ran, agrees, untouched⟩ := simulates
  have lines : (State.inside c).out.lines.toList =
      (State.inside b).out.lines.toList ++ is.map Line.instr ++ [] := by
    rw [List.append_nil]
    exact emits
  have holds := compiles.holds bound next lines
  rw [data] at ran
  have reaches := Image.reaches_execAll holds ran
  rw [← here.position] at reaches
  refine ⟨_, reaches, ?_, agrees, untouched.ra.trans here.ra, here.keeps.block untouched, returned⟩
  rw [position_of_emits emits]

/-- Instructions that compute simulate their steps. -/
theorem scalar_simulates {o : Outcome} (straight : x.isStraight = true)
    (strict : site.options.strict = true) (suits : Suits A site b) (range : x.isInRange = true)
    (track : ∀ name ∈ x.uses, tracked (A.place name)) (agrees : Agrees A tracked b.store env m)
    (runs : x.run A.place body k env = some o) (ran : lower site x b = .ok ((), c)) :
    ∃ env', o = .running (k + 1) env' ∧
      Simulates A (fun p => x.assigned?.map A.place = some p ∨ tracked p) b c env' m := by
  have given {res : String} {p : Place} (track : some (A.place res) = some p ∨ tracked p) :
      p = A.place res ∨ tracked p :=
    track.imp_left fun same => (Option.some.inj same).symm
  cases x with
  | binary op left right res =>
    obtain ⟨w, value, rfl⟩ := Option.map_eq_some_iff.mp runs
    simp only [Instr.isInRange, Bool.and_eq_true] at range
    exact ⟨_, rfl, (binary_simulates strict suits range track agrees value ran).narrow fun _ => given⟩
  | unary op y res =>
    cases Option.some.inj runs
    exact ⟨_, rfl, (unary_simulates strict suits range track agrees ran).narrow fun _ => given⟩
  | imm n res =>
    cases Option.some.inj runs
    exact ⟨_, rfl, (imm_simulates suits range agrees ran).narrow fun _ => given⟩
  | copy src res =>
    cases Option.some.inj runs
    refine ⟨_, rfl, (copy_simulates strict suits (fun other => track src ?_) agrees ran).narrow
      fun p track => track.imp_left fun same => ?_⟩
    · simp [Instr.uses, other]
    · simp only [Instr.assigned?] at same
      split at same
      · contradiction
      · rename_i other
        exact ⟨other, (Option.some.inj same).symm⟩
  | load | store | loadInd | storeInd | param => simp [Instr.run] at runs
  | _ => simp [Instr.isStraight] at straight

/-! Jumps -/

theorem execAll_delay (data : Data) (m : Machine) (options : Options) (n : Nat) :
    m.execAll data (delay options n) = some m := by
  unfold delay
  split
  · induction n with
    | zero => rfl
    | succ n ih => simpa [List.replicate_succ, Machine.execAll, Machine.exec] using ih
  · rfl

section Branches

variable {image : Image} {pc : Nat} {y : MachineReg} {target : String} {ifTrue : Bool}

def branchInstr (ifTrue : Bool) (y : MachineReg) (target : String) : Asm.Instr :=
  if ifTrue = true then .bne y .zero target else .beq y .zero target

theorem branch_taken {there : Nat} (holds : image.Holds pc (branchInstr ifTrue y target :: is))
    (taken : decide (m.read y ≠ 0) = ifTrue) (label : image.labels target = some there) :
    image.step (pc, m) = some ((there : Int), m) := by
  have zero : m.read .zero = 0 := rfl
  have fetched := holds.fetch
  unfold branchInstr at fetched
  cases ifTrue with
  | true =>
    have nonzero : m.read y ≠ 0 := by simpa using taken
    simp only [if_true] at fetched
    simp only [Image.step, fetched, zero, if_pos nonzero, label, Option.map_some]
  | false =>
    have empty : m.read y = 0 := by simpa using taken
    simp only [Bool.false_eq_true, if_false] at fetched
    simp only [Image.step, fetched, zero, if_pos empty, label, Option.map_some]

theorem branch_passed (holds : image.Holds pc (branchInstr ifTrue y target :: is))
    (passed : ¬ decide (m.read y ≠ 0) = ifTrue) : image.step (pc, m) = some ((pc : Int) + 1, m) := by
  have zero : m.read .zero = 0 := rfl
  have fetched := holds.fetch
  unfold branchInstr at fetched
  cases ifTrue with
  | true =>
    have empty : ¬ m.read y ≠ 0 := by simpa using passed
    simp only [if_true] at fetched
    simp only [Image.step, fetched, zero, if_neg empty]
  | false =>
    have nonzero : ¬ m.read y = 0 := by simpa using passed
    simp only [Bool.false_eq_true, if_false] at fetched
    simp only [Image.step, fetched, zero, if_neg nonzero]

end Branches

/-- What is true at the start of a block: no register holds anything. -/
theorem label_start {l : Label} (sound : b.store.Sound) (ran : lower site (.label l) b = .ok ((), c)) :
    (∀ r w, w ∉ c.store.held r) ∧ c.returned = b.returned := by
  obtain ⟨is, b₁, flushed, rfl⟩ := label_ok sound ran
  exact ⟨flushed.empty, flushed.moves.sameProcedure.returned⟩

theorem target?_eq_some {target : String} {j : Nat} (found : target? body target = some j) :
    ∃ i x, j = i + 1 ∧ body[i]? = some x ∧ x.plainLabel? = some target := by
  obtain ⟨i, index, rfl⟩ := Option.map_eq_some_iff.mp found
  obtain ⟨bound, label, _⟩ := List.findIdx?_eq_some_iff_getElem.mp index
  exact ⟨i, body[i], rfl, List.getElem?_eq_getElem bound, by simpa using label⟩

/-- The generator behind a label that control may go to. -/
theorem HasProcedure.behind_label {j : Nat} {target : String} (procedure : HasProcedure instrs name p body)
    (compiles : Compiles options table code instrs listing) (found : target? body target = some j) :
    ∃ x c, j ≤ body.length ∧ instrs[p + j]? = some x ∧ x.plainLabel? = some target ∧
      stateAt options table code (p + 1 + j) = .ok (.inside c) ∧ (∀ r w, w ∉ c.store.held r) ∧
      c.returned = false := by
  obtain ⟨i, x, rfl, label, plain⟩ := target?_eq_some found
  obtain ⟨bound, _⟩ := List.getElem?_eq_some_iff.mp label
  obtain ⟨_, _, _, b, _, _, _, before, _⟩ := procedure.stateAt_inside compiles (Nat.le_of_lt bound)
  obtain ⟨c, next, steps⟩ := procedure.step_inside compiles label before
  have consistent : (State.inside b).Consistent := stateAt_consistent before
  have inside := procedure.inside i bound
  rw [label, show p + 1 + i = p + (i + 1) by omega] at inside
  refine ⟨x, c, bound, inside, plain, next, ?_⟩
  cases x with
  | label l =>
    cases steps with
    | lower real _ lowers =>
      exact label_start (b := { b with reserved := [], returned := false }) consistent.sound lowers
  | _ => simp [Instr.plainLabel?] at plain

/-- Control arrives behind a label with every variable in its home. -/
theorem Matches.arrive {j : Nat} {target : String} {there : Site} {m₁ : Machine}
    (runs : A.Runs options table code listing name) (procedure : HasProcedure instrs name p body)
    (compiles : Compiles options table code instrs listing) (scalar : ∀ x ∈ body, x.isScalar = true)
    (found : target? body target = some j) (suits : Suits A there b)
    (settled : Settled b.store) (agrees : Agrees A everything b.store env m₁)
    (ra : m₁.read .ra = m₀.read .ra) (keeps : A.Keeps m₀ m₁) :
    ∃ c pc, stateAt options table code (p + 1 + j) = .ok (.inside c) ∧ j ≤ body.length ∧
      (Image.ofLines listing.lines).labels target = some pc ∧ Matches A m₀ c env (pc, m₁) := by
  obtain ⟨x, c, bound, inside, plain, next, empty, returned⟩ := procedure.behind_label compiles found
  have owners := procedure.owners_nil compiles scalar bound next
  have suits' := runs.suits procedure compiles bound next (by simp [owners]) 0
  have place := compiles.label inside plain (Nat.add_right_comm p 1 j ▸ next)
  refine ⟨c, _, next, bound, place, rfl, ?_, ra, keeps, returned⟩
  refine agrees.jump suits suits' settled empty (fun _ _ => trivial) fun v e h known home place _ => ?_
  obtain ⟨s, a, slot, _⟩ := suits'.home known home
  rw [owners] at slot
  cases slot with
  | declared other => cases place.symm.trans other
  | global other => cases place.symm.trans other
  | spare _ owner => simp at owner

theorem emits_append (b : Body) (is : List Asm.Instr) : Emits b is { b with out := b.out.append is } :=
  Output.lines_append ..

/-- Code that runs up to a jump, and the jump. -/
theorem Matches.reaches_jump {n : Nat} {st : State} {x : Asm.Instr} (here : Matches A m₀ b env s)
    (compiles : Compiles options table code instrs listing)
    (data : A.data = (Image.ofLines listing.lines).data) (bound : n ≤ instrs.length)
    (next : stateAt options table code n = .ok st) (out : st.out = c.out)
    (emits : Emits b (is ++ jumpInstrs options x) c) (ran : s.2.execAll A.data is = some m') :
    ∃ pc : Nat, (Image.ofLines listing.lines).Reaches s (pc, m') ∧
      (Image.ofLines listing.lines).Holds pc (jumpInstrs options x) ∧
      pc + (jumpInstrs options x).length = (State.inside c).position := by
  have lines : st.out.lines.toList =
      (State.inside b).out.lines.toList ++ (is ++ jumpInstrs options x).map Line.instr ++ [] := by
    rw [out, List.append_nil]
    exact emits
  have holds := compiles.holds bound next lines
  rw [data] at ran
  have reaches := Image.reaches_execAll holds.left ran
  rw [← here.position] at reaches
  refine ⟨_, reaches, holds.right, ?_⟩
  rw [position_of_emits emits, List.length_append]
  omega

/-- The machine is at a point of the procedure. -/
def Stands (options : Options) (table : Scope) (code : List Quad) (p : Nat) (body : List Instr)
    (A : Activation) (m₀ : Machine) (k : Nat) (env : Env) (s : Int × Machine) : Prop :=
  k ≤ body.length ∧ ∃ b, stateAt options table code (p + 1 + k) = .ok (.inside b) ∧ Matches A m₀ b env s

variable {j n : Nat} {env' : Env} {target : String}

theorem goto_step (runs : A.Runs options table code listing name)
    (procedure : HasProcedure instrs name p body) (compiles : Compiles options table code instrs listing)
    (scalar : ∀ x ∈ body, x.isScalar = true) (suits : Suits A site b) (consistent : Consistent b.store)
    (here : Matches A m₀ b env s) (bound : n ≤ instrs.length)
    (next : stateAt options table code n = .ok (.inside c)) (same : site.options = options)
    (lowers : lower site (.goto target) b = .ok ((), c)) (found : target? body target = some j) :
    ∃ s', (Image.ofLines listing.lines).Reaches s s' ∧
      Stands options table code p body A m₀ j env s' := by
  obtain ⟨is, b₁, flushed, rfl⟩ := jump_ok suits.sound lowers
  obtain ⟨m₁, ran, agrees, untouched, _⟩ := flushed.run suits here.agrees
  have untouched : Untouched A blockLimits s.2 m₁ := untouched.block
  obtain ⟨c, pc, there, inside, label, arrives⟩ := Matches.arrive runs procedure compiles scalar found
    (flushed.moves.suits suits) (flushed.settled consistent) agrees
    (untouched.ra.trans here.ra) (here.keeps.block untouched)
  have emits := Emits.trans flushed.moves.lines (emits_append b₁ (jumpInstrs options (.j target)))
  obtain ⟨pc', reaches, holds, _⟩ :=
    here.reaches_jump compiles runs.data bound next (by rw [same]; rfl) emits ran
  have jumps : (Image.ofLines listing.lines).step (pc', m₁) = some ((pc : Int), m₁) := by
    simp only [Image.step, holds.fetch, label, Option.map_some]
  exact ⟨_, reaches.tail jumps, inside, c, there, arrives⟩

theorem branch_step {cond : Operand} {ifTrue : Bool} (runs : A.Runs options table code listing name)
    (procedure : HasProcedure instrs name p body) (compiles : Compiles options table code instrs listing)
    (scalar : ∀ x ∈ body, x.isScalar = true) (suits : Suits A site b) (consistent : Consistent b.store)
    (strict : site.options.strict = true) (range : cond.isInRange = true) (inside : k < body.length)
    (here : Matches A m₀ b env s) (bound : p + 1 + (k + 1) ≤ instrs.length)
    (next : stateAt options table code (p + 1 + (k + 1)) = .ok (.inside c))
    (same : site.options = options) (lowers : lower site (.branch cond ifTrue target) b = .ok ((), c))
    (runs' : (Instr.branch cond ifTrue target).run A.place body k env = some (.running j env')) :
    ∃ s', (Image.ofLines listing.lines).Reaches s s' ∧
      Stands options table code p body A m₀ j env' s' := by
  obtain ⟨y, is, js, b₁, b₂, located, flushed, rfl⟩ := branch_ok suits.sound lowers
  obtain ⟨m₁, ran₁, agrees₁, untouched₁, value⟩ :=
    located.run suits range (located.quiet strict) (fun _ _ => trivial) here.agrees
  have suits₁ := located.moves.suits suits
  obtain ⟨m₂, ran₂, agrees₂, untouched₂, kept⟩ := flushed.run suits₁ agrees₁
  have untouched : Untouched A blockLimits s.2 m₂ := untouched₁.block.trans untouched₂.block
  have condition : m₂.read y = cond.eval A.place env := (kept y).trans value
  have emits := Emits.trans (Emits.trans located.moves.lines flushed.moves.lines)
    (emits_append b₂ (jumpInstrs options (branchInstr ifTrue y target)))
  obtain ⟨pc, reaches, holds, behind⟩ := here.reaches_jump compiles runs.data bound next
    (by rw [same]; rfl) emits (Machine.execAll_trans ran₁ ran₂)
  simp only [Instr.run] at runs'
  split at runs'
  · rename_i taken
    obtain ⟨_, found, state⟩ := Option.map_eq_some_iff.mp runs'
    cases state
    obtain ⟨c, there, arrived, inside, label, arrives⟩ :=
      Matches.arrive runs procedure compiles scalar found (flushed.moves.suits suits₁)
        (flushed.settled (located.moves.consistent rfl consistent)) agrees₂
        (untouched.ra.trans here.ra) (here.keeps.block untouched)
    exact ⟨_, reaches.tail (branch_taken holds (condition ▸ taken) label), inside, c, arrived, arrives⟩
  · rename_i passed
    cases Option.some.inj runs'
    have returned := located.moves.sameProcedure.trans flushed.moves.sameProcedure
    have falls := reaches.tail (branch_passed holds (condition ▸ passed))
    have waits := Image.reaches_execAll
      (show (Image.ofLines listing.lines).Holds pc ([_] ++ delay options 1) from holds).right
      (execAll_delay (Image.ofLines listing.lines).data m₂ options 1)
    refine ⟨_, falls.trans waits, inside, _, next, ?_, agrees₂, untouched.ra.trans here.ra,
      here.keeps.block untouched, returned.returned.trans here.returned⟩
    have out : (State.inside { b₂ with out := b₂.out.append (jumpInstrs site.options
        (branchInstr ifTrue y target)) }).position = pc + 1 + (delay options 1).length := by
      rw [same, ← behind]
      simp only [jumpInstrs, List.length_cons]
      omega
    exact congrArg Nat.cast out.symm

theorem label_step {l : Label} (compiles : Compiles options table code instrs listing)
    (data : A.data = (Image.ofLines listing.lines).data) (suits : Suits A site b)
    (here : Matches A m₀ b env s) (bound : n ≤ instrs.length)
    (next : stateAt options table code n = .ok (.inside c))
    (lowers : lower site (.label l) b = .ok ((), c)) :
    ∃ s', (Image.ofLines listing.lines).Reaches s s' ∧ Matches A m₀ c env s' := by
  obtain ⟨is, b₁, flushed, rfl⟩ := label_ok suits.sound lowers
  obtain ⟨m₁, ran, agrees, untouched, _⟩ := flushed.run suits here.agrees
  have untouched : Untouched A blockLimits s.2 m₁ := untouched.block
  have lines : (State.inside { b₁ with out := b₁.out.push (.label l.name) }).out.lines.toList =
      (State.inside b).out.lines.toList ++ is.map Line.instr ++ [.label l.name] := by
    simp only [State.out, Output.push, Array.toList_push]
    rw [show b₁.out.lines.toList = _ from flushed.moves.lines]
  rw [data] at ran
  have reaches := Image.reaches_execAll (compiles.holds bound next lines) ran
  rw [← here.position] at reaches
  refine ⟨_, reaches, ?_, agrees, untouched.ra.trans here.ra, here.keeps.block untouched,
    flushed.moves.sameProcedure.returned.trans here.returned⟩
  unfold State.position
  rw [lines]
  simp
  rfl

/-- The machine stands before the code of an instruction. -/
theorem Stands.lowers (runs : A.Runs options table code listing name)
    (procedure : HasProcedure instrs name p body) (compiles : Compiles options table code instrs listing)
    (scalar : ∀ x ∈ body, x.isScalar = true) (here : Stands options table code p body A m₀ k env s)
    (found : body[k]? = some x) (real : x ≠ .nop) :
    ∃ b c, p + 1 + (k + 1) ≤ instrs.length ∧ x.isInRange = true ∧
      stateAt options table code (p + 1 + (k + 1)) = .ok (.inside c) ∧
      Suits A (siteAt options table code (p + 1 + k)) b ∧ Consistent b.store ∧ Matches A m₀ b env s ∧
      lower (siteAt options table code (p + 1 + k)) x b = .ok ((), c) := by
  obtain ⟨bound, b, reached, here⟩ := here
  obtain ⟨inside, _⟩ := List.getElem?_eq_some_iff.mp found
  have occurs := procedure.inside k inside
  rw [found] at occurs
  have range := decodeFrom_isInRange compiles.decoded x (List.mem_of_getElem? occurs)
  have owners := procedure.owners_nil compiles scalar bound reached
  have suits := runs.suits procedure compiles bound reached (by simp [owners]) (p + 1 + k)
  have consistent : (State.inside b).Consistent := stateAt_consistent reached
  obtain ⟨c, next, stepped⟩ := procedure.step_inside compiles found reached
  cases stepped with
  | nop => exact absurd rfl real
  | lower _ _ lowers =>
    exact ⟨_, c, (List.getElem?_eq_some_iff.mp occurs).1, range, next, suits.advance, consistent,
      ⟨here.position, here.agrees, here.ra, here.keeps, rfl⟩, lowers⟩

theorem Stands.nop (procedure : HasProcedure instrs name p body)
    (compiles : Compiles options table code instrs listing)
    (here : Stands options table code p body A m₀ k env s) (found : body[k]? = some .nop) :
    Stands options table code p body A m₀ (k + 1) env s := by
  obtain ⟨_, b, reached, here⟩ := here
  obtain ⟨c, next, stepped⟩ := procedure.step_inside compiles found reached
  refine ⟨(List.getElem?_eq_some_iff.mp found).1, ?_⟩
  cases stepped with
  | nop => exact ⟨b, next, here⟩
  | lower real => exact absurd rfl real

/-- A step of the code is matched by steps of the machine. -/
theorem Stands.step (strict : options.strict = true) (runs : A.Runs options table code listing name)
    (procedure : HasProcedure instrs name p body) (compiles : Compiles options table code instrs listing)
    (scalar : ∀ x ∈ body, x.isScalar = true) (here : Stands options table code p body A m₀ k env s)
    (found : body[k]? = some x) (steps : x.run A.place body k env = some (.running j env')) :
    ∃ s', (Image.ofLines listing.lines).Reaches s s' ∧
      Stands options table code p body A m₀ j env' s' := by
  by_cases none : x = .nop
  · subst none
    cases Option.some.inj steps
    exact ⟨s, .refl, here.nop procedure compiles found⟩
  have member := scalar x (List.mem_of_getElem? found)
  obtain ⟨inside, _⟩ := List.getElem?_eq_some_iff.mp found
  obtain ⟨b, c, bound, range, next, suits, consistent, ready, lowers⟩ :=
    here.lowers runs procedure compiles scalar found none
  by_cases straight : x.isStraight = true
  · obtain ⟨env'', same, simulates⟩ :=
      scalar_simulates straight strict suits range (fun _ _ => trivial) ready.agrees steps lowers
    cases same
    have alone : ∀ f res, x ≠ .call f res := by
      rintro f res rfl
      simp [Instr.isScalar] at member
    have goes : ∀ y, x ≠ .ret y := by
      rintro y rfl
      simp [Instr.isStraight] at straight
    have returned := (lower_marks consistent alone lowers).2 goes
    obtain ⟨s', reaches, arrives⟩ :=
      ready.advance compiles runs.data bound next (returned.trans ready.returned)
        (simulates.narrow fun _ _ => .inr trivial)
    exact ⟨s', reaches, inside, c, next, arrives⟩
  · cases x with
    | branch cond ifTrue target =>
      exact branch_step runs procedure compiles scalar suits consistent strict range inside ready bound
        next rfl lowers steps
    | goto target =>
      obtain ⟨_, target, state⟩ := Option.map_eq_some_iff.mp steps
      cases state
      exact goto_step runs procedure compiles scalar suits consistent ready bound next rfl lowers target
    | label l =>
      cases Option.some.inj steps
      obtain ⟨s', reaches, arrives⟩ := label_step compiles runs.data suits ready bound next lowers
      exact ⟨s', reaches, inside, c, next, arrives⟩
    | nop => exact absurd rfl none
    | ret y => simp [Instr.run] at steps
    | call => simp [Instr.isScalar] at member
    | _ => simp [Instr.isStraight] at straight

/-! Returns -/

/-- The procedure has returned: the stack, the return address and the saved registers are the
caller's again, and memory holds the global variables. -/
structure Activation.Leaves (A : Activation) (m₀ m : Machine) (env : Env) : Prop where
  sp : m.read .sp = m₀.read .sp
  ra : m.read .ra = m₀.read .ra
  saved : ∀ p ∈ savedPairs A.layout, m.read p.1 = m₀.read p.1
  globals : ∀ name a, isGlobalScalar A.table name = true → A.slot (.global name) = some a →
    m.mem a = env (.global name)

/-- The machine stands at the return of the procedure with its value. -/
def Ends (image : Image) (A : Activation) (m₀ : Machine) (value : Option Word) (env : Env)
    (s : Int × Machine) : Prop :=
  image.fetch s.1 = some (.jr .ra) ∧ A.Leaves m₀ s.2 env ∧ ∀ w, value = some w → s.2.read .result = w

theorem Matches.reaches_return {st : State} {value : Option Word} (here : Matches A m₀ b env s)
    (compiles : Compiles options table code instrs listing) (runs : A.Runs options table code listing name)
    (fits : A.Fits) (below : A.sp = m₀.read .sp - BitVec.ofInt 32 A.layout.bytes.toInt)
    (bound : n ≤ instrs.length) (next : stateAt options table code n = .ok st) (out : st.out = c.out) (emits : Emits b (is ++ epilogue options A.layout) c)
    (ran : s.2.execAll A.data is = some m') (suits : Suits A site d)
    (agrees : Agrees A everything d.store env m')
    (settled : Settled d.store) (untouched : Untouched A blockLimits s.2 m')
    (result : ∀ w, value = some w → m'.read (.arg 0) = w) :
    ∃ s', (Image.ofLines listing.lines).Reaches s s' ∧
      Ends (Image.ofLines listing.lines) A m₀ value env s' := by
  obtain ⟨js, m₁, same, later, mem, sp, ra, args, saved⟩ := epilogue_run options runs.separate fits
    agrees.sp (untouched.ra.trans here.ra) (here.keeps.block untouched)
  rw [same, ← List.append_assoc] at emits
  obtain ⟨pc, reaches, holds, _⟩ := here.reaches_jump compiles runs.data bound next out emits
    (Machine.execAll_trans ran later)
  refine ⟨_, reaches, holds.fetch, ⟨?_, ra, saved, fun x a global address => ?_⟩, fun w some => ?_⟩
  · rw [sp, below, BitVec.sub_add_cancel]
  · rw [mem]
    exact agrees.global_word suits settled trivial global address
  · exact (args 0).trans (result w some)

theorem Stands.return {y : Option Operand} (strict : options.strict = true)
    (runs : A.Runs options table code listing name) (fits : A.Fits)
    (below : A.sp = m₀.read .sp - BitVec.ofInt 32 A.layout.bytes.toInt)
    (procedure : HasProcedure instrs name p body) (compiles : Compiles options table code instrs listing)
    (scalar : ∀ x ∈ body, x.isScalar = true) (here : Stands options table code p body A m₀ k env s)
    (found : body[k]? = some (.ret y)) :
    ∃ s', (Image.ofLines listing.lines).Reaches s s' ∧
      Ends (Image.ofLines listing.lines) A m₀ (y.map (·.eval A.place env)) env s' := by
  obtain ⟨b, c, bound, range, next, suits, consistent, here, lowers⟩ :=
    here.lowers runs procedure compiles scalar found (by simp)
  obtain ⟨is, js, b₁, b₂, returned, flushed, rfl⟩ := ret_ok suits.sound lowers
  obtain ⟨m₁, ran₁, agrees₁, untouched₁, result⟩ : ∃ m₁, s.2.execAll A.data is = some m₁ ∧
      Agrees A everything b₁.store env m₁ ∧ Untouched A blockLimits s.2 m₁ ∧
      ∀ w, y.map (·.eval A.place env) = some w → m₁.read (.arg 0) = w := by
    cases returned with
    | nothing => exact ⟨s.2, rfl, here.agrees, .refl .., by simp⟩
    | value copied =>
      obtain ⟨m₁, ran, agrees, untouched, value⟩ := copied.run suits range
        (Nat.le_of_eq (copied.moves.warnings.2 strict)) (fun _ _ => trivial) here.agrees
      refine ⟨m₁, ran, agrees, untouched.block, fun w some => ?_⟩
      rw [value]
      exact Option.some.inj some
  have suits₁ := returned.moves.suits suits
  obtain ⟨m₂, ran₂, agrees₂, untouched₂, kept⟩ := flushed.run suits₁ agrees₁
  have layout : A.layout = b₂.layout := (flushed.moves.suits suits₁).layout
  have emits := Emits.trans (Emits.trans returned.moves.lines flushed.moves.lines)
    (emits_append b₂ (epilogue options A.layout))
  refine here.reaches_return compiles runs fits below bound next (by rw [layout]; rfl) emits
    (Machine.execAll_trans ran₁ ran₂) (flushed.moves.suits suits₁) agrees₂
    (flushed.settled (returned.moves.consistent rfl consistent))
    (untouched₁.trans untouched₂.block) fun w some => ?_
  rw [kept, result w some]

/-- Behind its last instruction the procedure returns. -/
theorem Stands.exit (runs : A.Runs options table code listing name) (fits : A.Fits)
    (below : A.sp = m₀.read .sp - BitVec.ofInt 32 A.layout.bytes.toInt)
    (procedure : HasProcedure instrs name p body) (compiles : Compiles options table code instrs listing)
    (scalar : ∀ x ∈ body, x.isScalar = true)
    (here : Stands options table code p body A m₀ body.length env s) :
    ∃ s', (Image.ofLines listing.lines).Reaches s s' ∧
      Ends (Image.ofLines listing.lines) A m₀ none env s' := by
  obtain ⟨_, b, reached, here⟩ := here
  have owners := procedure.owners_nil compiles scalar (Nat.le_refl _) reached
  have suits := runs.suits procedure compiles (Nat.le_refl _) reached (by simp [owners])
    (p + 1 + body.length)
  have consistent : (State.inside b).Consistent := stateAt_consistent reached
  obtain ⟨l, ends, boundary⟩ := procedure.exit
  have bound : p + 1 + body.length + 1 ≤ instrs.length := (List.getElem?_eq_some_iff.mp ends).1
  obtain ⟨st, _, next, _⟩ := compiles.stateAt bound
  obtain ⟨_, before, stepped⟩ := (stateAt_succ compiles.decoded ends).mp next
  cases Except.ok.inj (reached.symm.trans before)
  cases step_stepped stepped with
  | lower _ plain => cases (plain l rfl).symm.trans boundary
  | exit _ leaves =>
    obtain ⟨is, b₁, flushed, rfl⟩ := leave_ok suits.sound leaves
    obtain ⟨m₁, ran, agrees, untouched, _⟩ := flushed.run suits here.agrees
    have running : b₁.returned = false := flushed.moves.sameProcedure.returned.trans here.returned
    have layout : A.layout = b₁.layout := (flushed.moves.suits suits).layout
    have emits := Emits.trans flushed.moves.lines (emits_append b₁ (epilogue options A.layout))
    exact here.reaches_return compiles runs fits below bound next (by rw [layout, running]; rfl) emits ran
      (flushed.moves.suits suits) agrees (flushed.settled consistent) untouched.block (by simp)

/-! Whole runs -/

/-- From the label of the procedure the machine gets to its first instruction. -/
theorem HasProcedure.entry_stands (procedure : HasProcedure instrs name p body)
    (compiles : Compiles options table code instrs listing)
    (names : ∀ f ∈ table.symbols, ((f.params ++ f.locals).map Decl.name).Nodup) :
    ∃ before after, listing.lines = before ++ .label name :: after ∧
      ∀ {A : Activation} {m : Machine} {env : Env}, A.Runs options table code listing name → A.Fits →
        A.Enters m env → ∃ s, (Image.ofLines listing.lines).Reaches ((codeOf before).length, m) s ∧
          Stands options table code p body A m 0 env s := by
  obtain ⟨out, f, l, _, entered, _, start, _⟩ := procedure.stateAt_inside compiles (Nat.zero_le _)
  have named : f.name = name := by simpa using List.find?_some entered.symbol
  obtain ⟨exit, ends, _⟩ := procedure.exit
  have bound : p + 1 ≤ instrs.length := by
    have := (List.getElem?_eq_some_iff.mp ends).1
    omega
  obtain ⟨st, ls, again, all, _⟩ := compiles.stateAt bound
  cases Except.ok.inj (start.symm.trans again)
  have lines : (Body.start options out f l).out.lines.toList =
      out.lines.toList ++ .label name :: (prologue l f.params.length).map Line.instr := by
    rw [start_lines, named]
  refine ⟨out.lines.toList, (prologue l f.params.length).map Line.instr ++ ls, ?_, ?_⟩
  · rw [all]
    simp only [State.out, lines, List.append_assoc, List.cons_append]
  intro A m env runs fits enters
  have function : A.function = f := Option.some.inj (runs.function.symm.trans entered.symbol)
  have layout : A.layout = l := Except.ok.inj (runs.layout.symm.trans (named ▸ entered.frame))
  obtain ⟨m', ran, agrees, ra, keeps⟩ : ∃ m', _ ∧ Agrees A everything _ env m' ∧ _ :=
    prologue_run options out runs.separate fits enters
      (names _ (List.mem_of_find?_eq_some runs.function))
  rw [function, layout] at ran agrees
  have holds := holds_ofLines (out.lines.toList ++ [.label name]) (prologue l f.params.length) ls
  have behind : (codeOf (out.lines.toList ++ [.label name])).length = (codeOf out.lines.toList).length := by
    simp
    rfl
  rw [behind, show out.lines.toList ++ [.label name] ++ (prologue l f.params.length).map Line.instr ++ ls =
    listing.lines by rw [all]; simp [State.out, lines]] at holds
  rw [runs.data] at ran
  refine ⟨_, Image.reaches_execAll holds ran, Nat.zero_le _, _, start, ?_, agrees, ra, keeps, rfl⟩
  unfold State.position
  simp [State.out, lines]

/-- The machine is where the procedure is. -/
def Follows (options : Options) (table : Scope) (code : List Quad) (listing : Listing) (p : Nat)
    (body : List Instr) (A : Activation) (m₀ : Machine) : Outcome → Int × Machine → Prop
  | .running k env, s => Stands options table code p body A m₀ k env s
  | .returned value env, s => Ends (Image.ofLines listing.lines) A m₀ value env s

theorem Follows.step {o o' : Outcome} (strict : options.strict = true)
    (runs : A.Runs options table code listing name) (fits : A.Fits)
    (below : A.sp = m₀.read .sp - BitVec.ofInt 32 A.layout.bytes.toInt)
    (procedure : HasProcedure instrs name p body) (compiles : Compiles options table code instrs listing)
    (scalar : ∀ x ∈ body, x.isScalar = true)
    (here : Follows options table code listing p body A m₀ o s) (steps : o.step A.place body = some o') :
    ∃ s', (Image.ofLines listing.lines).Reaches s s' ∧
      Follows options table code listing p body A m₀ o' s' := by
  cases o with
  | returned value env => cases steps
  | running k env =>
    unfold Outcome.step at steps
    cases found : body[k]? with
    | none =>
      simp only [found] at steps
      cases Option.some.inj steps
      have last : k = body.length := Nat.le_antisymm here.1 (List.getElem?_eq_none_iff.mp found)
      subst last
      exact Stands.exit runs fits below procedure compiles scalar here
    | some x =>
      simp only [found] at steps
      cases o' with
      | running j env' => exact Stands.step strict runs procedure compiles scalar here found steps
      | returned value env' =>
        cases x with
        | ret y =>
          cases Option.some.inj steps
          exact Stands.return strict runs fits below procedure compiles scalar here found
        | branch cond ifTrue target =>
          simp only [Instr.run] at steps
          split at steps <;> simp at steps
        | _ => simp [Instr.run] at steps

theorem Follows.run {o o' : Outcome} (strict : options.strict = true)
    (runs : A.Runs options table code listing name) (fits : A.Fits)
    (below : A.sp = m₀.read .sp - BitVec.ofInt 32 A.layout.bytes.toInt)
    (procedure : HasProcedure instrs name p body) (compiles : Compiles options table code instrs listing)
    (scalar : ∀ x ∈ body, x.isScalar = true)
    (here : Follows options table code listing p body A m₀ o s) (steps : o.Reaches A.place body o') :
    ∃ s', (Image.ofLines listing.lines).Reaches s s' ∧
      Follows options table code listing p body A m₀ o' s' := by
  induction steps with
  | refl => exact ⟨s, .refl, here⟩
  | tail _ last ih =>
    obtain ⟨s₁, reaches, follows⟩ := ih
    obtain ⟨s₂, further, follows⟩ :=
      follows.step strict runs fits below procedure compiles scalar last
    exact ⟨s₂, reaches.trans further, follows⟩

/-! Runs of closed programs -/

/-- What the generator makes of code that it accepts. -/
def listingOf (options : Options) (table : Scope) (code : List Quad) : Listing :=
  (compile options table code).toOption.getD ⟨[], [], []⟩

theorem compile_eq_listingOf (accepted : (compile options table code).toOption.isSome = true) :
    compile options table code = .ok (listingOf options table code) := by
  obtain ⟨listing, found⟩ := Option.isSome_iff_exists.mp accepted
  rw [listingOf, found]
  exact eq_ok_of_toOption found

/-- An activation of a function that calls nothing. -/
def activationOf (listing : Listing) (table : Scope) (f : Symbol) (l : Frame.Layout) (sp : Word) :
    Activation :=
  ⟨(Image.ofLines listing.lines).data, table, f, l, sp, 0, 0⟩

theorem activationOf_isOf {f : Symbol} {l : Frame.Layout} (sp : Word)
    (function : table.lookup name = some f)
    (layout : (Frame.find (Frame.plan options table code) name).toOption = some l) :
    (activationOf listing table f l sp).IsOf options table code listing name :=
  ⟨rfl, rfl, function, eq_ok_of_toOption layout⟩

/-- A machine with a stack and a first argument. Its memory is empty. -/
def startMachine (argument : Word) : Machine where
  regs
    | .sp => 0x8000
    | .arg 0 => argument
    | _ => 0
  mem _ := 0

def startEnv (f : Symbol) (m : Machine) : Env
  | .frame name => (f.argument? name).elim 0 m.read
  | _ => 0

def iterate? {α : Type} (step : α → Option α) : Nat → α → Option α
  | 0, s => some s
  | n + 1, s => (step s).bind (iterate? step n)

theorem reaches_of_iterate? {α : Type} {step : α → Option α} {s t : α} (n : Nat)
    (runs : iterate? step n s = some t) : Relation.ReflTransGen (fun s t => step s = some t) s t := by
  induction n generalizing s with
  | zero =>
    cases Option.some.inj runs
    exact .refl
  | succ n ih =>
    obtain ⟨s₁, first, later⟩ := Option.bind_eq_some_iff.mp runs
    exact .head first (ih later)

/-- The code of a procedure without calls simulates the procedure, where no size of its frame wraps
around and the frame has a place in memory. -/
theorem run_simulates {symbols : List Symbol} (built : Scope.insertAll {} symbols = .ok table)
    (strict : options.strict = true) (compiles : Compiles options table code instrs listing)
    (procedure : HasProcedure instrs name p body) (scalar : ∀ x ∈ body, x.isScalar = true) :
    ∃ before after, listing.lines = before ++ .label name :: after ∧
      ∀ (A : Activation) (m : Machine) (env : Env), A.IsOf options table code listing name →
        A.Placed → A.Enters m env →
        ∀ o, Outcome.Reaches A.place body (.running 0 env) o →
          ∃ s, (Image.ofLines listing.lines).Reaches ((codeOf before).length, m) s ∧
            Follows options table code listing p body A m o s := by
  obtain ⟨before, after, lines, starts⟩ :=
    procedure.entry_stands compiles (Scope.nodup_of_insertAll built (by simp))
  refine ⟨before, after, lines, fun A m env isOf placed enters o steps => ?_⟩
  obtain ⟨_, _, layout⟩ := Frame.find_plan isOf.layout
  have fits := placed.fits ⟨_, layout⟩
  have runs : A.Runs options table code listing name := ⟨isOf, placed.separate ⟨_, layout⟩⟩
  obtain ⟨s, reaches, stands⟩ := starts runs fits enters
  obtain ⟨s', further, follows⟩ := Follows.run (o := .running 0 env) strict runs fits enters.sp procedure
    compiles scalar stands steps
  exact ⟨s', reaches.trans further, follows⟩

end Procedures

/-- Adds up the numbers to its argument in a loop. -/
def sumFunction : Symbol :=
  { name := "f", kind := .function, params := [{ name := "n" }], locals := [{ name := "x" }] }

def sumTable : Scope := ⟨[{ name := "g" }, sumFunction]⟩

def sumCode : List Quad :=
  Quad.numberedFrom 0 [
    { op := "label", arg1 := "func_f" },
    { op := "=", arg1 := "0", res := "x" },
    { op := "label", arg1 := "again" },
    { op := "+", arg1 := "x", arg2 := "n", res := "x" },
    { op := "-", arg1 := "n", arg2 := "1", res := "n" },
    { op := "ifGoto", arg1 := "n", res := "again" },
    { op := "=", arg1 := "x", res := "g" },
    { op := "return", res := "x" },
    { op := "label", arg1 := "end_f" }]

def sumBody : List Instr :=
  [.imm 0 "x", .label ⟨"again", .plain⟩, .binary .add (.variable "x") (.variable "n") "x",
    .binary .sub (.variable "n") (.literal 1) "n", .branch (.variable "n") true "again", .copy "x" "g",
    .ret (some (.variable "x"))]

def sumInstrs : List Instr :=
  .label ⟨"func_f", .entry "f"⟩ :: sumBody ++ [.label ⟨"end_f", .exit "f"⟩]

def sumListing : Listing := listingOf {} sumTable sumCode

theorem run_simulates_sum :
    ∃ before after s, sumListing.lines = before ++ .label "f" :: after ∧
      (Image.ofLines sumListing.lines).Reaches ((codeOf before).length, startMachine 2) s ∧
      (Image.ofLines sumListing.lines).fetch s.1 = some (.jr .ra) ∧
      s.2.read (.arg 0) = 3 ∧ s.2.mem dataBase = 3 := by
  let A := activationOf sumListing sumTable sumFunction ⟨"f", true, 6, 0, 5, 0, 0⟩ (0x8000 - 24)
  let m := startMachine 2
  have compiles : Compiles {} sumTable sumCode sumInstrs sumListing :=
    ⟨compile_eq_listingOf (by decide +kernel), eq_ok_of_toOption (by decide +kernel), by decide +kernel,
      by decide +kernel⟩
  have procedure : HasProcedure sumInstrs "f" 0 sumBody :=
    ⟨⟨_, rfl, rfl⟩, by simp [sumBody], by decide +kernel, ⟨_, rfl, rfl⟩⟩
  have built : Scope.insertAll {} sumTable.symbols = .ok sumTable := eq_ok_of_toOption (by decide +kernel)
  obtain ⟨before, after, lines, simulates⟩ := run_simulates built rfl compiles procedure (by decide)
  have isOf : A.IsOf {} sumTable sumCode sumListing "f" := activationOf_isOf _ rfl (by decide +kernel)
  have enters : A.Enters m (startEnv sumFunction m) :=
    ⟨by decide +kernel, fun _ _ _ _ => rfl, fun _ _ _ _ => rfl⟩
  have ends : (iterate? (Outcome.step A.place sumBody) 10 (.running 0 (startEnv sumFunction m))).any (fun
      | .returned value env => value = some 3 ∧ env (.global "g") = 3
      | _ => false) = true := by decide +kernel
  obtain ⟨o, ran, result⟩ := (Option.any_eq_true ..).mp ends
  have global (name : String) (scalar : isGlobalScalar sumTable name = true) : name = "g" := by
    have cases : ∀ name ∈ (sumTable.symbols.map Symbol.name).filter (isGlobalScalar sumTable),
      name = "g" := by decide +kernel
    exact cases name (isGlobalScalar_mem scalar)
  have placed : A.Placed := by
    refine ⟨by decide +kernel, by decide +kernel, by decide +kernel, by decide +kernel, by decide +kernel,
      fun name scalar => ?_, fun n₁ n₂ left right _ => ?_⟩
    · rw [global name scalar]
      exact ⟨dataBase, by decide +kernel, by decide +kernel, .inl (by decide +kernel)⟩
    · rw [global n₁ left, global n₂ right]
  obtain ⟨s, reaches, follows⟩ :=
    simulates A m (startEnv sumFunction m) isOf placed enters o (reaches_of_iterate? 10 ran)
  cases o with
  | running => cases result
  | returned value env =>
    obtain ⟨some, global⟩ := of_decide_eq_true result
    obtain ⟨fetch, leaves, register⟩ := follows
    refine ⟨before, after, s, lines, reaches, fetch, register 3 some, ?_⟩
    rw [leaves.globals "g" dataBase (by decide +kernel) (by decide +kernel), global]

/-- The words of the two arrays wrap around, so both scalars get the first word of the frame. -/
def overlapFunction : Symbol :=
  { name := "f", kind := .function,
    locals := [{ name := "x" }, { name := "a", size := 9223372036854775807, isArray := true },
      { name := "b", size := 9223372036854775800, isArray := true }, { name := "y" }] }

def overlapTable : Scope := ⟨[overlapFunction]⟩

def overlapCode : List Quad :=
  Quad.numberedFrom 0 [
    { op := "label", arg1 := "func_f" },
    { op := "=", arg1 := "1", res := "x" },
    { op := "=", arg1 := "2", res := "y" },
    { op := "goto", res := "out" },
    { op := "label", arg1 := "out" },
    { op := "return", res := "x" },
    { op := "label", arg1 := "end_f" }]

def overlapBody : List Instr :=
  [.imm 1 "x", .imm 2 "y", .goto "out", .label ⟨"out", .plain⟩, .ret (some (.variable "x"))]

def overlapInstrs : List Instr :=
  .label ⟨"func_f", .entry "f"⟩ :: overlapBody ++ [.label ⟨"end_f", .exit "f"⟩]

def overlapListing : Listing := listingOf {} overlapTable overlapCode

/-- The procedure returns one, and its code returns two. -/
theorem overlap_not_simulated :
    Scope.insertAll {} overlapTable.symbols = .ok overlapTable ∧
    Compiles {} overlapTable overlapCode overlapInstrs overlapListing ∧
    HasProcedure overlapInstrs "f" 0 overlapBody ∧ (∀ x ∈ overlapBody, x.isScalar = true) ∧
    ∃ (A : Activation) (env : Env), A.IsOf {} overlapTable overlapCode overlapListing "f" ∧ A.Fits ∧
      A.Enters (startMachine 0) env ∧
      (∃ env', Outcome.Reaches A.place overlapBody (.running 0 env) (.returned (some 1) env')) ∧
      ∃ s, (Image.ofLines overlapListing.lines).Reaches (0, startMachine 0) s ∧
        (Image.ofLines overlapListing.lines).fetch s.1 = some (.jr .ra) ∧ s.2.read (.arg 0) = 2 := by
  let A := activationOf overlapListing overlapTable overlapFunction ⟨"f", true, 6, 0, 5, 0, 0⟩ (0x8000 - 24)
  let env := startEnv overlapFunction (startMachine 0)
  have returns : (iterate? (Outcome.step A.place overlapBody) 4 (.running 0 env)).any (fun
      | .returned value _ => value = some 1
      | _ => false) = true := by decide +kernel
  have runs : (iterate? (Image.ofLines overlapListing.lines).step 8 (0, startMachine 0)).any (fun s =>
      (Image.ofLines overlapListing.lines).fetch s.1 = some (.jr .ra) ∧ s.2.read (.arg 0) = 2) = true := by
    decide +kernel
  refine ⟨eq_ok_of_toOption (by decide +kernel),
    ⟨compile_eq_listingOf (by decide +kernel), eq_ok_of_toOption (by decide +kernel), by decide +kernel,
      by decide +kernel⟩,
    ⟨⟨_, rfl, rfl⟩, by simp [overlapBody], by decide +kernel, ⟨_, rfl, rfl⟩⟩, by decide, A, env,
    activationOf_isOf _ rfl (by decide +kernel), ⟨by decide +kernel, by decide +kernel⟩,
    ⟨by decide +kernel, fun _ _ _ _ => rfl, fun _ _ _ _ => rfl⟩, ?_, ?_⟩
  · obtain ⟨o, ran, result⟩ := (Option.any_eq_true ..).mp returns
    cases o with
    | running => cases result
    | returned value env' =>
      cases of_decide_eq_true result
      exact ⟨env', reaches_of_iterate? 4 ran⟩
  · obtain ⟨s, ran, result⟩ := (Option.any_eq_true ..).mp runs
    obtain ⟨fetch, value⟩ := of_decide_eq_true result
    exact ⟨s, reaches_of_iterate? 8 ran, fetch, value⟩

end ThreeAddress.Codegen
