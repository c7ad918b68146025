import ThreeAddress.Proofs.Invariant

/-! Two generators side by side. Where they read the same about the program they take the same
decisions, and their states differ in the output only. -/
namespace ThreeAddress.Asm

def Instr.isJump : Instr → Bool
  | .beq _ _ _ | .bne _ _ _ | .j _ | .jal _ | .jr _ => true
  | _ => false

/-- A line that reads the same whatever the options are: no load and no jump, which may have delay slots
behind them, and nothing that stands in such a slot. -/
def Line.isFixed : Line → Bool
  | .instr (.lw _ _) | .instr .nop => false
  | .instr i => !i.isJump
  | _ => true

end ThreeAddress.Asm

namespace ThreeAddress.Codegen

open Asm (Line Mem Listing)
open Descriptor (Store Var Entry)

/-- How the outputs of two generators correspond. Once the first one is stray, the second one may do
anything. -/
structure Coupling where
  related : Output → Output → Prop
  stray : Output → Prop
  /-- The second generator has to fail where the first one does. -/
  faithful : Prop
  /-- The generators differ in what they put into delay slots. -/
  slotted : Prop
  calm : faithful → ∀ o, ¬ stray o
  push : ∀ o p l, (slotted → l.isFixed = true) → related o p → related (o.push l) (p.push l)
  stray_push : ∀ o l, stray o → stray (o.push l)

namespace Coupling

/-- A coupling that holds for good: the first generator never strays. -/
def lasting (related : Output → Output → Prop) (push : ∀ o p l, related o p → related (o.push l) (p.push l)) :
    Coupling where
  related := related
  stray _ := False
  faithful := False
  slotted := False
  calm := fun impossible => impossible.elim
  push := fun o p l _ => push o p l
  stray_push := fun _ _ stray => stray

/-- A coupling of generators that fail together and differ in what they put into delay slots. -/
def joint (related : Output → Output → Prop)
    (push : ∀ o p l, l.isFixed = true → related o p → related (o.push l) (p.push l)) : Coupling where
  related := related
  stray _ := False
  faithful := True
  slotted := True
  calm := fun _ _ stray => stray
  push := fun o p l fixed => push o p l (fixed trivial)
  stray_push := fun _ _ stray => stray

variable {α β : Type} {k : Coupling}

/-- The results of two steps correspond. -/
def Results (k : Coupling) : Except Error (α × Body) → Except Error (α × Body) → Prop
  | .ok (a, b), y => k.stray b.out ∨ ∃ o, k.related b.out o ∧ y = .ok (a, { b with out := o })
  | .error e, y => k.faithful → y = .error e

/-- The second step follows the first one from all states that differ in the output only. -/
structure Follows (k : Coupling) (x y : Step α) : Prop where
  follows : ∀ b o, k.related b.out o → k.Results (x b) (y { b with out := o })
  strays : ∀ b c a, k.stray b.out → x b = .ok (a, c) → k.stray c.out

theorem related_append {o p : Output} (related : k.related o p) (is : List Asm.Instr)
    (fixed : k.slotted → ∀ i ∈ is, (Line.instr i).isFixed = true) :
    k.related (o.append is) (p.append is) := by
  induction is generalizing o p with
  | nil => exact related
  | cons i is ih =>
    have first := k.push o p (.instr i) (fun slotted => fixed slotted i (by simp)) related
    exact ih first fun slotted j member => fixed slotted j (by simp [member])

theorem stray_append {o : Output} (stray : k.stray o) (is : List Asm.Instr) : k.stray (o.append is) := by
  induction is generalizing o with
  | nil => exact stray
  | cons i is ih => exact ih (k.stray_push o (.instr i) stray)

namespace Follows

theorem returns (a : α) : k.Follows (pure a) (pure a) := by
  constructor
  · intro b o related
    exact .inr ⟨o, related, rfl⟩
  · intro b c x stray ran
    obtain ⟨_, rfl⟩ := pure_ok.mp ran
    exact stray

theorem fails (c : Cause) : k.Follows (failWith c : Step α) (failWith c) := by
  constructor
  · intro b o related _
    rfl
  · intro b d a stray ran
    exact (failWith_ok.mp ran).elim

theorem bind {x y : Step α} {f g : α → Step β} (first : k.Follows x y)
    (rest : ∀ a, k.Follows (f a) (g a)) : k.Follows (x >>= f) (y >>= g) := by
  constructor
  · intro b o related
    have before := first.follows b o related
    show k.Results (x b >>= fun p => f p.1 p.2) (y { b with out := o } >>= fun p => g p.1 p.2)
    cases ran : x b with
    | error e =>
      rw [ran] at before
      intro faithful
      rw [before faithful]
      rfl
    | ok p =>
      obtain ⟨a, d⟩ := p
      rw [ran] at before
      rcases before with stray | ⟨o', related', ran'⟩
      · show k.Results (f a d) _
        cases after : f a d with
        | error e => exact fun faithful => absurd stray (k.calm faithful d.out)
        | ok q => exact .inl ((rest a).strays d q.2 q.1 stray after)
      · rw [ran']
        exact (rest a).follows d o' related'
  · intro b c a stray ran
    obtain ⟨_, d, ran₁, ran₂⟩ := bind_ok.mp ran
    exact (rest _).strays d c a (first.strays b d _ stray ran₁) ran₂

/-- A step may depend on all of the state but the output. -/
theorem reads {f g : Body → Step β} (rest : ∀ b o, k.Follows (f b) (g { b with out := o })) :
    k.Follows (get >>= f) (get >>= g) := by
  constructor
  · intro b o related
    exact (rest b o).follows b o related
  · intro b c a stray ran
    exact (rest b b.out).strays b c a stray ran

theorem changes {f : Body → Body} (same : ∀ b o, f { b with out := o } = { f b with out := o }) :
    k.Follows (modify f) (modify f) := by
  have out (b : Body) : (f b).out = b.out := by
    have kept := congrArg Body.out (same b b.out)
    exact kept
  constructor
  · intro b o related
    refine .inr ⟨o, ?_, ?_⟩
    · rw [out]
      exact related
    · exact congrArg (fun b => Except.ok ((), b)) (same b o)
  · intro b c a stray ran
    obtain rfl := modify_ok.mp ran
    rw [out]
    exact stray

theorem changesStore (f : Store Mem → Store Mem) : k.Follows (modifyStore f) (modifyStore f) :=
  changes fun _ _ => rfl

theorem reserves (r : Reg) : k.Follows (reserve r) (reserve r) := changes fun _ _ => rfl

theorem within {x y : Step α} (follows : k.Follows x y) (c : Context) :
    k.Follows (Codegen.within c x) (Codegen.within c y) := by
  constructor
  · intro b o related
    have inner := follows.follows b o related
    unfold Codegen.within
    cases ran : x b with
    | error e =>
      rw [ran] at inner
      intro faithful
      rw [inner faithful]
      rfl
    | ok p =>
      rw [ran] at inner
      rcases inner with stray | ⟨o', related', ran'⟩
      · exact .inl stray
      · exact .inr ⟨o', related', by rw [ran']; rfl⟩
  · intro b c a stray ran
    exact follows.strays b c a stray (within_ok.mp ran)

/-- A look-up whose answer is not used. -/
theorem skips {x y : Except Error α} {f g : Step β} (found : (∃ a, x = .ok a) ↔ ∃ a, y = .ok a)
    (failed : ∀ e e', x = .error e → y = .error e' → e = e') (rest : k.Follows f g) :
    k.Follows (do let _ ← (liftM x : Step α); f) (do let _ ← (liftM y : Step α); g) := by
  constructor
  · intro b o related
    cases x with
    | error e =>
      cases y with
      | error e' =>
        intro _
        rw [failed e e' rfl rfl]
        rfl
      | ok a => simp at found
    | ok a =>
      obtain ⟨a', rfl⟩ := found.mp ⟨a, rfl⟩
      exact rest.follows b o related
  · intro b c a stray ran
    obtain ⟨_, d, first, ran⟩ := bind_ok.mp ran
    obtain ⟨_, rfl⟩ := liftM_ok.mp first
    exact rest.strays b c a stray ran

theorem emitsAll {is js : List Asm.Instr}
    (related : ∀ o p, k.related o p → k.related (o.append is) (p.append js)) :
    k.Follows (emitAll is) (emitAll js) := by
  constructor
  · intro b o before
    rw [(emitAll_ok (u := ())).mpr rfl, (emitAll_ok (u := ())).mpr rfl]
    exact .inr ⟨o.append js, related b.out o before, rfl⟩
  · intro b c a stray ran
    obtain rfl := emitAll_ok.mp ran
    exact stray_append stray is

theorem emits {is : List Asm.Instr} (fixed : ∀ i ∈ is, (Line.instr i).isFixed = true) :
    k.Follows (emitAll is) (emitAll is) :=
  emitsAll fun _ _ related => related_append related is fun _ => fixed

theorem emitsLine {l : Line} (fixed : l.isFixed = true) : k.Follows (emit l) (emit l) := by
  constructor
  · intro b o related
    exact .inr ⟨o.push l, k.push b.out o l (fun _ => fixed) related, rfl⟩
  · intro b c a stray ran
    obtain rfl := modify_ok.mp ran
    exact k.stray_push b.out l stray

theorem emitsInstr {i : Asm.Instr} (fixed : (Line.instr i).isFixed = true) :
    k.Follows (emitInstr i) (emitInstr i) := emitsLine fixed

theorem finds (v : Var) : k.Follows (entryOf v) (entryOf v) := by
  apply reads
  intro b o
  cases b.store.get? v with
  | none => exact fails .fault
  | some e => exact returns e

theorem ite {c : Prop} [Decidable c] {x x' y y' : Step α} (yes : k.Follows x y) (no : k.Follows x' y') :
    k.Follows (if c then x else x') (if c then y else y') := by
  split
  · exact yes
  · exact no

theorem forM {f g : α → Step Unit} (each : ∀ a, k.Follows (f a) (g a)) (xs : List α) :
    k.Follows (xs.forM f) (xs.forM g) := by
  induction xs with
  | nil => exact returns ()
  | cons x xs ih => exact bind (each x) fun _ => ih

theorem mapM {f g : α → Step β} (each : ∀ a, k.Follows (f a) (g a)) (xs : List α) :
    k.Follows (xs.mapM f) (xs.mapM g) := by
  induction xs with
  | nil =>
    rw [List.mapM_nil, List.mapM_nil]
    exact returns []
  | cons x xs ih =>
    rw [List.mapM_cons, List.mapM_cons]
    exact bind (each x) fun _ => bind ih fun _ => returns _

end Follows

/-- The lines that depend on the options correspond. -/
structure Writes (k : Coupling) (s t : Site) : Prop where
  load : ∀ o p dst mem, k.related o p →
    k.related (o.append (loadInstrs s.options dst mem)) (p.append (loadInstrs t.options dst mem))
  jump : ∀ o p i, i.isJump = true → k.related o p →
    k.related (o.append (jumpInstrs s.options i)) (p.append (jumpInstrs t.options i))

/-- The sites of two generators say the same to an instruction of a procedure. -/
structure Joins (k : Coupling) (s t : Site) : Prop extends k.Writes s t where
  table : t.table = s.table
  flushEach : t.options.flushEach = s.options.flushEach
  ahead : ∀ name, usedAhead name t.rest = usedAhead name s.rest
  framed : ∀ name, (∃ l, Frame.find s.frames name = .ok l) ↔ ∃ l, Frame.find t.frames name = .ok l
  unresolved : ∀ c, k.Follows (unresolved s c) (unresolved t c)

variable {s t : Site}

theorem Joins.laterUse (joins : k.Joins s t) (b : Body) (o : Output) :
    laterUse t { b with out := o } = laterUse s b := by
  funext name
  simp only [Codegen.laterUse, usedLater, joins.ahead]

end Coupling

open Coupling (Follows)

variable {k : Coupling} {s t : Site}

/-! Instructions that do not depend on the options -/

theorem immediateInstrs_fixed (dst : MachineReg) (n : Int) :
    ∀ i ∈ immediateInstrs dst n, (Line.instr i).isFixed = true := by
  unfold immediateInstrs
  split <;> simp [Line.isFixed, Asm.Instr.isJump]

theorem binaryInstrs_fixed (op : BinaryOp) (r y z : MachineReg) :
    ∀ i ∈ binaryInstrs op r y z, (Line.instr i).isFixed = true := by
  cases op <;> simp [binaryInstrs, Line.isFixed, Asm.Instr.isJump]

theorem unaryInstrs_fixed (op : UnaryOp) (r y : MachineReg) :
    ∀ i ∈ unaryInstrs op r y, (Line.instr i).isFixed = true := by
  unfold unaryInstrs
  split
  case h_4 => split <;> simp [Line.isFixed, Asm.Instr.isJump]
  all_goals simp [Line.isFixed, Asm.Instr.isJump]

theorem adjustStack_fixed (l : Frame.Layout) (bytes : Int64) :
    ∀ i ∈ adjustStack l bytes, (Line.instr i).isFixed = true := by
  unfold adjustStack
  split <;> simp [Line.isFixed, Asm.Instr.isJump]

theorem prologue_fixed (l : Frame.Layout) (params : Nat) :
    ∀ i ∈ prologue l params, (Line.instr i).isFixed = true := by
  intro i member
  rcases List.mem_append.mp member with moves | stores
  · exact adjustStack_fixed l _ i moves
  · obtain ⟨x, _, rfl⟩ := List.mem_map.mp stores
    rfl

/-! Registers and variables -/

theorem resolve?_follows (joins : k.Joins s t) (name : String) :
    k.Follows (resolve? s name) (resolve? t name) := by
  unfold resolve?
  rw [joins.table]
  apply Follows.reads
  intro b o
  dsimp only
  cases b.store.lookup name with
  | some v => exact .returns _
  | none =>
    cases s.table.lookup name with
    | none => exact .returns _
    | some x =>
      apply Follows.ite
      · apply Follows.reads
        intro c p
        exact .bind (.changesStore _) fun _ => .returns _
      · exact .returns _

theorem storeTo_follows (r : Reg) (v : Var) (home : Mem) : k.Follows (storeTo r v home) (storeTo r v home) :=
  .bind (.emitsInstr rfl) fun _ => .changesStore _

theorem heldEntries_follows (r : Reg) : k.Follows (heldEntries r) (heldEntries r) := by
  apply Follows.reads
  intro b o
  exact .mapM (fun v => .bind (.finds v) fun _ => .returns _) _

theorem spillCost_follows (joins : k.Joins s t) (needs : Needs) (r : Reg) :
    k.Follows (spillCost s needs r) (spillCost t needs r) := by
  apply Follows.bind (heldEntries_follows r)
  intro entries
  apply Follows.reads
  intro b o
  rw [joins.laterUse]
  exact .returns _

theorem spill_follows (needs : Needs) (r : Reg) : k.Follows (spill needs r) (spill needs r) := by
  apply Follows.bind (heldEntries_follows r)
  intro entries
  refine .bind (.forM (fun x => ?_) entries) fun _ => .changesStore _
  obtain ⟨v, e⟩ := x
  dsimp only
  split
  · exact .ite (storeTo_follows r v _) (.returns ())
  · exact .returns ()

theorem seize_follows (joins : k.Joins s t) (name : String) (needs : Needs) :
    k.Follows (seize s name needs) (seize t name needs) := by
  apply Follows.reads
  intro b o
  refine .bind (.mapM (fun r => ?_) _) fun costs => ?_
  · exact .bind (spillCost_follows joins needs r) fun _ => .returns _
  · split
    · exact .fails _
    · exact .fails _
    · exact .bind (spill_follows needs _) fun _ => .returns _

theorem residence?_follows (joins : k.Joins s t) (name : String) :
    k.Follows (residence? s name) (residence? t name) := by
  apply Follows.bind (resolve?_follows joins name)
  intro found
  cases found with
  | none => exact .returns none
  | some v => exact .bind (.finds v) fun _ => .returns _

theorem acquire_follows (joins : k.Joins s t) (name : String) (needs : Needs) :
    k.Follows (acquire s name needs) (acquire t name needs) := by
  have finish (r : Reg) : k.Follows (do reserve r; pure r) (do reserve r; pure r) :=
    .bind (.reserves r) fun _ => .returns r
  apply Follows.bind (residence?_follows joins name)
  intro found
  cases found with
  | some r => exact finish r
  | none =>
    apply Follows.reads
    intro b o
    have same : freeRegister? { b with out := o } = freeRegister? b := rfl
    rw [same]
    cases freeRegister? b with
    | some r => exact finish r
    | none => exact .bind (seize_follows joins name needs) finish

theorem ensureLoaded_follows (joins : k.Joins s t) (name : String) (r : Reg) :
    k.Follows (ensureLoaded s name r) (ensureLoaded t name r) := by
  apply Follows.bind (resolve?_follows joins name)
  intro found
  cases found with
  | none => exact joins.unresolved _
  | some v =>
    apply Follows.bind (.finds v)
    intro e
    apply Follows.ite (.returns ())
    cases e.register? with
    | some q => exact .bind (.emitsInstr rfl) fun _ => .changesStore _
    | none =>
      dsimp only
      cases (if e.homeValid = true then e.home else none) with
      | none => exact joins.unresolved _
      | some home => exact .bind (.emitsAll fun o p => joins.load o p _ home) fun _ => .changesStore _

theorem loaded_follows (joins : k.Joins s t) (name : String) (needs : Needs) :
    k.Follows (loaded s name needs) (loaded t name needs) := by
  apply Follows.bind (acquire_follows joins name needs)
  intro r
  exact .bind (ensureLoaded_follows joins name r) fun _ => .returns r

theorem operand_follows (joins : k.Joins s t) (x : Operand) (needs : Needs) (scratch : MachineReg) :
    k.Follows (operand s x needs scratch) (operand t x needs scratch) := by
  cases x with
  | literal n => exact .ite (.returns _) (.bind (.emits (immediateInstrs_fixed _ n)) fun _ => .returns _)
  | «variable» name => exact .bind (loaded_follows joins name needs) fun _ => .returns _

theorem commit_follows (joins : k.Joins s t) (r : Reg) (name : String) :
    k.Follows (commit s r name) (commit t r name) := by
  apply Follows.bind (resolve?_follows joins name)
  intro found
  cases found with
  | none => exact .changesStore _
  | some v => exact .bind (.finds v) fun _ => .changesStore _

theorem copyTo_follows (joins : k.Joins s t) (dst : MachineReg) (x : Operand) :
    k.Follows (copyTo s dst x) (copyTo t dst x) := by
  cases x with
  | literal n => exact .emits (immediateInstrs_fixed dst n)
  | «variable» name =>
    apply Follows.bind (resolve?_follows joins name)
    intro found
    cases found with
    | none => exact joins.unresolved _
    | some v =>
      apply Follows.bind (.finds v)
      intro e
      cases e.register? with
      | some q => exact .emitsInstr rfl
      | none =>
        dsimp only
        cases (if e.homeValid = true then e.home else none) with
        | none => exact joins.unresolved _
        | some home => exact .emitsAll fun o p => joins.load o p dst home

theorem writeBack_follows : k.Follows writeBack writeBack := by
  apply Follows.reads
  intro b o
  refine .forM (fun v => .bind (.finds v) fun e => ?_) _
  split
  · exact .ite (.returns ()) (storeTo_follows _ v _)
  · exact .returns ()

theorem flush_follows : k.Follows flush flush := .bind writeBack_follows fun _ => .changesStore _

theorem evictHomed_follows : k.Follows evictHomed evictHomed := by
  apply Follows.reads
  intro b o
  exact .forM (fun v => .bind (.finds v) fun _ => .ite (.changesStore _) (.returns ())) _

/-! Instructions inside of a block -/

theorem emits_commit_follows (joins : k.Joins s t) {is : List Asm.Instr}
    (fixed : ∀ i ∈ is, (Line.instr i).isFixed = true) (r : Reg) (res : String) :
    k.Follows (do emitAll is; commit s r res) (do emitAll is; commit t r res) :=
  .bind (.emits fixed) fun _ => commit_follows joins r res

theorem binary_follows (joins : k.Joins s t) (op : BinaryOp) (left right : Operand) (res : String) :
    k.Follows (binary s op left right res) (binary t op left right res) := by
  apply Follows.bind ((operand_follows joins left _ _).within _)
  intro y
  apply Follows.bind ((operand_follows joins right _ _).within _)
  intro z
  split
  · exact emits_commit_follows joins (binaryInstrs_fixed op _ y z) _ res
  · exact emits_commit_follows joins (binaryInstrs_fixed op _ y z) _ res
  · apply Follows.bind ((acquire_follows joins res _).within _)
    exact fun r => emits_commit_follows joins (binaryInstrs_fixed op _ y z) r res

theorem unary_follows (joins : k.Joins s t) (op : UnaryOp) (x : Operand) (res : String) :
    k.Follows (unary s op x res) (unary t op x res) := by
  apply Follows.bind (operand_follows joins x _ _)
  intro y
  split
  · exact emits_commit_follows joins (unaryInstrs_fixed op _ y) _ res
  · apply Follows.bind ((acquire_follows joins res _).within _)
    exact fun r => emits_commit_follows joins (unaryInstrs_fixed op _ y) r res

theorem immediate_follows (joins : k.Joins s t) (n : Int) (res : String) :
    k.Follows (immediate s n res) (immediate t n res) := by
  apply Follows.bind (acquire_follows joins res _)
  exact fun r => emits_commit_follows joins (immediateInstrs_fixed _ n) r res

theorem copy_follows (joins : k.Joins s t) (src res : String) :
    k.Follows (copy s src res) (copy t src res) := by
  apply Follows.ite (.returns ())
  apply Follows.bind (loaded_follows joins src _)
  intro y
  apply Follows.bind ((acquire_follows joins res _).within _)
  exact fun r => .bind (.emitsInstr rfl) fun _ => commit_follows joins r res

theorem arrayPlace_follows (joins : k.Joins s t) (array : String) :
    k.Follows (arrayPlace s array) (arrayPlace t array) := by
  unfold arrayPlace
  rw [joins.table]
  apply Follows.reads
  intro b o
  dsimp only
  split
  · exact .returns _
  · exact .returns _
  · exact .ite (.returns _) (.ite (.returns _) (.fails _))
  · exact .fails _

theorem element_follows (joins : k.Joins s t) (array : String) (index : Operand) (needs : Needs) :
    k.Follows (element s array index needs) (element t array index needs) := by
  apply Follows.bind ((operand_follows joins index needs _).within _)
  intro i
  refine .bind (.emitsInstr rfl) fun _ => .bind (arrayPlace_follows joins array) fun place => ?_
  cases place with
  | global => exact .returns _
  | frame offset => exact .bind (.emitsInstr rfl) fun _ => .returns _
  | pointer =>
    apply Follows.bind ((loaded_follows joins array _).within _)
    exact fun base => .bind (.emitsInstr rfl) fun _ => .returns _

theorem load_commit_follows (joins : k.Joins s t) (r : Reg) (mem : Mem) (res : String) :
    k.Follows (do emitAll (loadInstrs s.options (.pool r) mem); commit s r res)
      (do emitAll (loadInstrs t.options (.pool r) mem); commit t r res) :=
  .bind (.emitsAll fun o p => joins.load o p (.pool r) mem) fun _ => commit_follows joins r res

theorem loadElement_follows (joins : k.Joins s t) (array : String) (index : Operand) (res : String) :
    k.Follows (loadElement s array index res) (loadElement t array index res) := by
  apply Follows.bind (element_follows joins array index _)
  intro mem
  apply Follows.bind ((acquire_follows joins res _).within _)
  exact fun r => load_commit_follows joins r mem res

theorem storeElement_follows (joins : k.Joins s t) (array : String) (index value : Operand) :
    k.Follows (storeElement s array index value) (storeElement t array index value) := by
  apply Follows.bind (element_follows joins array index _)
  intro mem
  exact .bind ((operand_follows joins value _ _).within _) fun x => .emitsInstr rfl

theorem loadIndirect_follows (joins : k.Joins s t) (pointer res : String) :
    k.Follows (loadIndirect s pointer res) (loadIndirect t pointer res) := by
  apply Follows.bind ((loaded_follows joins pointer _).within _)
  intro p
  apply Follows.bind ((acquire_follows joins res _).within _)
  exact fun r => load_commit_follows joins r _ res

theorem storeIndirect_follows (joins : k.Joins s t) (pointer : String) (value : Operand) :
    k.Follows (storeIndirect s pointer value) (storeIndirect t pointer value) := by
  apply Follows.bind ((loaded_follows joins pointer _).within _)
  intro p
  exact .bind ((operand_follows joins value _ _).within _) fun x => .emitsInstr rfl

theorem straight_follows (joins : k.Joins s t) {x y : Step Unit} (follows : k.Follows x y) :
    k.Follows (straight s x) (straight t y) := by
  unfold straight
  rw [joins.flushEach]
  apply Follows.bind follows
  exact fun _ => .ite (.bind writeBack_follows fun _ => evictHomed_follows) (.returns ())

/-! Jumps and returns -/

theorem branch_follows (joins : k.Joins s t) (cond : Operand) (ifTrue : Bool) (target : String) :
    k.Follows (branch s cond ifTrue target) (branch t cond ifTrue target) := by
  apply Follows.bind (operand_follows joins cond _ _)
  intro c
  refine .bind flush_follows fun _ => .emitsAll fun o p => joins.jump o p _ ?_
  split <;> rfl

theorem jump_follows (joins : k.Joins s t) (target : String) :
    k.Follows (jump s target) (jump t target) :=
  .bind flush_follows fun _ => .emitsAll fun o p => joins.jump o p _ rfl

theorem Output.append_append (o : Output) (is js : List Asm.Instr) :
    o.append (is ++ js) = (o.append is).append js := List.foldl_append

theorem Coupling.Writes.epilogue (writes : k.Writes s t) (l : Frame.Layout) :
    k.Follows (emitAll (epilogue s.options l)) (emitAll (epilogue t.options l)) := by
  have loads (slots : List (MachineReg × Mem)) (o p : Output) (related : k.related o p) :
      k.related (o.append (slots.flatMap fun x => loadInstrs s.options x.1 x.2))
        (p.append (slots.flatMap fun x => loadInstrs t.options x.1 x.2)) := by
    induction slots generalizing o p with
    | nil => exact related
    | cons x slots ih =>
      simp only [List.flatMap_cons, Output.append_append]
      exact ih _ _ (writes.load o p x.1 x.2 related)
  apply Follows.emitsAll
  intro o p related
  simp only [Codegen.epilogue, Output.append_append]
  apply writes.jump _ _ _ rfl
  apply Coupling.related_append
  · exact loads _ o p related
  · exact fun _ => adjustStack_fixed l l.bytes

theorem leave_follows (writes : k.Writes s t) : k.Follows (leave s) (leave t) := by
  apply Follows.bind flush_follows
  intro _
  apply Follows.reads
  exact fun b o => .ite (.returns ()) (writes.epilogue b.layout)

theorem ret_follows (joins : k.Joins s t) (x : Option Operand) : k.Follows (ret s x) (ret t x) := by
  have finish : k.Follows (do
      flush
      emitAll (epilogue s.options (← get).layout)
      modify fun b => { b with returned := true } : Step Unit) (do
      flush
      emitAll (epilogue t.options (← get).layout)
      modify fun b => { b with returned := true } : Step Unit) := by
    apply Follows.bind flush_follows
    intro _
    apply Follows.reads
    exact fun b o => .bind (joins.epilogue b.layout) fun _ => .changes fun _ _ => rfl
  cases x with
  | none => exact finish
  | some x => exact .bind (copyTo_follows joins _ x) fun _ => finish

/-! Calls -/

theorem passArgument_follows (joins : k.Joins s t) (i : Nat) (x : Operand) :
    k.Follows (passArgument s i x) (passArgument t i x) := by
  unfold passArgument
  cases MachineReg.argument? i with
  | some dst => exact copyTo_follows joins dst x
  | none =>
    apply Follows.reads
    intro b o
    have outside : k.Follows
        (do copyTo s .address x; emitInstr (.sw .address (frameWord (b.layout.outgoingOffset (Int64.ofNat i)))))
        (do copyTo t .address x; emitInstr (.sw .address (frameWord (b.layout.outgoingOffset (Int64.ofNat i))))) :=
      .bind (copyTo_follows joins _ x) fun _ => .emitsInstr rfl
    cases x with
    | literal n => exact outside
    | «variable» name =>
      apply Follows.bind (residence?_follows joins name)
      intro found
      cases found with
      | some r => exact .emitsInstr rfl
      | none => exact outside

theorem passArguments_follows (joins : k.Joins s t) (start : Nat) (xs : List Operand) :
    k.Follows (passArguments s start xs) (passArguments t start xs) := by
  induction xs generalizing start with
  | nil => exact .returns ()
  | cons x xs ih => exact .bind ((passArgument_follows joins start x).within _) fun _ => ih (start + 1)

theorem spareWord?_follows (joins : k.Joins s t) (name : String) :
    k.Follows (spareWord? s name) (spareWord? t name) := by
  apply Follows.reads
  intro b o
  rw [joins.laterUse]
  dsimp only
  split
  · split
    · exact .bind (.changesStore _) fun _ => .bind (.changes fun _ _ => rfl) fun _ => .returns _
    · exact .bind (.changes fun _ _ => rfl) fun _ => .returns _
  · exact .ite (.bind (.changes fun _ _ => rfl) fun _ => .returns _) (.returns _)

theorem keep_follows (joins : k.Joins s t) (r : Reg) : k.Follows (keep s r) (keep t r) := by
  apply Follows.reads
  intro b o
  dsimp only
  cases b.store.holder? r with
  | none => exact .returns ()
  | some v =>
    apply Follows.bind (.finds v)
    intro e
    apply Follows.reads
    intro b o
    rw [joins.laterUse]
    apply Follows.ite (.returns ())
    apply Follows.reads
    intro b o
    have same : freeSaved? { b with out := o } = freeSaved? b := rfl
    rw [same]
    cases freeSaved? b with
    | some q => exact .bind (.emitsInstr rfl) fun _ => .bind (.changesStore _) fun _ => .reserves q
    | none =>
      apply Follows.bind (spareWord?_follows joins e.name)
      intro found
      cases found with
      | some home => exact .bind (.emitsInstr rfl) fun _ => .changesStore _
      | none => exact .fails _

theorem forget_follows (r : Reg) : k.Follows (forget r) (forget r) := by
  apply Follows.reads
  intro b o
  dsimp only
  cases b.store.holder? r with
  | none => exact .ite (.changesStore _) (.returns ())
  | some v => exact .bind (.finds v) fun _ => .ite (.changesStore _) (.returns ())

theorem find_error {frames : List Frame.Layout} {name : String} {e : Error}
    (failed : Frame.find frames name = .error e) : e = { cause := .noFrame name } := by
  unfold Frame.find at failed
  split at failed
  · cases failed
  · cases failed
    rfl

theorem call_follows (joins : k.Joins s t) (function : String) (res : Option String) :
    k.Follows (call s function res) (call t function res) := by
  unfold call
  apply Follows.skips (joins.framed function)
  · intro e e' left right
    rw [find_error left, find_error right]
  · rw [joins.table]
    cases s.table.lookup function with
    | none => exact .fails _
    | some f =>
      apply Follows.reads
      intro b o
      refine .bind (.changes fun _ _ => rfl) fun _ => .ite (.fails _) ?_
      refine .bind (passArguments_follows joins 0 _) fun _ => .bind writeBack_follows fun _ => ?_
      refine .bind (.forM (keep_follows joins) _) fun _ => .bind (.emitsAll fun o p => joins.jump o p _ rfl) fun _ => ?_
      apply Follows.bind (.forM forget_follows _)
      intro _
      cases res with
      | none => exact .returns ()
      | some res =>
        apply Follows.bind ((acquire_follows joins res _).within _)
        exact fun r => .bind (.emitsInstr rfl) fun _ => commit_follows joins r res

/-! Programs -/

theorem lower_follows (joins : k.Joins s t) (x : Instr) : k.Follows (lower s x) (lower t x) := by
  cases x with
  | binary op left right res => exact straight_follows joins (binary_follows joins op left right res)
  | unary op x res => exact straight_follows joins (unary_follows joins op x res)
  | imm n res => exact straight_follows joins (immediate_follows joins n res)
  | copy src res => exact straight_follows joins (copy_follows joins src res)
  | load array index res => exact straight_follows joins (loadElement_follows joins array index res)
  | store array index value => exact straight_follows joins (storeElement_follows joins array index value)
  | loadInd pointer res => exact straight_follows joins (loadIndirect_follows joins pointer res)
  | storeInd pointer value => exact straight_follows joins (storeIndirect_follows joins pointer value)
  | param x => exact straight_follows joins (.changes fun _ _ => rfl)
  | call function res => exact call_follows joins function res
  | branch cond ifTrue target => exact branch_follows joins cond ifTrue target
  | goto target => exact jump_follows joins target
  | ret x => exact ret_follows joins x
  | label l => exact .bind flush_follows fun _ => .emitsLine rfl
  | nop => exact .returns ()

/-! Steps and runs -/

/-- Two states differ in the output only. -/
inductive Coupling.States (k : Coupling) : State → State → Prop
  | idle {o p : Output} : k.related o p → k.States (.idle o) (.idle p)
  | inside {b : Body} {o : Output} : k.related b.out o → k.States (.inside b) (.inside { b with out := o })

/-- The states that two generators arrive at correspond. -/
def Coupling.Arrives (k : Coupling) : Except Error State → Except Error State → Prop
  | .ok st, y => k.stray st.out ∨ ∃ st', k.States st st' ∧ y = .ok st'
  | .error e, y => k.faithful → y = .error e

/-- The sites of two generators say the same to an instruction in a state. The code behind the label
that ends a procedure does not count, and outside of procedures only the frame of one that is
entered does. -/
structure Coupling.Meets (k : Coupling) (s t : Site) (x : Instr) (st : State) : Prop where
  table : t.table = s.table
  entry : t.options.entry = s.options.entry
  frame : ∀ l name, x = .label l → l.boundary = .entry name →
    Frame.find t.frames name = Frame.find s.frames name
  writes : k.Writes s t
  joins : ∀ b, st = .inside b → (∀ l, x = .label l → l.boundary = .plain) → k.Joins s t

/-- Taking up the state that a step ends in. -/
theorem Coupling.Results.arrives {x y : Except Error (Unit × Body)} (results : k.Results x y)
    (f : Body → State) (kept : ∀ b, (f b).out = b.out)
    (states : ∀ b o, k.related b.out o → k.States (f b) (f { b with out := o })) :
    k.Arrives (x.map fun p => f p.2) (y.map fun p => f p.2) := by
  cases x with
  | error e =>
    intro faithful
    rw [results faithful]
    rfl
  | ok p =>
    rcases results with stray | ⟨o, related, rfl⟩
    · left
      rw [kept]
      exact stray
    · exact .inr ⟨_, states p.2 o related, rfl⟩

theorem advance_eq (b : Body) (x : Step Unit) :
    (do return .inside (← b.advance x) : Except Error State) =
      (x { b with reserved := [], returned := false }).map fun p => .inside p.2 := by
  unfold Body.advance
  cases x { b with reserved := [], returned := false } <;> rfl

theorem leave_eq (site : Site) (b : Body) :
    (do let ((), c) ← leave site b; return .idle c.out : Except Error State) =
      (leave site b).map fun p => .idle p.2.out := by
  cases leave site b <;> rfl

theorem advance_follows {x y : Step Unit} (follows : k.Follows x y) {b : Body} {o : Output}
    (related : k.related b.out o) :
    k.Arrives (do return .inside (← b.advance x))
      (do return .inside (← ({ b with out := o } : Body).advance y)) := by
  rw [advance_eq, advance_eq]
  apply (follows.follows { b with reserved := [], returned := false } o related).arrives
  · exact fun _ => rfl
  · exact fun _ _ => .inside

theorem start_out (options : Options) (o : Output) (f : Symbol) (l : Frame.Layout) :
    (Body.start options o f l).out = (o.push (.label f.name)).append (prologue l f.params.length) := rfl

theorem start_states {options options' : Options} (entry : options'.entry = options.entry) {o p : Output}
    (related : k.related o p) (f : Symbol) (l : Frame.Layout) :
    k.States (.inside (.start options o f l)) (.inside (.start options' p f l)) := by
  have outs : k.related (Body.start options o f l).out (Body.start options' p f l).out := by
    rw [start_out, start_out]
    exact Coupling.related_append (k.push o p _ (fun _ => rfl) related) _ fun _ =>
      prologue_fixed l f.params.length
  have same : Body.start options' p f l =
      { Body.start options o f l with out := (Body.start options' p f l).out } := by
    simp only [Body.start, entry]
  rw [same]
  exact .inside outs

theorem enter_follows {name : String} {o p : Output} (table : t.table = s.table)
    (entry : t.options.entry = s.options.entry)
    (frame : Frame.find t.frames name = Frame.find s.frames name) (related : k.related o p) :
    k.Arrives (do return .inside (← enter s name o)) (do return .inside (← enter t name p)) := by
  unfold enter
  rw [table]
  cases symbol : s.table.lookup name with
  | none => exact fun _ => rfl
  | some f =>
    have named : f.name = name := by simpa using List.find?_some symbol
    subst named
    dsimp only
    split
    · exact fun _ => rfl
    · rw [frame]
      cases Frame.find s.frames f.name with
      | error e => exact fun _ => rfl
      | ok l =>
        by_cases room : totalWords f.locals > l.localWords
        · simp only [room, if_true, bind, Except.bind]
          exact fun _ => rfl
        · simp only [room, if_false, bind, Except.bind]
          exact .inr ⟨_, start_states entry related f l, rfl⟩

theorem step_follows {x : Instr} {st st' : State} (meets : k.Meets s t x st) (states : k.States st st') :
    k.Arrives (step s x st) (step t x st') := by
  cases states with
  | @idle o p related =>
    cases x with
    | nop => exact .inr ⟨_, .idle related, rfl⟩
    | label l =>
      simp only [step, stepLabel]
      cases boundary : l.boundary with
      | plain => exact .inr ⟨_, .idle (k.push o p _ (fun _ => rfl) related), rfl⟩
      | entry name => exact enter_follows meets.table meets.entry (meets.frame l name rfl boundary) related
      | exit name => exact fun _ => rfl
    | _ => exact fun _ => rfl
  | @inside b o related =>
    cases x with
    | nop => exact .inr ⟨_, .inside related, rfl⟩
    | label l =>
      simp only [step, stepLabel]
      cases boundary : l.boundary with
      | plain =>
        have plain : ∀ l', Instr.label l = .label l' → l'.boundary = .plain := by
          intro l' same
          cases same
          exact boundary
        exact advance_follows (lower_follows (meets.joins b rfl plain) (.label l)) related
      | entry name => exact fun _ => rfl
      | exit name =>
        dsimp only
        split
        · exact fun _ => rfl
        · rw [leave_eq, leave_eq]
          apply ((leave_follows meets.writes).follows b o related).arrives fun b => .idle b.out
          · exact fun _ => rfl
          · exact fun _ _ => .idle
    | _ => exact advance_follows (lower_follows (meets.joins b rfl (by simp)) _) related

theorem step_strays {x : Instr} {st st' : State} (meets : k.Meets s t x st) (stray : k.stray st.out)
    (ran : step s x st = .ok st') : k.stray st'.out := by
  cases step_stepped ran with
  | nop => exact stray
  | outside => exact k.stray_push _ _ stray
  | entry boundary entered =>
    obtain ⟨f, l, entered⟩ := enter_ok entered
    rw [State.out, entered.start, start_out]
    exact Coupling.stray_append (k.stray_push _ _ stray) _
  | exit _ left => exact (leave_follows meets.writes).strays _ _ () stray left
  | @lower _ b c _ plain lowered =>
    exact (lower_follows (meets.joins b rfl plain) x).strays { b with reserved := [], returned := false } c () stray
      lowered

section Runs

variable {options options' : Options} {table : Scope} {frames frames' : List Frame.Layout}

/-- The sites of two generators say the same to each instruction that the first one gets to. -/
def Coupling.Along (k : Coupling) (options options' : Options) (table : Scope)
    (frames frames' : List Frame.Layout) (start start' : Nat) (code code' : List Quad)
    (xs : List Instr) (st : State) : Prop :=
  ∀ n x st', xs[n]? = some x → runFrom options table frames start code (xs.take n) st = .ok st' →
    k.Meets ⟨options, table, frames, start + n, code.drop (n + 1)⟩
      ⟨options', table, frames', start' + n, code'.drop (n + 1)⟩ x st'

variable {start start' : Nat} {code code' : List Quad} {x : Instr} {xs : List Instr} {st st' : State}

theorem Coupling.Along.head {q q' : Quad}
    (along : k.Along options options' table frames frames' start start' (q :: code) (q' :: code') (x :: xs) st) :
    k.Meets ⟨options, table, frames, start, code⟩ ⟨options', table, frames', start', code'⟩ x st :=
  along 0 x st rfl rfl

theorem Coupling.Along.tail {q q' : Quad}
    (along : k.Along options options' table frames frames' start start' (q :: code) (q' :: code') (x :: xs) st)
    (steps : step ⟨options, table, frames, start, code⟩ x st = .ok st') :
    k.Along options options' table frames frames' (start + 1) (start' + 1) code code' xs st' := by
  intro n y st₁ found reached
  have first : runFrom options table frames start (q :: code) ((x :: xs).take (n + 1)) st = .ok st₁ := by
    simp only [List.take_succ_cons, runFrom, steps, inContext]
    exact reached
  have meets := along (n + 1) y st₁ found first
  rw [Nat.add_assoc, Nat.add_assoc, Nat.add_comm 1 n]
  exact meets

theorem runFrom_strays (bound : xs.length ≤ code'.length)
    (along : k.Along options options' table frames frames' start start' code code' xs st)
    (stray : k.stray st.out) (ran : runFrom options table frames start code xs st = .ok st') :
    k.stray st'.out := by
  induction xs generalizing start start' code code' st with
  | nil =>
    rw [runFrom_nil] at ran
    cases Except.ok.inj ran
    exact stray
  | cons x xs ih =>
    cases code with
    | nil =>
      cases Except.ok.inj ran
      exact stray
    | cons q code =>
      cases code' with
      | nil => simp at bound
      | cons q' code' =>
        simp only [runFrom, except_bind_ok, inContext_ok] at ran
        obtain ⟨st₁, steps, ran⟩ := ran
        exact ih (Nat.le_of_succ_le_succ bound) (along.tail steps) (step_strays along.head stray steps) ran

/-- The second generator follows the first one through the code. -/
theorem runFrom_follows (bound : xs.length ≤ code.length) (bound' : xs.length ≤ code'.length)
    (same : k.faithful → start' = start ∧ code' = code)
    (along : k.Along options options' table frames frames' start start' code code' xs st)
    (states : k.States st st') :
    k.Arrives (runFrom options table frames start code xs st)
      (runFrom options' table frames' start' code' xs st') := by
  induction xs generalizing start start' code code' st st' with
  | nil =>
    rw [runFrom_nil, runFrom_nil]
    exact .inr ⟨st', states, rfl⟩
  | cons x xs ih =>
    obtain ⟨q, code, rfl⟩ := List.exists_cons_of_length_pos (Nat.zero_lt_of_lt bound)
    obtain ⟨q', code', rfl⟩ := List.exists_cons_of_length_pos (Nat.zero_lt_of_lt bound')
    have shorter := Nat.le_of_succ_le_succ bound
    have shorter' := Nat.le_of_succ_le_succ bound'
    have arrives := step_follows along.head states
    simp only [runFrom]
    cases steps : step ⟨options, table, frames, start, code⟩ x st with
    | error e =>
      rw [steps] at arrives
      intro faithful
      obtain ⟨rfl, rest⟩ := same faithful
      cases rest
      rw [arrives faithful]
      rfl
    | ok st₁ =>
      rw [steps] at arrives
      rcases arrives with stray | ⟨st₁', states', steps'⟩
      · show k.Arrives (runFrom options table frames (start + 1) code xs st₁) _
        cases ran : runFrom options table frames (start + 1) code xs st₁ with
        | error e => exact fun faithful => absurd stray (k.calm faithful _)
        | ok st₂ => exact .inl (runFrom_strays shorter' (along.tail steps) stray ran)
      · rw [steps']
        apply ih shorter shorter' _ (along.tail steps) states'
        intro faithful
        obtain ⟨rfl, rest⟩ := same faithful
        cases rest
        exact ⟨rfl, rfl⟩

theorem compile_ok_iff {listing : Listing} :
    compile options table code = .ok listing ↔ ∃ instrs o, decodeFrom 0 code = .ok instrs ∧
      runFrom options table (Frame.plan options table code) 0 code instrs
        (.idle { lines := (header table).toArray }) = .ok (.idle o) ∧
      listing = ⟨o.lines.toList, Frame.plan options table code, o.warnings.toList⟩ := by
  simp only [compile, except_bind_ok]
  constructor
  · rintro ⟨instrs, decoded, st, ran, finish⟩
    cases st with
    | inside b => simp [fail] at finish
    | idle o => exact ⟨instrs, o, decoded, ran, (Except.ok.inj finish).symm⟩
  · rintro ⟨instrs, o, decoded, ran, rfl⟩
    exact ⟨instrs, decoded, .idle o, ran, rfl⟩

/-- The second generator follows the first one through the instructions of a program. -/
theorem program_follows (start : k.related { lines := (header table).toArray }
      { lines := (header table).toArray })
    (meets : ∀ n rest x st, k.Meets ⟨options, table, Frame.plan options table code, n, rest⟩
      ⟨options', table, Frame.plan options' table code, n, rest⟩ x st)
    (decoded : decodeFrom 0 code = .ok xs) :
    k.Arrives
      (runFrom options table (Frame.plan options table code) 0 code xs (.idle { lines := (header table).toArray }))
      (runFrom options' table (Frame.plan options' table code) 0 code xs
        (.idle { lines := (header table).toArray })) := by
  have along : k.Along options options' table (Frame.plan options table code)
      (Frame.plan options' table code) 0 0 code code xs (.idle { lines := (header table).toArray }) :=
    fun n x st _ _ => meets (0 + n) (code.drop (n + 1)) x st
  have bound := Nat.le_of_eq (decodeFrom_length decoded)
  exact runFrom_follows bound bound (fun _ => ⟨rfl, rfl⟩) along (.idle start)

/-- The second generator follows the first one through a program. -/
theorem compile_follows {listing : Listing} (start : k.related { lines := (header table).toArray }
      { lines := (header table).toArray })
    (meets : ∀ n rest x st, k.Meets ⟨options, table, Frame.plan options table code, n, rest⟩
      ⟨options', table, Frame.plan options' table code, n, rest⟩ x st)
    (compiled : compile options table code = .ok listing) :
    ∃ o, listing = ⟨o.lines.toList, Frame.plan options table code, o.warnings.toList⟩ ∧
      (k.stray o ∨ ∃ p, k.related o p ∧ compile options' table code =
        .ok ⟨p.lines.toList, Frame.plan options' table code, p.warnings.toList⟩) := by
  obtain ⟨instrs, o, decoded, ran, rfl⟩ := compile_ok_iff.mp compiled
  have arrives := program_follows start meets decoded
  rw [ran] at arrives
  refine ⟨o, rfl, ?_⟩
  rcases arrives with stray | ⟨_, states, ran'⟩
  · exact .inl stray
  · cases states with
    | @idle _ p related => exact .inr ⟨p, related, compile_ok_iff.mpr ⟨instrs, p, decoded, ran', rfl⟩⟩

/-- Generators that fail together fail on a program with the same error. -/
theorem compile_fails_follows {e : Error} (faithful : k.faithful)
    (start : k.related { lines := (header table).toArray } { lines := (header table).toArray })
    (meets : ∀ n rest x st, k.Meets ⟨options, table, Frame.plan options table code, n, rest⟩
      ⟨options', table, Frame.plan options' table code, n, rest⟩ x st)
    (failed : compile options table code = .error e) : compile options' table code = .error e := by
  unfold compile at failed ⊢
  cases decoded : decodeFrom 0 code with
  | error e' =>
    rw [decoded] at failed
    exact failed
  | ok xs =>
    have arrives := program_follows start meets decoded
    rw [decoded] at failed
    simp only [bind, Except.bind] at failed ⊢
    cases ran : runFrom options table (Frame.plan options table code) 0 code xs
        (.idle { lines := (header table).toArray }) with
    | error e' =>
      rw [ran] at arrives failed
      rw [arrives faithful]
      exact failed
    | ok st =>
      rw [ran] at arrives failed
      rcases arrives with stray | ⟨st', states, ran'⟩
      · exact absurd stray (k.calm faithful st.out)
      · rw [ran']
        cases states with
        | idle => cases failed
        | inside => exact failed

end Runs

end ThreeAddress.Codegen
