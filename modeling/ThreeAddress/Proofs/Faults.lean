import ThreeAddress.Proofs.Capacity

/-! The generator never meets a fault: it looks up the entries only of variables that exist, and calls
only functions that the table knows. It fails for a reason that it can name, or not at all. -/
namespace ThreeAddress.Codegen

open Asm (Line Mem Listing)
open Descriptor (Store Var Entry)

/-- The computation does not end in a fault. -/
def Faultless {α : Type} (x : Except Error α) : Prop := ∀ e, x = .error e → e.kind ≠ .fault

/-- The step does not end in a fault. -/
def Safe {α : Type} (x : Step α) (b : Body) : Prop := Faultless (x b)

section Steps

variable {α β : Type} {b : Body}

theorem Faultless.ok (a : α) : Faultless (.ok a : Except Error α) := by
  intro e failed
  cases failed

theorem Faultless.fail {c : Cause} (known : c.kind ≠ .fault) :
    Faultless (ThreeAddress.fail c : Except Error α) := by
  intro e failed
  cases failed
  exact known

theorem Faultless.inContext {x : Except Error α} (faultless : Faultless x) (c : Context) :
    Faultless (ThreeAddress.inContext c x) := by
  intro e failed
  cases x with
  | ok a => cases failed
  | error e' =>
    cases failed
    exact faultless e' rfl

theorem Faultless.bind {x : Except Error α} {f : α → Except Error β} (first : Faultless x)
    (rest : ∀ a, x = .ok a → Faultless (f a)) : Faultless (x >>= f) := by
  cases x with
  | ok a => exact rest a rfl
  | error e =>
    intro e' failed
    cases failed
    exact first e rfl

theorem Safe.returns (a : α) : Safe (pure a) b := .ok (a, b)

theorem Safe.changes (f : Body → Body) : Safe (modify f) b := .ok ((), f b)

theorem Safe.fails {c : Cause} (known : c.kind ≠ .fault) : Safe (failWith c : Step α) b := .fail known

theorem Safe.of_ok {x : Step α} {y : α × Body} (ran : x b = .ok y) : Safe x b := by
  rw [Safe, ran]
  exact .ok y

theorem Safe.bind {x : Step α} {f : α → Step β} (first : Safe x b)
    (rest : ∀ a c, x b = .ok (a, c) → Safe (f a) c) : Safe (x >>= f) b :=
  Faultless.bind first fun p ran => rest p.1 p.2 ran

theorem Safe.reads {f : Body → Step β} (rest : Safe (f b) b) : Safe (get >>= f) b := rest

theorem Safe.lifts {x : Except Error α} (faultless : Faultless x) : Safe (liftM x) b :=
  faultless.bind fun a _ => .ok (a, b)

theorem Safe.within {x : Step α} (safe : Safe x b) (c : Context) : Safe (Codegen.within c x) b :=
  Faultless.inContext safe c

theorem Safe.emits (is : List Asm.Instr) : Safe (emitAll is) b := .of_ok (y := ((), _)) (emitAll_ok.mpr rfl)

theorem Safe.finds {v : Var} {e : Entry Mem} (known : b.store.get? v = some e) : Safe (entryOf v) b :=
  .of_ok (entryOf_ok.mpr ⟨known, rfl⟩)

/-- A loop is safe if some property of the state makes each of its rounds so and is kept. -/
theorem Safe.forM {f : α → Step Unit} {xs : List α} (P : Body → Prop) (start : P b)
    (each : ∀ x ∈ xs, ∀ d, P d → Safe (f x) d ∧ ∀ e, f x d = .ok ((), e) → P e) : Safe (xs.forM f) b := by
  induction xs generalizing b with
  | nil => exact .returns ()
  | cons x xs ih =>
    obtain ⟨here, others⟩ := List.forall_mem_cons.mp each
    obtain ⟨safe, kept⟩ := here b start
    exact .bind (f := fun _ => xs.forM f) safe fun _ c ran => ih (kept c ran) others

theorem Safe.mapM {f : α → Step β} {xs : List α} (reads : ∀ a d y e, f a d = .ok (y, e) → e = d)
    (each : ∀ x ∈ xs, Safe (f x) b) : Safe (xs.mapM f) b := by
  induction xs with
  | nil => exact .returns []
  | cons x xs ih =>
    obtain ⟨here, others⟩ := List.forall_mem_cons.mp each
    rw [List.mapM_cons]
    refine .bind here fun y c ran => ?_
    obtain rfl := reads _ _ _ _ ran
    exact .bind (ih others) fun ys d _ => .returns _

/-- The step succeeds. -/
def Runs (x : Step α) (b : Body) : Prop := ∃ a c, x b = .ok (a, c)

theorem Runs.safe {x : Step α} (runs : Runs x b) : Safe x b := by
  obtain ⟨a, c, ran⟩ := runs
  exact .of_ok ran

theorem Runs.returns (a : α) : Runs (pure a) b := ⟨a, b, rfl⟩

theorem Runs.changes (f : Body → Body) : Runs (modify f) b := ⟨(), f b, rfl⟩

theorem Runs.bind {x : Step α} {f : α → Step β} (first : Runs x b)
    (rest : ∀ a c, x b = .ok (a, c) → Runs (f a) c) : Runs (x >>= f) b := by
  obtain ⟨a, c, ran⟩ := first
  obtain ⟨y, d, ran'⟩ := rest a c ran
  exact ⟨y, d, bind_ok.mpr ⟨a, c, ran, ran'⟩⟩

theorem Runs.reads {f : Body → Step β} (rest : Runs (f b) b) : Runs (get >>= f) b := rest

theorem Runs.finds {v : Var} {e : Entry Mem} (known : b.store.get? v = some e) : Runs (entryOf v) b :=
  ⟨e, b, entryOf_ok.mpr ⟨known, rfl⟩⟩

theorem Runs.emits (is : List Asm.Instr) : Runs (emitAll is) b := ⟨(), _, emitAll_ok.mpr rfl⟩

/-- A loop succeeds if some property of the state makes each of its rounds do so and is kept. -/
theorem Runs.forM {f : α → Step Unit} {xs : List α} (P : Body → Prop) (start : P b)
    (each : ∀ x ∈ xs, ∀ d, P d → Runs (f x) d ∧ ∀ e, f x d = .ok ((), e) → P e) : Runs (xs.forM f) b := by
  induction xs generalizing b with
  | nil => exact .returns ()
  | cons x xs ih =>
    obtain ⟨here, others⟩ := List.forall_mem_cons.mp each
    obtain ⟨runs, kept⟩ := here b start
    exact .bind (f := fun _ => xs.forM f) runs fun _ c ran => ih (kept c ran) others

/-- Looking at the state once for each element of a list. -/
theorem mapM_eq_of_reads {x : α → Step β} {f : α → β} {xs : List α}
    (each : ∀ a ∈ xs, x a b = .ok (f a, b)) : xs.mapM x b = .ok (xs.map f, b) := by
  induction xs with
  | nil => rfl
  | cons a xs ih =>
    obtain ⟨here, others⟩ := List.forall_mem_cons.mp each
    rw [List.mapM_cons]
    exact bind_ok.mpr ⟨f a, b, here, bind_ok.mpr ⟨xs.map f, b, ih others, rfl⟩⟩

theorem bind_of_ok {x : Step α} {f : α → Step β} {a : α} {c : Body} (ran : x b = .ok (a, c)) :
    (x >>= f) b = f a c := by
  change (x b >>= fun p => f p.1 p.2) = f a c
  rw [ran]
  rfl

end Steps

variable {site : Site} {b c : Body}

/-! Registers and variables -/

theorem resolve?_runs (site : Site) (name : String) (b : Body) : Runs (resolve? site name) b := by
  refine .reads ?_
  split
  · exact .returns _
  · split
    · split
      · exact .reads (.bind (.changes _) fun _ _ _ => .returns _)
      · exact .returns _
    · exact .returns _

/-- A name that is resolved has an entry. -/
theorem resolve?_known {name : String} {v : Var} (sound : b.store.Sound)
    (ran : resolve? site name b = .ok (some v, c)) : c.store.Sound ∧ ∃ e, c.store.get? v = some e := by
  obtain ⟨moves, found, _⟩ : Moves site .still b [] c ∧ _ := resolve?_moves sound ran
  obtain ⟨e, known, _⟩ := Store.lookup_spec found
  exact ⟨moves.sound sound, e, known.1⟩

theorem heldEntries_runs (sound : b.store.Sound) (r : Reg) : Runs (heldEntries r) b := by
  refine .reads ?_
  have entry (v : Var) (held : v ∈ (b.store.held r).toList) : ∃ e, b.store.get? v = some e := by
    obtain ⟨e, known, _⟩ := sound.known_of_held (KeySet.mem_toList.mp held)
    exact ⟨e, known.1⟩
  refine ⟨(b.store.held r).toList.map fun v => (v, (b.store.get? v).getD default), b, ?_⟩
  refine mapM_eq_of_reads fun v held => ?_
  obtain ⟨e, known⟩ := entry v held
  rw [known]
  exact bind_ok.mpr ⟨e, b, entryOf_ok.mpr ⟨known, rfl⟩, rfl⟩

theorem spillCost_faultless (sound : b.store.Sound) (needs : Needs) (r : Reg) :
    Safe (spillCost site needs r) b :=
  .bind (heldEntries_runs sound r).safe fun _ _ _ => .reads (.returns _)

theorem spill_runs (sound : b.store.Sound) (needs : Needs) (r : Reg) : Runs (spill needs r) b := by
  refine .bind (heldEntries_runs sound r) fun es c _ => .bind ?_ fun _ _ _ => .changes _
  refine .forM (fun _ => True) trivial fun x _ d _ => ⟨?_, fun _ _ => trivial⟩
  dsimp only
  split
  · split
    · exact ⟨(), _, storeTo_ok.mpr rfl⟩
    · exact .returns ()
  · exact .returns ()

theorem seize_safe (sound : b.store.Sound) (name : String) (needs : Needs) :
    Safe (seize site name needs) b := by
  have reads (r : Reg) (d : Body) (y : Reg × Option Nat) (e : Body)
      (ran : (do pure (r, ← spillCost site needs r) : Step _) d = .ok (y, e)) : e = d := by
    simp only [bind_ok, pure_ok] at ran
    obtain ⟨_, _, cost, _, rfl⟩ := ran
    exact (spillCost_reads cost).symm
  refine .reads (.bind (.mapM reads fun r _ => ?_) fun costs c ran => ?_)
  · exact .bind (spillCost_faultless sound needs r) fun _ _ _ => .returns _
  · obtain ⟨rfl, _⟩ := mapM_of_reads reads ran
    split
    · exact .fails (by simp [Cause.kind])
    · exact .fails (by simp [Cause.kind])
    · exact .bind (spill_runs sound needs _).safe fun _ _ _ => .returns _

theorem residence?_runs (site : Site) (sound : b.store.Sound) (name : String) :
    Runs (residence? site name) b := by
  refine .bind (resolve?_runs site name b) fun o c ran => ?_
  cases o with
  | none => exact .returns none
  | some v =>
    obtain ⟨_, e, known⟩ := resolve?_known sound ran
    exact .bind (.finds known) fun _ _ _ => .returns _

theorem acquire_safe (sound : b.store.Sound) (name : String) (needs : Needs) :
    Safe (acquire site name needs) b := by
  refine .bind (residence?_runs site sound name).safe fun o c ran => ?_
  obtain ⟨moves, _⟩ : Moves site .still b [] c ∧ _ := residence?_moves sound ran
  have finish (r : Reg) (c : Body) : Safe (do reserve r; pure r) c :=
    .bind (.changes _) fun _ _ _ => .returns r
  cases o with
  | some r => exact finish r c
  | none =>
    refine .reads ?_
    split
    · exact finish _ _
    · exact .bind (seize_safe (moves.sound sound) name needs) fun _ _ _ => finish _ _

theorem unresolved_safe {cause : Cause} (known : cause.kind ≠ .fault) : Safe (unresolved site cause) b := by
  unfold unresolved
  split
  · exact .fails known
  · exact .changes _

theorem ensureLoaded_safe (sound : b.store.Sound) (name : String) (r : Reg) :
    Safe (ensureLoaded site name r) b := by
  refine .bind (resolve?_runs site name b).safe fun o c ran => ?_
  cases o with
  | none => exact unresolved_safe (by simp [Cause.kind])
  | some v =>
    obtain ⟨_, e, known⟩ := resolve?_known sound ran
    refine .bind (.finds known) fun e d _ => ?_
    split
    · exact .returns ()
    · split
      · exact .bind (.changes _) fun _ _ _ => .changes _
      · split
        · exact .bind (.emits _) fun _ _ _ => .changes _
        · exact unresolved_safe (by simp [Cause.kind])

theorem loaded_safe (sound : b.store.Sound) (name : String) (needs : Needs) :
    Safe (loaded site name needs) b := by
  refine .bind (acquire_safe sound name needs) fun r c ran => ?_
  obtain ⟨⟨is, moves⟩, _⟩ := acquire_moves sound ran
  exact .bind (ensureLoaded_safe (moves.sound sound) name r) fun _ _ _ => .returns r

theorem operand_safe (sound : b.store.Sound) (x : Operand) (needs : Needs) (scratch : MachineReg) :
    Safe (operand site x needs scratch) b := by
  cases x with
  | literal n =>
    unfold operand
    dsimp only
    split
    · exact .returns _
    · exact .bind (.emits _) fun _ _ _ => .returns _
  | «variable» name => exact .bind (loaded_safe sound name needs) fun _ _ _ => .returns _

theorem commit_runs (site : Site) (sound : b.store.Sound) (r : Reg) (name : String) :
    Runs (commit site r name) b := by
  refine .bind (resolve?_runs site name b) fun o c ran => ?_
  cases o with
  | none => exact .changes _
  | some v =>
    obtain ⟨_, e, known⟩ := resolve?_known sound ran
    exact .bind (.finds known) fun _ _ _ => .changes _

theorem copyTo_safe (sound : b.store.Sound) (dst : MachineReg) (x : Operand) :
    Safe (copyTo site dst x) b := by
  cases x with
  | literal n => exact .emits _
  | «variable» name =>
    refine .bind (resolve?_runs site name b).safe fun o c ran => ?_
    cases o with
    | none => exact unresolved_safe (by simp [Cause.kind])
    | some v =>
      obtain ⟨_, e, known⟩ := resolve?_known sound ran
      refine .bind (.finds known) fun e d _ => ?_
      split
      · exact .changes _
      · split
        · exact .emits _
        · exact unresolved_safe (by simp [Cause.kind])

/-! Loops over the variables. The list of entries never gets shorter. -/

/-- The variables have entries. -/
def Known (vs : List Var) (b : Body) : Prop := ∀ v ∈ vs, v < b.store.entries.length

theorem known_live (b : Body) : Known b.store.live b := by
  intro v member
  obtain ⟨e, known⟩ := Store.mem_live.mp member
  exact Store.get?_lt known.1

theorem Known.finds {vs : List Var} {v : Var} (known : Known vs b) (member : v ∈ vs) : Runs (entryOf v) b :=
  .finds (List.getElem?_eq_getElem (known v member))

theorem Known.of_length {vs : List Var} (known : Known vs b)
    (length : c.store.entries.length = b.store.entries.length) : Known vs c :=
  fun v member => length ▸ known v member

theorem length_unbindAll (s : Store Mem) (v : Var) (rs : List Reg) :
    (rs.foldl (fun s r => s.unbind r v) s).entries.length = s.entries.length := by
  induction rs generalizing s with
  | nil => rfl
  | cons r rs ih =>
    rw [List.foldl_cons, ih]
    simp [Store.unbind, Store.modifyEntry, Store.modifyHeld, Store.modifySlot]

theorem writeBackOne_length {v : Var} (ran : writeBackOne v b = .ok ((), c)) :
    c.store.entries.length = b.store.entries.length := by
  obtain ⟨e, _, ⟨_, rfl⟩ | ⟨r, home, _, _, _, rfl⟩⟩ := writeBackOne_cases ran
  · rfl
  · simp [Store.markStored, Store.modifyEntry]

theorem writeBackOne_runs {vs : List Var} {v : Var} (known : Known vs b) (member : v ∈ vs) :
    Runs (writeBackOne v) b := by
  refine .bind (known.finds member) fun e c _ => ?_
  split
  · split
    · exact .returns ()
    · exact ⟨(), _, storeTo_ok.mpr rfl⟩
  · exact .returns ()

theorem writeBack_runs (b : Body) : Runs writeBack b := by
  refine .reads (.forM (Known b.store.live) (known_live b) fun v member d known => ?_)
  exact ⟨writeBackOne_runs known member, fun e ran => known.of_length (writeBackOne_length ran)⟩

theorem flush_runs (b : Body) : Runs flush b := .bind (writeBack_runs b) fun _ _ _ => .changes _

theorem evictOne_length {v : Var} (ran : evictOne v b = .ok ((), c)) :
    c.store.entries.length = b.store.entries.length := by
  simp only [evictOne, bind_ok, entryOf_ok] at ran
  obtain ⟨e, _, ⟨_, rfl⟩, ran⟩ := ran
  split at ran
  · obtain rfl := modifyStore_ok.mp ran
    exact length_unbindAll _ v _
  · obtain ⟨_, rfl⟩ := pure_ok.mp ran
    rfl

theorem evictHomed_runs (b : Body) : Runs evictHomed b := by
  refine .reads (.forM (Known b.store.live) (known_live b) fun v member d known => ⟨?_, fun e ran => ?_⟩)
  · refine .bind (known.finds member) fun e c _ => ?_
    split
    · exact .changes _
    · exact .returns ()
  · exact known.of_length (evictOne_length ran)

/-! Instructions inside of a block -/

/-- Code that computes a value into a register is followed by its commitment. -/
theorem emits_commit_safe (sound : b.store.Sound) (is : List Asm.Instr) (r : Reg) (res : String) :
    Safe (do emitAll is; commit site r res) b := by
  refine .bind (.emits is) fun _ c ran => ?_
  obtain rfl := emitAll_ok.mp ran
  exact (commit_runs (b := { b with out := b.out.append is }) site sound r res).safe

theorem binary_safe (sound : b.store.Sound) (op : BinaryOp) (left right : Operand) (res : String) :
    Safe (binary site op left right res) b := by
  refine .bind ((operand_safe sound left _ _).within _) fun y b₁ first => ?_
  obtain ⟨is, located⟩ := operand_located sound (within_ok.mp first)
  have sound₁ := located.moves.sound sound
  refine .bind ((operand_safe sound₁ right _ _).within _) fun z b₂ second => ?_
  obtain ⟨js, located'⟩ := operand_located sound₁ (within_ok.mp second)
  have sound₂ := located'.moves.sound sound₁
  split
  · exact emits_commit_safe sound₂ _ _ res
  · exact emits_commit_safe sound₂ _ _ res
  · refine .bind ((acquire_safe sound₂ res _).within _) fun r b₃ taken => ?_
    obtain ⟨⟨ks, moves⟩, _⟩ := acquire_moves sound₂ (within_ok.mp taken)
    exact emits_commit_safe (moves.sound sound₂) _ _ res

theorem unary_safe (sound : b.store.Sound) (op : UnaryOp) (x : Operand) (res : String) :
    Safe (unary site op x res) b := by
  refine .bind (operand_safe sound x _ _) fun y b₁ first => ?_
  obtain ⟨is, located⟩ := operand_located sound first
  have sound₁ := located.moves.sound sound
  split
  · exact emits_commit_safe sound₁ _ _ res
  · refine .bind ((acquire_safe sound₁ res _).within _) fun r b₂ taken => ?_
    obtain ⟨⟨ks, moves⟩, _⟩ := acquire_moves sound₁ (within_ok.mp taken)
    exact emits_commit_safe (moves.sound sound₁) _ _ res

theorem immediate_safe (sound : b.store.Sound) (n : Int) (res : String) : Safe (immediate site n res) b := by
  refine .bind (acquire_safe sound res _) fun r b₁ taken => ?_
  obtain ⟨⟨is, moves⟩, _⟩ := acquire_moves sound taken
  exact emits_commit_safe (moves.sound sound) _ r res

theorem copy_safe (sound : b.store.Sound) (src res : String) : Safe (copy site src res) b := by
  unfold copy
  split
  · exact .returns ()
  · refine .bind (loaded_safe sound src _) fun y b₁ filled => ?_
    obtain ⟨⟨is, moves⟩, _⟩ := loaded_moves sound filled
    have sound₁ := moves.sound sound
    refine .bind ((acquire_safe sound₁ res _).within _) fun r b₂ taken => ?_
    obtain ⟨⟨js, moves⟩, _⟩ := acquire_moves sound₁ (within_ok.mp taken)
    exact emits_commit_safe (moves.sound sound₁) [.mv (.pool r) (.pool y)] r res

theorem arrayPlace_safe (array : String) : Safe (arrayPlace site array) b := by
  refine .reads ?_
  split
  · exact .returns _
  · exact .returns _
  · split
    · exact .returns _
    · split
      · exact .returns _
      · exact .fails (by simp [Cause.kind])
  · exact .fails (by simp [Cause.kind])

theorem element_safe (sound : b.store.Sound) (array : String) (index : Operand) (needs : Needs) :
    Safe (element site array index needs) b := by
  refine .bind ((operand_safe sound index needs _).within _) fun i b₁ first => ?_
  obtain ⟨is, located⟩ := operand_located sound (within_ok.mp first)
  refine .bind (.changes _) fun _ b₂ ran => .bind (arrayPlace_safe array) fun place b₃ placed => ?_
  obtain rfl := emitInstr_ok.mp ran
  obtain rfl := arrayPlace_reads placed
  cases place with
  | global => exact .returns _
  | frame offset => exact .bind (.changes _) fun _ _ _ => .returns _
  | pointer =>
    refine .bind ((loaded_safe ?_ array _).within _) fun _ _ _ => .bind (.changes _) fun _ _ _ => .returns _
    exact located.moves.sound sound

theorem loadElement_safe (sound : b.store.Sound) (array : String) (index : Operand) (res : String) :
    Safe (loadElement site array index res) b := by
  refine .bind (element_safe sound array index _) fun mem b₁ addressed => ?_
  obtain ⟨is, moves⟩ := element_moves sound addressed
  have sound₁ := moves.sound sound
  refine .bind ((acquire_safe sound₁ res _).within _) fun r b₂ taken => ?_
  obtain ⟨⟨js, moves⟩, _⟩ := acquire_moves sound₁ (within_ok.mp taken)
  exact emits_commit_safe (moves.sound sound₁) _ r res

theorem storeElement_safe (sound : b.store.Sound) (array : String) (index value : Operand) :
    Safe (storeElement site array index value) b := by
  refine .bind (element_safe sound array index _) fun mem b₁ addressed => ?_
  obtain ⟨is, moves⟩ := element_moves sound addressed
  exact .bind ((operand_safe (moves.sound sound) value _ _).within _) fun _ _ _ => .changes _

theorem loadIndirect_safe (sound : b.store.Sound) (pointer res : String) :
    Safe (loadIndirect site pointer res) b := by
  refine .bind ((loaded_safe sound pointer _).within _) fun p b₁ filled => ?_
  obtain ⟨⟨is, moves⟩, _⟩ := loaded_moves sound (within_ok.mp filled)
  have sound₁ := moves.sound sound
  refine .bind ((acquire_safe sound₁ res _).within _) fun r b₂ taken => ?_
  obtain ⟨⟨js, moves⟩, _⟩ := acquire_moves sound₁ (within_ok.mp taken)
  exact emits_commit_safe (moves.sound sound₁) _ r res

theorem storeIndirect_safe (sound : b.store.Sound) (pointer : String) (value : Operand) :
    Safe (storeIndirect site pointer value) b := by
  refine .bind ((loaded_safe sound pointer _).within _) fun p b₁ filled => ?_
  obtain ⟨⟨is, moves⟩, _⟩ := loaded_moves sound (within_ok.mp filled)
  exact .bind ((operand_safe (moves.sound sound) value _ _).within _) fun _ _ _ => .changes _

theorem branch_safe (sound : b.store.Sound) (cond : Operand) (ifTrue : Bool) (target : String) :
    Safe (branch site cond ifTrue target) b :=
  .bind (operand_safe sound cond _ _) fun _ c _ => .bind (flush_runs c).safe fun _ _ _ => .emits _

theorem jump_safe (target : String) : Safe (jump site target) b :=
  .bind (flush_runs b).safe fun _ _ _ => .emits _

theorem ret_safe (sound : b.store.Sound) (x : Option Operand) : Safe (ret site x) b := by
  have finish (c : Body) : Safe (do
      flush
      emitAll (epilogue site.options (← get).layout)
      modify fun b => { b with returned := true } : Step Unit) c :=
    .bind (flush_runs c).safe fun _ _ _ => .reads (.bind (.emits _) fun _ _ _ => .changes _)
  cases x with
  | none => exact finish b
  | some x => exact .bind (copyTo_safe sound _ x) fun _ c _ => finish c

theorem leave_runs (site : Site) (b : Body) : Runs (leave site) b := by
  refine .bind (flush_runs b) fun _ _ _ => .reads ?_
  split
  · exact .returns ()
  · exact .emits _

/-! Calls -/

theorem passArgument_safe (sound : b.store.Sound) (i : Nat) (x : Operand) :
    Safe (passArgument site i x) b := by
  unfold passArgument
  split
  · exact copyTo_safe sound _ x
  · refine .reads ?_
    cases x with
    | literal n =>
      refine .bind (.returns none) fun o c ran => ?_
      obtain ⟨rfl, rfl⟩ := pure_ok.mp ran
      exact .bind (copyTo_safe sound _ _) fun _ _ _ => .changes _
    | «variable» name =>
      refine .bind (residence?_runs site sound name).safe fun o c ran => ?_
      obtain ⟨moves, _⟩ : Moves site .still b [] c ∧ _ := residence?_moves sound ran
      cases o with
      | some r => exact .changes _
      | none => exact .bind (copyTo_safe (moves.sound sound) _ _) fun _ _ _ => .changes _

theorem passArguments_safe (sound : b.store.Sound) (start : Nat) (xs : List Operand) :
    Safe (passArguments site start xs) b := by
  induction xs generalizing start b with
  | nil => exact .returns ()
  | cons x xs ih =>
    refine .bind ((passArgument_safe sound start x).within _) fun _ c ran => ?_
    obtain ⟨⟨is, passed⟩, _⟩ := passArgument_passed sound (within_ok.mp ran)
    exact ih ((passed.moves (Nat.lt_succ_self start)).sound sound) (start + 1)

theorem spareWord?_safe (name : String) : Safe (spareWord? site name) b := by
  refine .reads ?_
  dsimp only
  split
  · split
    · exact .bind (.changes _) fun _ _ _ => .bind (.changes _) fun _ _ _ => .returns _
    · exact .bind (.changes _) fun _ _ _ => .returns _
  · split
    · exact .bind (.changes _) fun _ _ _ => .returns _
    · exact .returns _

/-- The variable in a register has an entry. -/
theorem known_of_holder? {r : Reg} {v : Var} (sound : b.store.Sound) (holder : b.store.holder? r = some v) :
    ∃ e, b.store.get? v = some e := by
  obtain ⟨e, known, _⟩ := sound.known_of_held (KeySet.mem_of_first? holder)
  exact ⟨e, known.1⟩

theorem keep_safe (sound : b.store.Sound) (r : Reg) : Safe (keep site r) b := by
  refine .reads ?_
  split
  · exact .returns ()
  · rename_i v holder
    obtain ⟨e, known⟩ := known_of_holder? sound holder
    refine .bind (.finds known) fun e c _ => .reads ?_
    split
    · exact .returns ()
    · refine .reads ?_
      split
      · exact .bind (.changes _) fun _ _ _ => .bind (.changes _) fun _ _ _ => .changes _
      · refine .bind (spareWord?_safe _) fun o d _ => ?_
        split
        · exact .bind (.changes _) fun _ _ _ => .changes _
        · exact .fails (by simp [Cause.kind])

theorem forget_safe (sound : b.store.Sound) (r : Reg) : Safe (forget r) b := by
  refine .reads ?_
  have finish (changed : Bool) (c : Body) :
      Safe (if r.isTemporary || changed then modifyStore (·.clearRegister r) else pure ()) c := by
    split
    · exact .changes _
    · exact .returns ()
  split
  · rename_i v holder
    obtain ⟨e, known⟩ := known_of_holder? sound holder
    exact .bind (.finds known) fun _ c _ => finish _ c
  · exact finish false b

/-- A function that has a frame is in the table. -/
theorem lookup_of_find {options : Options} {table : Scope} {code : List Quad} {name : String}
    {l : Frame.Layout} (found : Frame.find (Frame.plan options table code) name = .ok l) :
    ∃ f, table.lookup name = some f := by
  obtain ⟨planned, named⟩ := Frame.find_ok found
  obtain ⟨f, function, rfl⟩ := List.mem_map.mp planned
  have known : (table.lookup name).isSome = true :=
    List.find?_isSome.mpr ⟨f, (List.mem_filter.mp function).1, decide_eq_true named⟩
  exact Option.isSome_iff_exists.mp known

theorem keepAll_safe (sound : b.store.Sound) (rs : List Reg) : Safe (rs.forM (keep site)) b := by
  refine .forM (fun d => d.store.Sound) sound fun r _ d sound => ⟨keep_safe sound r, fun e ran => ?_⟩
  obtain ⟨is, keep⟩ := keep_ok sound ran
  exact keep.sound sound

theorem forgetAll_safe (site : Site) (sound : b.store.Sound) (settled : Settled b.store) (rs : List Reg) :
    Safe (rs.forM forget) b := by
  refine .forM (fun d => d.store.Sound ∧ Settled d.store) ⟨sound, settled⟩ fun r _ d ⟨sound, settled⟩ =>
    ⟨forget_safe sound r, fun e ran => ?_⟩
  obtain ⟨moves, forgotten⟩ : Moves site {} d [] e ∧ _ := forget_ok sound settled ran
  exact ⟨moves.sound sound, forgotten.settled⟩

theorem find_faultless (frames : List Frame.Layout) (name : String) : Faultless (Frame.find frames name) := by
  unfold Frame.find
  split
  · exact .ok _
  · exact .fail (by simp [Cause.kind])

theorem answer_safe (sound : b.store.Sound) (res : Option String) :
    Safe (match res with
      | none => pure ()
      | some res => do
        let r ← within .result (acquire site res ⟨none, some res⟩)
        emitInstr (.mv (.pool r) .result)
        commit site r res : Step Unit) b := by
  cases res with
  | none => exact .returns ()
  | some res =>
    refine .bind ((acquire_safe sound res _).within _) fun r c taken => ?_
    obtain ⟨⟨is, moves⟩, _⟩ := acquire_moves sound (within_ok.mp taken)
    exact emits_commit_safe (moves.sound sound) [.mv (.pool r) .result] r res

/-- The frames are those of the table's functions. -/
def Site.Planned (site : Site) : Prop := ∃ options code, site.frames = Frame.plan options site.table code

theorem call_safe (planned : site.Planned) (consistent : Consistent b.store) (function : String)
    (res : Option String) : Safe (call site function res) b := by
  obtain ⟨options, code, plan⟩ := planned
  refine .bind (.lifts (find_faultless _ function)) fun l c ran => ?_
  obtain ⟨found, rfl⟩ := liftM_ok.mp ran
  obtain ⟨f, symbol⟩ := lookup_of_find (plan ▸ found)
  simp only [symbol]
  refine .reads (.bind (.changes _) fun _ c ran => ?_)
  obtain rfl := modify_ok.mp ran
  split
  · exact .fails (by simp [Cause.kind])
  · refine .bind (passArguments_safe (b := { b with pending := [] }) consistent.sound 0 _) fun _ b₁ passes => ?_
    obtain ⟨⟨is, passed⟩, _⟩ := passArguments_passed (b := { b with pending := [] }) consistent.sound passes
    have consistent₁ := (passed.moves (Nat.le_refl _)).consistent rfl consistent
    refine .bind (writeBack_runs b₁).safe fun _ b₂ wrote => ?_
    obtain ⟨⟨js, moves, stores⟩, _, clean⟩ : (∃ js, Moves site .still b₁ js b₂ ∧ _) ∧ _ :=
      writeBack_moves wrote
    have consistent₂ := moves.consistent rfl consistent₁
    refine .bind (keepAll_safe consistent₂.sound _) fun _ b₃ keeps => .bind (.emits _) fun _ b₄ ran => ?_
    obtain rfl := emitAll_ok.mp ran
    obtain ⟨ks, kept⟩ := keepAll_ok consistent₂.sound keeps
    obtain ⟨sound₃, _, settled₃, _⟩ :=
      kept.invariants consistent₂.sound consistent₂.kept (clean.settled consistent₂.kept)
        temporaries_isTemporary (by decide) (keeping_of_alone consistent₂.alone _)
    refine .bind (forgetAll_safe (b := { b₃ with
      out := b₃.out.append (jumpInstrs site.options (.jal function)) }) site sound₃ settled₃ _)
      fun _ b₅ forgets => ?_
    obtain ⟨forgets, _⟩ : Moves site {} _ [] b₅ ∧ _ := forgetAll_ok (b := { b₃ with
      out := b₃.out.append (jumpInstrs site.options (.jal function)) }) sound₃ settled₃ forgets
    exact answer_safe (forgets.sound sound₃) res

/-! Programs -/

theorem straight_safe {x : Step Unit} (safe : Safe x b) : Safe (straight site x) b := by
  refine .bind safe fun _ c _ => ?_
  split
  · exact .bind (writeBack_runs c).safe fun _ d _ => (evictHomed_runs d).safe
  · exact .returns ()

theorem lower_safe (planned : site.Planned) (consistent : Consistent b.store) (x : Instr) :
    Safe (lower site x) b := by
  have sound := consistent.sound
  cases x with
  | binary op left right res => exact straight_safe (binary_safe sound op left right res)
  | unary op x res => exact straight_safe (unary_safe sound op x res)
  | imm n res => exact straight_safe (immediate_safe sound n res)
  | copy src res => exact straight_safe (copy_safe sound src res)
  | load array index res => exact straight_safe (loadElement_safe sound array index res)
  | store array index value => exact straight_safe (storeElement_safe sound array index value)
  | loadInd pointer res => exact straight_safe (loadIndirect_safe sound pointer res)
  | storeInd pointer value => exact straight_safe (storeIndirect_safe sound pointer value)
  | param x => exact straight_safe (.changes _)
  | call function res => exact call_safe planned consistent function res
  | branch cond ifTrue target => exact branch_safe sound cond ifTrue target
  | goto target => exact jump_safe target
  | ret x => exact ret_safe sound x
  | label l => exact .bind (flush_runs b).safe fun _ _ _ => .changes _
  | nop => exact .returns ()

/-- Code that reads a name that nothing declares, which is only a warning outside of strict mode. -/
def strayCode : List Quad :=
  Quad.numberedFrom 0 [
    { op := "label", arg1 := "func_f" },
    { op := "+", arg1 := "y", arg2 := "1", res := "x" },
    { op := "return", res := "x" },
    { op := "label", arg1 := "end_f" }]

def strayTable : Scope := ⟨[{ name := "f", kind := .function }]⟩

end ThreeAddress.Codegen
