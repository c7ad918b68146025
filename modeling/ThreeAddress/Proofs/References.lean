import ThreeAddress.Proofs.Fetching

/-! What instructions read and what the generator says of it. An instruction refers to names one after the
other, and each reference is judged by what is known at that moment. In lenient mode every value that cannot
be had becomes a warning; in strict mode the first one is a failure. An array that cannot be addressed is a
failure in both. -/
namespace ThreeAddress.Codegen

open Asm (Line Mem)
open Descriptor (Store Var Entry)

/-! References -/

/-- A reference to the value of a name or to an array, and why it cannot be resolved. -/
structure Reading where
  name : String
  isArray : Bool
  cause? : Option Cause

/-- Why the value of a name cannot be had: it is known nowhere, or there is no valid copy of it. -/
def missing? (table : Scope) (s : Store Mem) (name : String) : Option Cause :=
  match s.lookup name with
  | none => if (table.lookup name).any Symbol.isScalar then none else some (.undefinedName name)
  | some v =>
    if (s.get? v).any fun e => e.homeValid || !e.regs.isEmpty then none else some (.noValidLocation name)

/-- How an array is addressed, if the name stands for something that can be. -/
def Body.place? (b : Body) (table : Scope) (name : String) : Option ArrayPlace :=
  (b.arrays.lookup name).or <|
    if (b.store.lookup name).isSome || (table.lookup name).any Symbol.isScalar then some .pointer
    else if (table.lookup name).any Symbol.isVariable then some .global
    else none

/-- The reference to the value of a name. -/
def Body.reads (b : Body) (table : Scope) (name : String) : Reading := ⟨name, false, missing? table b.store name⟩

/-- The reference to an array. -/
def Body.addresses (b : Body) (table : Scope) (name : String) : Reading :=
  ⟨name, true, if (b.place? table name).isSome then none else some (.notAnArray name)⟩

/-- The value of an array's base is read only if the array is addressed through a pointer. -/
def Body.baseReads (b : Body) (table : Scope) (array : String) : List Reading :=
  if b.place? table array = some .pointer then [b.reads table array] else []

def Body.readsOf (b : Body) (table : Scope) (x : Operand) : List Reading := x.names.map (b.reads table)

/-- What is referred to behind a step that succeeds. -/
def readingsAfter {α : Type} (outcome : Except Error (α × Body)) (rest : Body → List Reading) : List Reading :=
  match outcome with
  | .ok p => rest p.2
  | .error _ => []

theorem mem_readingsAfter {α : Type} {outcome : Except Error (α × Body)} {rest : Body → List Reading} {r : Reading}
    (member : r ∈ readingsAfter outcome rest) : ∃ a c, outcome = .ok (a, c) ∧ r ∈ rest c := by
  cases outcome with
  | ok p => exact ⟨p.1, p.2, rfl, member⟩
  | error e => cases member

/-- An element is found by its index and its array, and through the value of a pointer. -/
def elementReadings (site : Site) (array : String) (index : Operand) (needs : Needs) (b : Body) : List Reading :=
  b.readsOf site.table index ++ readingsAfter (operand site index needs .scratchLeft b) fun c =>
    c.addresses site.table array :: c.baseReads site.table array

/-- The references of an instruction in the order in which they are made. -/
def readings (site : Site) (x : Instr) (b : Body) : List Reading :=
  match x with
  | .binary _ left right res =>
    b.readsOf site.table left ++
      readingsAfter (operand site left ⟨right.name?, some res⟩ .scratchLeft b) (·.readsOf site.table right)
  | .unary _ x _ => b.readsOf site.table x
  | .copy src res => if src = res then [] else [b.reads site.table src]
  | .load array index res => elementReadings site array index ⟨none, some res⟩ b
  | .store array index value =>
    elementReadings site array index ⟨value.name?, none⟩ b ++
      readingsAfter (element site array index ⟨value.name?, none⟩ b) (·.readsOf site.table value)
  | .loadInd pointer _ => [b.reads site.table pointer]
  | .storeInd pointer value =>
    b.reads site.table pointer ::
      readingsAfter (loaded site pointer ⟨value.name?, none⟩ b) (·.readsOf site.table value)
  | .branch cond _ _ => b.readsOf site.table cond
  | .ret x => x.toList.flatMap (b.readsOf site.table)
  | .call _ _ => b.pending.flatMap (b.readsOf site.table)
  | _ => []

/-! Steps that say nothing -/

theorem bind_error {α β : Type} {x : Step α} {f : α → Step β} {b : Body} {e : Error} :
    (x >>= f) b = .error e ↔ x b = .error e ∨ ∃ p, x b = .ok p ∧ f p.1 p.2 = .error e :=
  except_bind_error

section Mild

variable {α β : Type}

/-- The step warns of nothing, and it fails only for want of a register or by a fault. -/
def Mild (x : Step α) : Prop :=
  ∀ b, (∀ a c, x b = .ok (a, c) → c.out.warnings = b.out.warnings) ∧
    ∀ e, x b = .error e → e.kind = .noRegister ∨ e.kind = .fault

namespace Mild

theorem returns (a : α) : Mild (pure a : Step α) := by
  intro b
  constructor
  · intro a c ran
    obtain ⟨_, rfl⟩ := pure_ok.mp ran
    rfl
  · intro e failed
    cases failed

theorem changes {f : Body → Body} (kept : ∀ b, (f b).out.warnings = b.out.warnings) : Mild (modify f) := by
  intro b
  constructor
  · intro a c ran
    obtain rfl := modify_ok.mp ran
    exact kept b
  · intro e failed
    cases failed

theorem fails {c : Cause} (kind : c.kind = .noRegister ∨ c.kind = .fault) : Mild (failWith c : Step α) := by
  intro b
  constructor
  · intro a c ran
    exact (failWith_ok.mp ran).elim
  · intro e failed
    cases failed
    exact kind

theorem bind {x : Step α} {f : α → Step β} (first : Mild x) (rest : ∀ a, Mild (f a)) : Mild (x >>= f) := by
  intro b
  constructor
  · intro y d ran
    obtain ⟨a, c, ran, after⟩ := bind_ok.mp ran
    rw [(rest a c).1 y d after, (first b).1 a c ran]
  · intro e failed
    rcases bind_error.mp failed with here | ⟨p, _, later⟩
    · exact (first b).2 e here
    · exact (rest p.1 p.2).2 e later

theorem reads {f : Body → Step β} (rest : ∀ b, Mild (f b)) : Mild (get >>= f) := fun b => rest b b

theorem within {x : Step α} (mild : Mild x) (c : Context) : Mild (Codegen.within c x) := by
  intro b
  constructor
  · intro a d ran
    exact (mild b).1 a d (within_ok.mp ran)
  · intro e failed
    obtain ⟨e', inner, rfl⟩ := inContext_error.mp failed
    exact (mild b).2 e' inner

theorem forM {f : α → Step Unit} (each : ∀ a, Mild (f a)) (xs : List α) : Mild (xs.forM f) := by
  induction xs with
  | nil => exact returns ()
  | cons x xs ih => exact bind (f := fun _ => xs.forM f) (each x) fun _ => ih

theorem mapM {f : α → Step β} (each : ∀ a, Mild (f a)) (xs : List α) : Mild (xs.mapM f) := by
  induction xs with
  | nil => exact returns []
  | cons x xs ih =>
    rw [List.mapM_cons]
    exact bind (each x) fun _ => bind ih fun _ => returns _

theorem emits (is : List Asm.Instr) : Mild (emitAll is) := by
  apply forM
  exact fun i => changes fun b => rfl

theorem emit (i : Asm.Instr) : Mild (emitInstr i) := changes fun _ => rfl

theorem finds (v : Var) : Mild (entryOf v) := by
  apply reads
  intro b
  split
  · exact returns _
  · exact fails (.inr rfl)

end Mild

theorem resolve?_mild (site : Site) (name : String) : Mild (resolve? site name) := by
  apply Mild.reads
  intro b
  split
  · exact .returns _
  · split
    · split
      · exact .reads fun _ => .bind (.changes fun _ => rfl) fun _ => .returns _
      · exact .returns _
    · exact .returns _

theorem storeTo_mild (r : Reg) (v : Var) (home : Mem) : Mild (storeTo r v home) :=
  .bind (.changes fun _ => rfl) fun _ => .changes fun _ => rfl

theorem heldEntries_mild (r : Reg) : Mild (heldEntries r) :=
  .reads fun _ => .mapM (fun v => .bind (.finds v) fun _ => .returns _) _

theorem spill_mild (needs : Needs) (r : Reg) : Mild (spill needs r) := by
  refine .bind (heldEntries_mild r) fun es => .bind (.forM (fun x => ?_) es) fun _ => .changes fun _ => rfl
  dsimp only
  split
  · split
    · exact storeTo_mild r _ _
    · exact .returns ()
  · exact .returns ()

theorem seize_mild (site : Site) (name : String) (needs : Needs) : Mild (seize site name needs) := by
  have cost (r : Reg) : Mild (spillCost site needs r) :=
    .bind (heldEntries_mild r) fun _ => .reads fun _ => .returns _
  refine .reads fun b => .bind (.mapM (fun r => .bind (cost r) fun _ => .returns _) _) fun costs => ?_
  split
  · exact .fails (.inl rfl)
  · exact .fails (.inl rfl)
  · exact .bind (spill_mild needs _) fun _ => .returns _

theorem residence?_mild (site : Site) (name : String) : Mild (residence? site name) := by
  refine .bind (resolve?_mild site name) fun o => ?_
  split
  · exact .bind (.finds _) fun _ => .returns _
  · exact .returns none

theorem acquire_mild (site : Site) (name : String) (needs : Needs) : Mild (acquire site name needs) := by
  have finish (r : Reg) : Mild (do reserve r; pure r) := .bind (.changes fun _ => rfl) fun _ => .returns r
  refine .bind (residence?_mild site name) fun o => ?_
  cases o with
  | some r => exact finish r
  | none =>
    apply Mild.reads
    intro b
    split
    · exact finish _
    · exact .bind (seize_mild site name needs) finish

theorem commit_mild (site : Site) (r : Reg) (name : String) : Mild (commit site r name) := by
  refine .bind (resolve?_mild site name) fun o => ?_
  split
  · exact .bind (.finds _) fun _ => .changes fun _ => rfl
  · exact .changes fun _ => rfl

theorem writeBack_mild : Mild writeBack := by
  refine .reads fun b => .forM (fun v => .bind (.finds v) fun e => ?_) _
  split
  · split
    · exact .returns ()
    · exact storeTo_mild _ _ _
  · exact .returns ()

theorem flush_mild : Mild flush := .bind writeBack_mild fun _ => .changes fun _ => rfl

theorem evictHomed_mild : Mild evictHomed := by
  refine .reads fun b => .forM (fun v => .bind (.finds v) fun e => ?_) _
  split
  · exact .changes fun _ => rfl
  · exact .returns ()

theorem flushBehind_mild (site : Site) : Mild (flushBehind site) := by
  unfold flushBehind
  split
  · exact .bind writeBack_mild fun _ => evictHomed_mild
  · exact .returns ()

theorem spareWord?_mild (site : Site) (name : String) : Mild (spareWord? site name) := by
  refine .reads fun b => ?_
  dsimp only
  split
  · split
    · exact .bind (.changes fun _ => rfl) fun _ => .bind (.changes fun _ => rfl) fun _ => .returns _
    · exact .bind (.changes fun _ => rfl) fun _ => .returns _
  · split
    · exact .bind (.changes fun _ => rfl) fun _ => .returns _
    · exact .returns _

theorem keep_mild (site : Site) (r : Reg) : Mild (keep site r) := by
  refine .reads fun b => ?_
  split
  · exact .returns ()
  · refine .bind (.finds _) fun e => .reads fun b => ?_
    split
    · exact .returns ()
    · refine .reads fun b => ?_
      split
      · exact .bind (.changes fun _ => rfl) fun _ => .bind (.changes fun _ => rfl) fun _ => .changes fun _ => rfl
      · refine .bind (spareWord?_mild site _) fun o => ?_
        split
        · exact .bind (.changes fun _ => rfl) fun _ => .changes fun _ => rfl
        · exact .fails (.inl rfl)

theorem forget_mild (r : Reg) : Mild (forget r) := by
  have finish (changed : Bool) :
      Mild (if r.isTemporary || changed then modifyStore (·.clearRegister r) else pure () : Step Unit) := by
    split
    · exact .changes fun _ => rfl
    · exact .returns ()
  refine .reads fun b => ?_
  split
  · exact .bind (.finds _) fun _ => finish _
  · exact finish false

/-- A result gets a register and its value in it. -/
theorem assign_mild (site : Site) (is : List Asm.Instr) (r : Reg) (res : String) :
    Mild (do emitAll is; commit site r res) := .bind (.emits is) fun _ => commit_mild site r res

end Mild

/-! Steps that refer to names -/

variable {site : Site} {b c : Body} {name : String}

/-- The warnings about the references. -/
def noted (site : Site) (rs : List Reading) : List Error :=
  rs.filterMap fun r => r.cause?.map fun c => { contexts := [.instr site.position], cause := c }

theorem noted_of_resolved {rs : List Reading} (resolved : ∀ r ∈ rs, r.cause? = none) : noted site rs = [] := by
  refine List.filterMap_eq_nil_iff.mpr fun r member => ?_
  rw [resolved r member]
  rfl

/-- The reference has to be resolved. -/
def Reading.Fatal (site : Site) (r : Reading) : Prop := site.options.strict = true ∨ r.isArray = true

section Notes

variable {α β : Type} {x : Step α} {rs : List Reading}

/-- The step makes the references. If it succeeds, it has warned of those that cannot be resolved. It fails
for want of a register, by a fault, or at a reference that has to be resolved and cannot be. -/
structure Notes (site : Site) (x : Step α) (b : Body) (rs : List Reading) : Prop where
  ran : ∀ a c, x b = .ok (a, c) → c.out.warnings.toList = b.out.warnings.toList ++ noted site rs ∧
    ∀ r ∈ rs, r.Fatal site → r.cause? = none
  failed : ∀ e, x b = .error e → e.kind = .noRegister ∨ e.kind = .fault ∨
    ∃ r ∈ rs, r.Fatal site ∧ r.cause? = some e.cause

namespace Notes

theorem within (notes : Notes site x b rs) (c : Context) : Notes site (Codegen.within c x) b rs := by
  constructor
  · intro a d ran
    exact notes.ran a d (within_ok.mp ran)
  · intro e failed
    obtain ⟨e', inner, rfl⟩ := inContext_error.mp failed
    exact notes.failed e' inner

theorem andThen {f : α → Step β} {ss : List Reading} (first : Notes site x b rs)
    (rest : ∀ a c, x b = .ok (a, c) → Notes site (f a) c ss) : Notes site (x >>= f) b (rs ++ ss) := by
  constructor
  · intro y d ran
    obtain ⟨a, c, ran, after⟩ := bind_ok.mp ran
    obtain ⟨warned, resolved⟩ := first.ran a c ran
    obtain ⟨warned', resolved'⟩ := (rest a c ran).ran y d after
    constructor
    · rw [warned', warned, List.append_assoc, noted, noted, ← List.filterMap_append]
      rfl
    · intro r member
      rcases List.mem_append.mp member with here | later
      · exact resolved r here
      · exact resolved' r later
  · intro e failed
    rcases bind_error.mp failed with here | ⟨p, ran, later⟩
    · refine (first.failed e here).imp_right (.imp_right ?_)
      rintro ⟨r, member, unresolved⟩
      exact ⟨r, List.mem_append_left _ member, unresolved⟩
    · refine ((rest p.1 p.2 ran).failed e later).imp_right (.imp_right ?_)
      rintro ⟨r, member, unresolved⟩
      exact ⟨r, List.mem_append_right _ member, unresolved⟩

theorem bind {f : α → Step β} {ss : Body → List Reading} (first : Notes site x b rs)
    (rest : ∀ a c, x b = .ok (a, c) → Notes site (f a) c (ss c)) :
    Notes site (x >>= f) b (rs ++ readingsAfter (x b) ss) := by
  refine first.andThen fun a c ran => ?_
  rw [ran]
  exact rest a c ran

theorem of_mild (mild : Mild x) (resolved : ∀ r ∈ rs, r.cause? = none) : Notes site x b rs := by
  constructor
  · intro a c ran
    rw [(mild b).1 a c ran, noted_of_resolved resolved, List.append_nil]
    exact ⟨rfl, fun r member _ => resolved r member⟩
  · intro e failed
    exact ((mild b).2 e failed).imp_right .inl

theorem quiet (mild : Mild x) : Notes site x b [] := of_mild mild (by simp)

/-- Steps behind the references say nothing. -/
theorem tail {f : α → Step β} (first : Notes site x b rs) (rest : ∀ a, Mild (f a)) :
    Notes site (x >>= f) b rs := by
  have notes := first.andThen fun a c _ => quiet (b := c) (rest a)
  rwa [List.append_nil] at notes

/-- Steps before the references say nothing. -/
theorem head {f : α → Step β} (first : Mild x) (rest : ∀ a c, x b = .ok (a, c) → Notes site (f a) c rs) :
    Notes site (x >>= f) b rs :=
  (quiet first).andThen rest

theorem of_eq {y : Step α} (same : x b = y b) (notes : Notes site y b rs) : Notes site x b rs := by
  constructor
  · rw [same]
    exact notes.ran
  · rw [same]
    exact notes.failed

theorem reads {f : Body → Step β} (rest : Notes site (f b) b rs) : Notes site (get >>= f) b rs :=
  of_eq (bind_of_ok rfl) rest

/-- A value that cannot be had is reported. -/
theorem missing {cause : Cause} (missing : missing? site.table b.store name = some cause) :
    Notes site (unresolved site cause) c [b.reads site.table name] := by
  constructor
  · intro _ d ran
    obtain ⟨lenient, rfl⟩ := unresolved_ok.mp ran
    refine ⟨by simp [Output.warn, noted, Body.reads, missing], fun r member fatal => ?_⟩
    rw [List.mem_singleton] at member
    subst member
    rcases fatal with strict | array
    · rw [lenient] at strict
      cases strict
    · cases array
  · intro e failed
    unfold unresolved at failed
    split at failed
    · rename_i strict
      cases failed
      exact .inr (.inr ⟨_, List.mem_singleton_self _, .inl strict, missing⟩)
    · cases failed

end Notes

theorem readingsAfter_within (x : Step α) (context : Context) (rest : Body → List Reading) :
    readingsAfter (within context x b) rest = readingsAfter (x b) rest := by
  unfold within
  cases x b <;> rfl

end Notes

/-! What moves do to the values that can be had -/

section Moves

variable {limits : Limits} {is : List Asm.Instr}

theorem missing?_of_has {table : Scope} {s : Store Mem} {v : Var} {e : Entry Mem} (sound : s.Sound)
    (known : s.Has v e) : missing? table s e.name =
      if e.homeValid || !e.regs.isEmpty then none else some (.noValidLocation e.name) := by
  simp [missing?, sound.lookup_eq known, known.1]

theorem missing?_of_lookup {table : Scope} {s : Store Mem} (unknown : s.lookup name = none) :
    missing? table s name =
      if (table.lookup name).any Symbol.isScalar then none else some (.undefinedName name) := by
  simp [missing?, unknown]

theorem missing?_of_copy {table : Scope} {s : Store Mem} {v : Var} {e : Entry Mem} (sound : s.Sound) (known : s.Has v e)
    (copy : e.homeValid = true ∨ ∃ r, r ∈ e.regs) : missing? table s e.name = none := by
  rw [missing?_of_has sound known]
  rcases copy with valid | held
  · simp [valid]
  · simp [KeySet.isEmpty_eq_false_iff.mpr held]

theorem Resides.missing?_eq_none {r : Reg} (resides : Resides b r name) (sound : b.store.Sound) (table : Scope) :
    missing? table b.store name = none := by
  obtain ⟨v, e, entry, listed, rfl⟩ := resides
  exact missing?_of_copy sound (sound.known_of_reg entry listed) (.inr ⟨r, listed⟩)

theorem Moves.homeValid_stays {v : Var} {e : Entry Mem} (moves : Moves site limits b is c) (sound : b.store.Sound)
    (known : b.store.Has v e) (valid : e.homeValid = true) :
    ∃ f, c.store.Has v f ∧ f.name = e.name ∧ f.homeValid = true := by
  obtain ⟨f, after, named, _⟩ := moves.homed_stays sound known (sound.housed v e known.1 valid)
  rcases moves.homeValid sound after with valid' | ⟨g, before, _, stale⟩
  · exact ⟨f, after, named, valid'⟩
  · cases Option.some.inj (before.1.symm.trans known.1)
    rw [valid] at stale
    cases stale

/-- A variable without a valid copy stays as it is. -/
theorem Moves.stale_stays {v : Var} {e : Entry Mem} (moves : Moves site limits b is c) (sound : b.store.Sound)
    (entry : b.store.get? v = some e) (stale : e.homeValid = false) (nowhere : ∀ r, r ∉ e.regs) :
    c.store.get? v = some e := by
  induction moves with
  | refl => exact entry
  | step first move ih =>
    obtain ⟨f, after, change⟩ := move.entry_after (first.sound sound) ih
    cases change with
    | same => exact after
    | stored _ listed => exact absurd listed (nowhere _)
    | left listed => exact absurd listed (nowhere _)
    | loaded _ valid => simp [stale] at valid
    | evicted valid => simp [stale] at valid

/-- A name that moves make known is that of a global scalar. -/
theorem Moves.scalar_of_new {v : Var} {f : Entry Mem} (moves : Moves site limits b is c) (sound : b.store.Sound)
    (known : c.store.Has v f) (unknown : b.store.lookup f.name = none) :
    (site.table.lookup f.name).any Symbol.isScalar = true ∧ f.homeValid = true := by
  have new : ∀ w e, b.store.Has w e → e.name ≠ f.name := by
    intro w e before same
    rw [← same, sound.lookup_eq before] at unknown
    cases unknown
  constructor
  · induction moves generalizing f with
    | refl => exact absurd rfl (new v f known)
    | step first move ih =>
      rcases move.entry_before (first.sound sound) known.1 with
        ⟨e, entry, change⟩ | ⟨_, _, _, _, _, x, symbol, scalar⟩
      · rw [change.name] at unknown new ⊢
        exact ih ⟨entry, change.known known.2⟩ unknown new
      · simp [symbol, scalar]
  · rcases moves.homeValid sound known with valid | ⟨e, before, same, _⟩
    · exact valid
    · exact absurd same (new v e before)

/-- Moves that take a name out of no register leave its value to be had or not. -/
theorem Moves.missing?_eq (moves : Moves site limits b is c) (sound : b.store.Sound)
    (bears : b.Bears name → c.Bears name) :
    missing? site.table c.store name = missing? site.table b.store name := by
  have sound' := moves.sound sound
  cases found : b.store.lookup name with
  | none =>
    rw [missing?_of_lookup found]
    cases after : c.store.lookup name with
    | none => exact missing?_of_lookup after
    | some v =>
      obtain ⟨f, known, rfl⟩ := Store.lookup_spec after
      obtain ⟨scalar, valid⟩ := moves.scalar_of_new sound known found
      rw [missing?_of_has sound' known, valid, scalar]
      rfl
  | some v =>
    obtain ⟨e, known, rfl⟩ := Store.lookup_spec found
    by_cases held : ∃ r, r ∈ e.regs
    · obtain ⟨r, listed⟩ := held
      have resides : Resides b r e.name := ⟨v, e, known.1, listed, rfl⟩
      obtain ⟨q, after⟩ := bears ⟨r, resides⟩
      rw [resides.missing?_eq_none sound, after.missing?_eq_none sound']
    · have nowhere : ∀ r, r ∉ e.regs := fun r listed => held ⟨r, listed⟩
      cases valid : e.homeValid with
      | false =>
        have after : c.store.Has v e := ⟨moves.stale_stays sound known.1 valid nowhere, known.2⟩
        rw [missing?_of_has sound known, missing?_of_has sound' after]
      | true =>
        obtain ⟨f, after, named, valid'⟩ := moves.homeValid_stays sound known valid
        rw [missing?_of_copy sound known (.inl valid), ← named, missing?_of_copy sound' after (.inl valid')]

/-- Where every register keeps its variable, every value stays to be had or not. -/
theorem Moves.missing?_still (moves : Moves site limits b is c) (sound : b.store.Sound)
    (locked : ∀ r, r ∈ limits.locked) (name : String) :
    missing? site.table c.store name = missing? site.table b.store name := by
  apply moves.missing?_eq sound
  rintro ⟨r, resides⟩
  exact ⟨r, moves.resides_locked sound (locked r) resides⟩

theorem Moves.readsOf_still (moves : Moves site limits b is c) (sound : b.store.Sound)
    (locked : ∀ r, r ∈ limits.locked) (x : Operand) : c.readsOf site.table x = b.readsOf site.table x := by
  apply List.map_congr_left
  intro name _
  rw [Body.reads, Body.reads, moves.missing?_still sound locked]

theorem Acquired.missing?_eq {r : Reg} {needs : Needs} (acquired : Acquired site needs name b r c)
    (sound : b.store.Sound) : missing? site.table c.store name = missing? site.table b.store name := by
  obtain ⟨is, moves⟩ := acquired.moves
  apply moves.missing?_eq sound
  intro bears
  rcases acquired.place with ⟨_, there⟩ | ⟨nowhere, _⟩
  · exact ⟨r, there⟩
  · exact absurd bears nowhere

end Moves

/-! Operands -/

/-- A name is looked up, and what follows depends on whether its variable has a valid copy. -/
theorem search_notes (sound : b.store.Sound) {f : Var → Entry Mem → Step Unit}
    (located : ∀ v e, e.homeValid = true ∧ e.home.isSome = true ∨ (∃ r, r ∈ e.regs) → Mild (f v e))
    (nowhere : ∀ v e, e.homeValid = false → (∀ r, r ∉ e.regs) →
      f v e = unresolved site (.noValidLocation name)) :
    Notes site (do
      match ← resolve? site name with
      | none => unresolved site (.undefinedName name)
      | some v => f v (← entryOf v)) b [b.reads site.table name] := by
  refine .head (resolve?_mild site name) fun o c ran => ?_
  obtain ⟨moves, found, _, _, absent⟩ : Moves site .still b [] c ∧ _ := resolve?_moves sound ran
  have same := moves.missing?_still sound mem_regs_all name
  have sound' := moves.sound sound
  cases o with
  | none =>
    have unknown : (site.table.lookup name).any Symbol.isScalar = false := by
      cases symbol : site.table.lookup name with
      | none => rfl
      | some x => exact absent rfl x symbol
    apply Notes.missing
    rw [← same, missing?_of_lookup found, unknown]
    rfl
  | some v =>
    obtain ⟨e, known, rfl⟩ := Store.lookup_spec found
    refine .head (.finds v) fun e' d ran => ?_
    obtain ⟨entry, rfl⟩ := entryOf_ok.mp ran
    cases Option.some.inj (known.1.symm.trans entry)
    by_cases there : e.homeValid = true ∨ ∃ r, r ∈ e.regs
    · refine .of_mild (located v e (there.imp_left fun valid => ⟨valid, sound'.housed v e known.1 valid⟩)) ?_
      intro r member
      rw [List.mem_singleton] at member
      subst member
      exact same.symm.trans (missing?_of_copy sound' known there)
    · have stale : e.homeValid = false := Bool.eq_false_iff.mpr fun valid => there (.inl valid)
      have unlisted : ∀ r, r ∉ e.regs := fun r listed => there (.inr ⟨r, listed⟩)
      have empty : e.regs.isEmpty = true := KeySet.isEmpty_iff.mpr unlisted
      rw [nowhere v e stale unlisted]
      apply Notes.missing
      rw [← same, missing?_of_has sound' known, stale, empty]
      rfl

/-- A variable with a valid copy that is in no register is loaded from its home. -/
theorem home_of_located {e : Entry Mem}
    (located : e.homeValid = true ∧ e.home.isSome = true ∨ ∃ r, r ∈ e.regs) (first : e.register? = none) :
    ∃ home, (if e.homeValid then e.home else none) = some home := by
  rcases located with ⟨valid, homed⟩ | ⟨r, listed⟩
  · rw [if_pos valid]
    exact Option.isSome_iff_exists.mp homed
  · exact absurd listed (KeySet.first?_eq_none_iff.mp first r)

theorem ensureLoaded_notes (sound : b.store.Sound) (name : String) (r : Reg) :
    Notes site (ensureLoaded site name r) b [b.reads site.table name] := by
  apply search_notes sound
  · intro v e located
    split
    · exact .returns ()
    · split
      · exact .bind (.changes fun _ => rfl) fun _ => .changes fun _ => rfl
      · rename_i first
        obtain ⟨home, place⟩ := home_of_located located first
        rw [place]
        exact .bind (.emits _) fun _ => .changes fun _ => rfl
  · intro v e stale unlisted
    have first : e.register? = none := KeySet.first?_eq_none_iff.mpr unlisted
    have outside : ¬ e.regs.contains r = true := fun inside => unlisted r (KeySet.contains_iff.mp inside)
    simp [first, outside, stale]

theorem loaded_notes (sound : b.store.Sound) (name : String) (needs : Needs) :
    Notes site (loaded site name needs) b [b.reads site.table name] := by
  refine .head (acquire_mild site name needs) fun r c ran => ?_
  have verdict := acquire_verdict site sound name needs
  rw [ran] at verdict
  cases verdict with
  | success _ _ acquired =>
    obtain ⟨is, moves⟩ := acquired.moves
    have notes : Notes site _ c _ := ensureLoaded_notes (moves.sound sound) name r
    rw [Body.reads, acquired.missing?_eq sound] at notes
    exact notes.tail fun _ => .returns r

theorem operand_notes (sound : b.store.Sound) (x : Operand) (needs : Needs) (scratch : MachineReg) :
    Notes site (operand site x needs scratch) b (b.readsOf site.table x) := by
  cases x with
  | literal n =>
    apply Notes.quiet
    unfold operand
    dsimp only
    split
    · exact .returns _
    · exact .bind (.emits _) fun _ => .returns _
  | «variable» name => exact (loaded_notes sound name needs).tail fun _ => .returns _

theorem copyTo_notes (sound : b.store.Sound) (dst : MachineReg) (x : Operand) :
    Notes site (copyTo site dst x) b (b.readsOf site.table x) := by
  cases x with
  | literal n => exact .quiet (.emits _)
  | «variable» name =>
    apply search_notes sound
    · intro v e located
      split
      · exact .changes fun _ => rfl
      · rename_i first
        obtain ⟨home, place⟩ := home_of_located located first
        rw [place]
        exact .emits _
    · intro v e stale unlisted
      have first : e.register? = none := KeySet.first?_eq_none_iff.mpr unlisted
      simp [first, stale]

/-! Elements -/

theorem arrayPlace_eq (site : Site) (name : String) (b : Body) :
    arrayPlace site name b = match b.place? site.table name with
      | some place => .ok (place, b)
      | none => fail (.notAnArray name) := by
  have opened : arrayPlace site name b = _ := bind_of_ok (x := get) rfl
  rw [opened, Body.place?]
  cases b.arrays.lookup name with
  | some place => rfl
  | none =>
    cases b.store.lookup name with
    | some v => rfl
    | none =>
      cases site.table.lookup name with
      | none => rfl
      | some s =>
        by_cases scalar : s.isScalar = true
        · simp [scalar]
          rfl
        · by_cases global : s.isVariable = true
          · simp [scalar, global]
            rfl
          · simp [scalar, global]
            rfl

theorem arrayPlace_notes (name : String) :
    Notes site (arrayPlace site name) b [b.addresses site.table name] := by
  cases place : b.place? site.table name with
  | some p =>
    constructor
    · intro q c ran
      rw [arrayPlace_eq, place] at ran
      cases ran
      simp [noted, Body.addresses, place]
    · intro e failed
      rw [arrayPlace_eq, place] at failed
      cases failed
  | none =>
    constructor
    · intro q c ran
      rw [arrayPlace_eq, place] at ran
      cases ran
    · intro e failed
      rw [arrayPlace_eq, place] at failed
      cases failed
      exact .inr (.inr ⟨_, List.mem_singleton_self _, .inr rfl, by simp [Body.addresses, place]⟩)

theorem readingsAfter_arrayPlace (site : Site) (b : Body) (array : String) :
    readingsAfter (arrayPlace site array b) (·.baseReads site.table array) = b.baseReads site.table array := by
  rw [arrayPlace_eq]
  cases place : b.place? site.table array with
  | some p => rfl
  | none => simp [Body.baseReads, place, readingsAfter, fail]

theorem element_notes (sound : b.store.Sound) (array : String) (index : Operand) (needs : Needs) :
    Notes site (element site array index needs) b (elementReadings site array index needs b) := by
  rw [elementReadings, ← readingsAfter_within _ .index]
  refine .bind ((operand_notes sound index needs _).within _) fun i c first => ?_
  obtain ⟨is, located⟩ := operand_located sound (within_ok.mp first)
  have sound' := located.moves.sound sound
  refine .head (.changes fun _ => rfl) fun _ d ran => ?_
  have emitted := emitInstr_ok.mp ran
  have same : c.addresses site.table array :: c.baseReads site.table array =
      [d.addresses site.table array] ++ readingsAfter (arrayPlace site array d) (·.baseReads site.table array) := by
    rw [readingsAfter_arrayPlace, ← emitted]
    rfl
  rw [same]
  refine .bind (arrayPlace_notes array) fun place e placed => ?_
  rw [arrayPlace_eq] at placed
  split at placed
  · rename_i found
    cases placed
    cases place with
    | global =>
      rw [Body.baseReads, if_neg (by simp [found])]
      exact .quiet (.returns _)
    | frame offset =>
      rw [Body.baseReads, if_neg (by simp [found])]
      exact .quiet (.bind (.changes fun _ => rfl) fun _ => .returns _)
    | pointer =>
      rw [Body.baseReads, if_pos found]
      refine ((loaded_notes ?_ array _).within _).tail fun _ => .bind (.changes fun _ => rfl) fun _ => .returns _
      rw [← emitted]
      exact sound'
  · cases placed

/-! Instructions -/

theorem binary_notes (sound : b.store.Sound) (op : BinaryOp) (left right : Operand) (res : String) :
    Notes site (binary site op left right res) b (readings site (.binary op left right res) b) := by
  rw [readings, ← readingsAfter_within _ .left]
  refine .bind ((operand_notes sound left _ _).within _) fun y c first => ?_
  obtain ⟨is, located⟩ := operand_located sound (within_ok.mp first)
  refine ((operand_notes (located.moves.sound sound) right _ _).within _).tail fun z => ?_
  split
  · exact assign_mild site _ _ res
  · exact assign_mild site _ _ res
  · exact .bind ((acquire_mild site res _).within _) fun r => assign_mild site _ r res

theorem unary_notes (sound : b.store.Sound) (op : UnaryOp) (x : Operand) (res : String) :
    Notes site (unary site op x res) b (b.readsOf site.table x) := by
  refine (operand_notes sound x _ _).tail fun y => ?_
  split
  · exact assign_mild site _ _ res
  · exact .bind ((acquire_mild site res _).within _) fun r => assign_mild site _ r res

theorem copy_notes (sound : b.store.Sound) (src res : String) :
    Notes site (copy site src res) b (readings site (.copy src res) b) := by
  unfold copy readings
  dsimp only
  split
  · exact .quiet (.returns ())
  · refine (loaded_notes sound src _).tail fun y => .bind ((acquire_mild site res _).within _) fun r => ?_
    exact assign_mild site [.mv (.pool r) (.pool y)] r res

theorem loadElement_notes (sound : b.store.Sound) (array : String) (index : Operand) (res : String) :
    Notes site (loadElement site array index res) b (elementReadings site array index ⟨none, some res⟩ b) := by
  refine (element_notes sound array index _).tail fun mem => ?_
  exact .bind ((acquire_mild site res _).within _) fun r => assign_mild site _ r res

theorem storeElement_notes (sound : b.store.Sound) (array : String) (index value : Operand) :
    Notes site (storeElement site array index value) b (readings site (.store array index value) b) := by
  refine .bind (element_notes sound array index _) fun mem c addressed => ?_
  obtain ⟨is, moves⟩ := element_moves sound addressed
  exact ((operand_notes (moves.sound sound) value _ _).within _).tail fun _ => .changes fun _ => rfl

theorem loadIndirect_notes (sound : b.store.Sound) (pointer res : String) :
    Notes site (loadIndirect site pointer res) b [b.reads site.table pointer] := by
  refine ((loaded_notes sound pointer _).within _).tail fun p => ?_
  exact .bind ((acquire_mild site res _).within _) fun r => assign_mild site _ r res

theorem storeIndirect_notes (sound : b.store.Sound) (pointer : String) (value : Operand) :
    Notes site (storeIndirect site pointer value) b (readings site (.storeInd pointer value) b) := by
  rw [readings, ← readingsAfter_within _ .pointer]
  refine .bind ((loaded_notes sound pointer _).within _) fun p c filled => ?_
  obtain ⟨⟨is, moves⟩, _⟩ := loaded_moves sound (within_ok.mp filled)
  exact ((operand_notes (moves.sound sound) value _ _).within _).tail fun _ => .changes fun _ => rfl

theorem branch_notes (sound : b.store.Sound) (cond : Operand) (ifTrue : Bool) (target : String) :
    Notes site (branch site cond ifTrue target) b (b.readsOf site.table cond) :=
  (operand_notes sound cond _ _).tail fun _ => .bind flush_mild fun _ => .emits _

theorem ret_notes (sound : b.store.Sound) (x : Option Operand) :
    Notes site (ret site x) b (x.toList.flatMap (b.readsOf site.table)) := by
  have finish : Mild (do
      flush
      emitAll (epilogue site.options (← get).layout)
      modify fun b => { b with returned := true }) :=
    .bind flush_mild fun _ => .reads fun _ => .bind (.emits _) fun _ => .changes fun _ => rfl
  cases x with
  | none => exact .quiet finish
  | some x =>
    have notes : Notes site (ret site (some x)) b (b.readsOf site.table x) :=
      (copyTo_notes sound .result x).tail fun _ => finish
    simpa using notes

theorem straight_notes {x : Step Unit} {rs : List Reading} (notes : Notes site x b rs) :
    Notes site (straight site x) b rs := notes.tail fun _ => flushBehind_mild site

/-! Calls -/

theorem passArgument_notes (sound : b.store.Sound) (i : Nat) (x : Operand) :
    Notes site (passArgument site i x) b (b.readsOf site.table x) := by
  unfold passArgument
  split
  · exact copyTo_notes sound _ x
  · apply Notes.reads
    cases x with
    | literal n =>
      refine .head (.returns none) fun o c ran => ?_
      obtain ⟨rfl, rfl⟩ := pure_ok.mp ran
      exact (copyTo_notes sound _ _).tail fun _ => .emit _
    | «variable» name =>
      refine .head (residence?_mild site name) fun o c ran => ?_
      obtain ⟨moves, _, _, inside, _⟩ : Moves site .still b [] c ∧ _ := residence?_moves sound ran
      have sound' := moves.sound sound
      rw [← moves.readsOf_still sound mem_regs_all]
      cases o with
      | some r =>
        refine .of_mild (.emit _) fun q member => ?_
        cases List.mem_singleton.mp member
        exact (inside r rfl).missing?_eq_none sound' _
      | none => exact (copyTo_notes sound' _ _).tail fun _ => .emit _

theorem passArguments_notes (sound : b.store.Sound) (start : Nat) (xs : List Operand) :
    Notes site (passArguments site start xs) b (xs.flatMap (b.readsOf site.table)) := by
  induction xs generalizing start b with
  | nil => exact .quiet (.returns ())
  | cons x xs ih =>
    refine .andThen ((passArgument_notes sound start x).within _) fun _ c ran => ?_
    obtain ⟨⟨is, passed⟩, _⟩ := passArgument_passed sound (within_ok.mp ran)
    have moves := passed.moves (Nat.lt_succ_self start)
    have same : b.readsOf site.table = c.readsOf site.table :=
      funext fun y => (moves.readsOf_still sound mem_regs_all y).symm
    change Notes site _ c (xs.flatMap (b.readsOf site.table))
    rw [same]
    exact ih (moves.sound sound) (start + 1)

/-- A call makes the references of its arguments, unless it does not fit the function that is called. -/
theorem call_notes (sound : b.store.Sound) (function : String) (res : Option String) :
    Notes site (call site function res) b (b.pending.flatMap (b.readsOf site.table)) ∨
      ∃ e, call site function res b = .error e ∧ e.kind ≠ .unresolved := by
  have answer : Mild (answerCall site res) := by
    cases res with
    | none => exact .returns ()
    | some res =>
      refine .bind ((acquire_mild site res _).within _) fun r => ?_
      exact assign_mild site [.mv (.pool r) .result] r res
  cases found : Frame.find site.frames function with
  | error e =>
    refine .inr ⟨e, ?_, ?_⟩
    · unfold call
      rw [found]
      rfl
    · unfold Frame.find at found
      split at found
      · cases found
      · cases found
        simp [Error.kind, Cause.kind]
  | ok l =>
    have calls : call site function res b = _ := bind_of_ok (liftM_ok.mpr ⟨found, rfl⟩)
    cases symbol : site.table.lookup function with
    | none =>
      refine .inr ⟨⟨[], .fault⟩, ?_, by simp [Error.kind, Cause.kind]⟩
      rw [calls, symbol]
      rfl
    | some f =>
      rw [symbol] at calls
      by_cases arity : b.pending.length = f.params.length
      · refine .inl (.of_eq calls (.reads (.head (.changes fun _ => rfl) fun _ c ran => ?_)))
        obtain rfl := modify_ok.mp ran
        rw [if_neg (by simpa using arity)]
        refine (passArguments_notes (b := { b with pending := [] }) sound 0 _).tail fun _ => ?_
        refine .bind writeBack_mild fun _ => .bind (.forM (keep_mild site) _) fun _ => ?_
        exact .bind (.emits _) fun _ => .bind (.forM forget_mild _) fun _ => answer
      · refine .inr ⟨⟨[], .argumentCount function b.pending.length f.params.length⟩, ?_, ?_⟩
        · rw [calls]
          change (if b.pending.length ≠ f.params.length then _ else _ : Step Unit) { b with pending := [] } = _
          rw [if_pos arity]
          rfl
        · simp [Error.kind, Cause.kind]

theorem lower_notes (site : Site) (sound : b.store.Sound) (x : Instr) :
    Notes site (lower site x) b (readings site x b) ∨
      ∃ function res e, x = .call function res ∧ lower site x b = .error e ∧ e.kind ≠ .unresolved := by
  cases x with
  | binary op left right res => exact .inl (straight_notes (binary_notes sound op left right res))
  | unary op x res => exact .inl (straight_notes (unary_notes sound op x res))
  | imm n res =>
    exact .inl (straight_notes (.quiet (.bind (acquire_mild site res _) fun r => assign_mild site _ r res)))
  | copy src res => exact .inl (straight_notes (copy_notes sound src res))
  | load array index res => exact .inl (straight_notes (loadElement_notes sound array index res))
  | store array index value => exact .inl (straight_notes (storeElement_notes sound array index value))
  | loadInd pointer res => exact .inl (straight_notes (loadIndirect_notes sound pointer res))
  | storeInd pointer value => exact .inl (straight_notes (storeIndirect_notes sound pointer value))
  | param x => exact .inl (straight_notes (.quiet (.changes fun _ => rfl)))
  | call function res =>
    rcases call_notes sound function res with notes | ⟨e, failed, kind⟩
    · exact .inl notes
    · exact .inr ⟨function, res, e, rfl, failed, kind⟩
  | branch cond ifTrue target => exact .inl (branch_notes sound cond ifTrue target)
  | goto target => exact .inl (.quiet (.bind flush_mild fun _ => .emits _))
  | ret x => exact .inl (ret_notes sound x)
  | label l => exact .inl (.quiet (.bind flush_mild fun _ => .changes fun _ => rfl))
  | nop => exact .inl (.quiet (.returns ()))

end ThreeAddress.Codegen
