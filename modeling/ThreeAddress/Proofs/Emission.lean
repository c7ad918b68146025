import ThreeAddress.Proofs.Capacity

/-! What instructions a procedure consists of. Between its prologue and its epilogues it writes argument
registers and the registers that it may use, and stores to words of its own, to arguments of a call and
through pointers. -/
namespace ThreeAddress.Codegen

open Asm (Line Mem)
open Descriptor (Store Var Entry)

/-- What stays the same in a procedure: its function and frame, the registers that it may use, and how
many outgoing slots it may fill. -/
structure Setting where
  table : Scope
  function : Symbol
  layout : Frame.Layout
  usable : Reg → Bool
  slots : Nat

namespace Setting

/-- The words that the code of the procedure stores to. -/
inductive Storable (S : Setting) : Mem → Prop
  | global {name : String} : isGlobalScalar S.table name = true → S.Storable (.global name)
  | pointed {mem : Mem} : isPointed mem = true → S.Storable mem
  | declared {x : Decl × Int64} :
      x ∈ scalarPlaces S.layout S.function → S.Storable (frameWord x.2)
  | spare {i : Nat} :
      (totalWords S.function.locals).toInt + i < S.layout.localWords.toInt →
      S.Storable ((Slot.spare i).word S.function S.layout)
  | outgoing {i : Nat} : i < S.slots → S.Storable (outgoingWord S.layout i)

/-- The registers that its code writes. -/
def Writable (S : Setting) : MachineReg → Prop
  | .arg _ => True
  | .pool r => S.usable r = true
  | _ => False

/-- An instruction that is neither a call nor a return, and writes only what the procedure may. -/
structure Ordinary (S : Setting) (i : Asm.Instr) : Prop where
  target : ∀ r, i.target? = some r → S.Writable r
  stores : ∀ r mem, i = .sw r mem → S.Storable mem
  links : ∀ g, i ≠ .jal g
  returns : ∀ r, i ≠ .jr r

variable {S : Setting} {i : Asm.Instr}

theorem Ordinary.of_target {r : MachineReg} (target : i.target? = some r) (writable : S.Writable r) :
    S.Ordinary i := by
  refine ⟨fun q same => ?_, ?_, ?_, ?_⟩
  · cases Option.some.inj (target.symm.trans same)
    exact writable
  · rintro _ _ rfl
    contradiction
  · rintro _ rfl
    contradiction
  · rintro _ rfl
    contradiction

theorem Ordinary.save {r : MachineReg} {mem : Mem} (storable : S.Storable mem) : S.Ordinary (.sw r mem) := by
  refine ⟨by simp [Asm.Instr.target?], ?_, by simp, by simp⟩
  rintro _ _ same
  cases same
  exact storable

theorem Ordinary.nop : S.Ordinary .nop := by
  refine ⟨by simp [Asm.Instr.target?], by simp, by simp, by simp⟩

theorem Ordinary.delay (options : Options) (n : Nat) : ∀ i ∈ delay options n, S.Ordinary i := by
  unfold Codegen.delay
  split
  · intro i member
    rw [List.eq_of_mem_replicate member]
    exact .nop
  · simp

theorem Ordinary.load (options : Options) {r : MachineReg} (mem : Mem) (writable : S.Writable r) :
    ∀ i ∈ loadInstrs options r mem, S.Ordinary i :=
  List.forall_mem_cons.mpr ⟨.of_target rfl writable, .delay options 2⟩

theorem Ordinary.of_isScratch {free : List (Fin 8)} (scratch : isScratch free i = true) : S.Ordinary i := by
  unfold isScratch at scratch
  split at scratch
  all_goals first
    | exact .of_target rfl trivial
    | exact .nop
    | contradiction

theorem Ordinary.of_isResult {r : Reg} (result : isResult r i = true) (usable : S.usable r = true) :
    S.Ordinary i := by
  unfold isResult at result
  split at result
  all_goals first
    | exact .of_target (congrArg some (of_decide_eq_true result)) usable
    | exact .nop
    | exact ⟨by simp [Asm.Instr.target?], by simp, by simp, by simp⟩
    | contradiction

/-- The generator is in the procedure. -/
structure Holds (S : Setting) (b : Body) : Prop where
  function : b.function = S.function
  layout : b.layout = S.layout
  usable : ∀ r, b.store.isUsable r = S.usable r
  sound : b.store.Sound
  housed : Housed S.table b
  limit : b.spare.limit = b.layout.localWords
  roomy : Roomy b.spare

end Setting

variable {S : Setting} {site : Site} {limits : Limits} {b c : Body} {is js : List Asm.Instr}

/-- Output, waiting arguments and marks of the last instruction do not matter. -/
theorem Setting.Holds.congr (holds : S.Holds b) (function : c.function = b.function)
    (layout : c.layout = b.layout) (store : c.store = b.store) (spare : c.spare = b.spare) : S.Holds c := by
  refine ⟨function.trans holds.function, layout.trans holds.layout, ?_, ?_, ?_, ?_, ?_⟩
  · rw [store]
    exact holds.usable
  · rw [store]
    exact holds.sound
  · unfold Housed
    rw [function, layout, store, spare]
    exact holds.housed
  · rw [spare, layout]
    exact holds.limit
  · rw [spare]
    exact holds.roomy

/-- The home of a variable can be stored to. -/
theorem Setting.Holds.storable {v : Var} {e : Entry Mem} {home : Mem} (holds : S.Holds b)
    (known : b.store.Has v e) (place : e.home = some home) : S.Storable home := by
  obtain ⟨t, slot, rfl⟩ := holds.housed.home v e home known place
  rw [holds.function, holds.layout]
  cases slot with
  | declared declared =>
    rw [holds.function] at declared
    obtain ⟨x, placed, _, word⟩ :=
      mem_scalarPlaces_of_declared (l := S.layout) (placeOf_eq_frame.mp declared)
    rw [word]
    exact .declared placed
  | global global => exact .global (isGlobalScalar_of_place global)
  | @spare i temporary owner =>
    have bound := (List.getElem?_eq_some_iff.mp owner).1
    have roomy := holds.roomy
    unfold Roomy at roomy
    rw [holds.housed.first, holds.limit, holds.function, holds.layout] at roomy
    exact .spare (by omega)

/-! Moves -/

theorem Move.ordinary (move : Move site limits b is c) (holds : S.Holds b) (few : limits.outgoing ≤ S.slots) :
    ∀ i ∈ is, S.Ordinary i := by
  cases move with
  | mention | reserve | clear | evict | warn => simp
  | save entry listed home =>
    exact List.forall_mem_singleton.mpr
      (.save (holds.storable (holds.sound.known_of_reg entry listed) home))
  | load free known valid home nowhere empty usable =>
    exact .load _ _ ((holds.usable _).symm.trans usable)
  | scratch plain => exact fun i member => .of_isScratch (plain i member)
  | fetch => exact .load _ _ trivial
  | pass bound =>
    rw [holds.layout]
    exact List.forall_mem_singleton.mpr (.save (.outgoing (Nat.lt_of_lt_of_le bound few)))

theorem Moves.holds (moves : Moves site limits b is c) (table : S.table = site.table)
    (holds : S.Holds b) : S.Holds c := by
  have same := moves.sameProcedure
  refine ⟨same.function.trans holds.function, same.layout.trans holds.layout,
    fun r => (moves.isUsable holds.sound r).trans (holds.usable r), moves.sound holds.sound, ?_, ?_, ?_⟩
  · have housed := holds.housed
    rw [table] at housed ⊢
    exact moves.housed holds.sound housed
  · rw [same.spare, same.layout]
    exact holds.limit
  · rw [same.spare]
    exact holds.roomy

theorem Moves.ordinary (moves : Moves site limits b is c) (table : S.table = site.table)
    (holds : S.Holds b) (few : limits.outgoing ≤ S.slots) : ∀ i ∈ is, S.Ordinary i := by
  induction moves with
  | refl => simp
  | step before move ih =>
    exact List.forall_mem_append.mpr ⟨ih, move.ordinary (before.holds table holds) few⟩

/-! Results -/

theorem Assigned.holds {res : String} {r : Reg} (assigned : Assigned site res b r is c)
    (table : S.table = site.table) (holds : S.Holds b) : S.Holds c := by
  have same := assigned.sameProcedure
  have housed := holds.housed
  rw [table] at housed
  refine ⟨same.function.trans holds.function, same.layout.trans holds.layout, ?_,
    assigned.sound holds.sound, table ▸ assigned.housed holds.sound housed, ?_, ?_⟩
  · cases assigned with
    | intro plain ready moves held after =>
      intro q
      have own := after.owned.intern (moves.sound holds.sound)
      rw [Body.assign, Store.isUsable_commit own, Store.isUsable_intern, moves.isUsable holds.sound]
      exact holds.usable q
  · rw [same.spare, same.layout]
    exact holds.limit
  · rw [same.spare]
    exact holds.roomy

theorem Assigned.ordinary {res : String} {r : Reg} (assigned : Assigned site res b r is c)
    (holds : S.Holds b) : ∀ i ∈ is, S.Ordinary i := by
  cases assigned with
  | intro plain ready =>
    exact fun i member => .of_isResult (plain i member) ((holds.usable r).symm.trans ready.usable)

/-! Instructions inside of a block -/

theorem Effect.holds {name : Option String} (effect : Effect site b name is c)
    (table : S.table = site.table) (holds : S.Holds b) : S.Holds c := by
  cases effect with
  | nothing => exact holds
  | result moves assigned => exact assigned.holds table (moves.holds table holds)
  | write moves => exact (moves.holds table holds).congr rfl rfl rfl rfl
  | queue => exact holds.congr rfl rfl rfl rfl

theorem Effect.ordinary {name : Option String} (effect : Effect site b name is c)
    (table : S.table = site.table) (holds : S.Holds b) : ∀ i ∈ is, S.Ordinary i := by
  cases effect with
  | nothing => simp
  | result moves assigned =>
    exact List.forall_mem_append.mpr ⟨moves.ordinary table holds (Nat.zero_le _),
      assigned.ordinary (moves.holds table holds)⟩
  | write moves pointed =>
    exact List.forall_mem_append.mpr ⟨moves.ordinary table holds (Nat.zero_le _),
      List.forall_mem_singleton.mpr (.save (.pointed pointed))⟩
  | queue => simp

/-! Calls -/

theorem Spared.isUsable {name : String} {i : Nat} (spared : Spared site b name i c) (q : Reg) :
    c.store.isUsable q = b.store.isUsable q := by
  cases spared with
  | reuse => exact Store.isUsable_drop _ _ _
  | stale => rfl
  | new => rfl

theorem Keep.isUsable {r : Reg} (keep : Keep site r b is c) (q : Reg) :
    c.store.isUsable q = b.store.isUsable q := by
  cases keep with
  | skip => rfl
  | register held known homeless later saved usable empty =>
    exact Store.isUsable_bind (fun w member => absurd member (empty w)) q
  | word held known homeless later spared =>
    exact (Store.isUsable_declare _ _ _).trans (spared.isUsable q)

theorem Keep.holds {r : Reg} (keep : Keep site r b is c) (table : S.table = site.table)
    (holds : S.Holds b) : S.Holds c := by
  have same := keep.frame
  obtain ⟨roomy, _, limit⟩ := keep.roomy holds.roomy
  have housed := holds.housed
  rw [table] at housed
  refine ⟨same.function.trans holds.function, same.layout.trans holds.layout,
    fun q => (keep.isUsable q).trans (holds.usable q), keep.sound holds.sound,
    table ▸ keep.housed holds.sound housed, ?_, roomy⟩
  rw [limit, same.layout]
  exact holds.limit

/-- A temporary moves to a register that the procedure may use or to a spare word of its frame. -/
theorem Keep.ordinary {r : Reg} (keep : Keep site r b is c) (holds : S.Holds b) :
    ∀ i ∈ is, S.Ordinary i := by
  cases keep with
  | skip => simp
  | register held known homeless later saved usable =>
    exact List.forall_mem_singleton.mpr (.of_target rfl ((holds.usable _).symm.trans usable))
  | @word v e i d held known homeless later spared =>
    obtain ⟨roomy, first, limit⟩ := spared.roomy holds.roomy
    have bound := (List.getElem?_eq_some_iff.mp spared.owners.2.1).1
    unfold Roomy at roomy
    rw [first, limit, holds.housed.first, holds.limit, holds.function, holds.layout] at roomy
    refine List.forall_mem_singleton.mpr (.save ?_)
    rw [spareWord, holds.housed.first, holds.function, holds.layout]
    exact .spare (by omega)

theorem KeepAll.holds {rs : List Reg} (keeps : KeepAll site rs b is c) (table : S.table = site.table)
    (holds : S.Holds b) : S.Holds c := by
  induction keeps with
  | nil => exact holds
  | cons keep _ ih => exact ih (keep.holds table holds)

theorem KeepAll.ordinary {rs : List Reg} (keeps : KeepAll site rs b is c) (table : S.table = site.table)
    (holds : S.Holds b) : ∀ i ∈ is, S.Ordinary i := by
  induction keeps with
  | nil => simp
  | cons keep _ ih =>
    exact List.forall_mem_append.mpr ⟨keep.ordinary holds, ih (keep.holds table holds)⟩

theorem Answered.holds {res : Option String} (answered : Answered site b res is c)
    (table : S.table = site.table) (holds : S.Holds b) : S.Holds c := by
  cases answered with
  | nothing => exact holds
  | result moves assigned => exact assigned.holds table (moves.holds table holds)

theorem Answered.ordinary {res : Option String} (answered : Answered site b res is c)
    (table : S.table = site.table) (holds : S.Holds b) : ∀ i ∈ is, S.Ordinary i := by
  cases answered with
  | nothing => simp
  | result moves assigned =>
    exact List.forall_mem_append.mpr ⟨moves.ordinary table holds (Nat.zero_le _),
      assigned.ordinary (moves.holds table holds)⟩

section Called

variable {function : String} {res : Option String} {ks ls : List Asm.Instr} {b₁ b₂ b₃ b₄ : Body}

/-- The code of a call is ordinary before its jump and behind it. -/
theorem Called.ordinary (called : Called site function res b c is js ks ls b₁ b₂ b₃ b₄)
    (table : S.table = site.table) (holds : S.Holds b) (few : b.pending.length ≤ S.slots) :
    (∀ i ∈ is ++ js ++ ks, S.Ordinary i) ∧ (∀ i ∈ ls, S.Ordinary i) ∧ S.Holds c := by
  have start : S.Holds { b with pending := [] } := holds.congr rfl rfl rfl rfl
  have passes := called.passed.moves (Nat.le_of_eq (Nat.zero_add b.pending.length))
  have holds₁ := passes.holds table start
  have holds₂ := called.wrote.holds table holds₁
  have holds₃ := called.kept.holds table holds₂
  have jumped : S.Holds { b₃ with out := b₃.out.append (jumpInstrs site.options (.jal function)) } :=
    holds₃.congr rfl rfl rfl rfl
  have holds₄ := called.forgets.holds table jumped
  refine ⟨?_, called.answered.ordinary table holds₄, called.answered.holds table holds₄⟩
  exact List.forall_mem_append.mpr ⟨List.forall_mem_append.mpr
    ⟨passes.ordinary table start few, called.wrote.ordinary table holds₁ (Nat.zero_le _)⟩,
    called.kept.ordinary table holds₂⟩

end Called

/-! One instruction -/

/-- The code of an instruction: ordinary but for the jump of a call and the epilogue of a return. -/
inductive Coded (S : Setting) (options : Options) : Instr → List Asm.Instr → Prop
  | ordinary {x : Instr} {is : List Asm.Instr} :
      (∀ f res, x ≠ .call f res) → (∀ i ∈ is, S.Ordinary i) → Coded S options x is
  | call {f : String} {res : Option String} {is js : List Asm.Instr} :
      (∀ i ∈ is, S.Ordinary i) → (∀ i ∈ js, S.Ordinary i) →
      Coded S options (.call f res) (is ++ (jumpInstrs options (.jal f) ++ js))
  | ret {x : Option Operand} {is : List Asm.Instr} :
      (∀ i ∈ is, S.Ordinary i) → Coded S options (.ret x) (is ++ epilogue options S.layout)

theorem Setting.Ordinary.jump (options : Options) {i : Asm.Instr} (ordinary : S.Ordinary i) :
    ∀ k ∈ jumpInstrs options i, S.Ordinary k :=
  List.forall_mem_cons.mpr ⟨ordinary, .delay options 1⟩

/-- What an instruction adds to the listing. -/
theorem lower_coded {x : Instr} (consistent : Consistent b.store) (table : S.table = site.table)
    (holds : S.Holds b) (few : ∀ f res, x = .call f res → b.pending.length ≤ S.slots)
    (plain : ∀ l, x = .label l → l.boundary = .plain) (ran : lower site x b = .ok ((), c)) :
    ∃ is, c.out.lines.toList = b.out.lines.toList ++ linesOf x is ∧ Coded S site.options x is ∧
      S.Holds c := by
  have sound := consistent.sound
  have finish {is : List Asm.Instr} (unlabelled : x.plainLabel? = none) (emits : Emits b is c)
      (coded : Coded S site.options x is) (held : S.Holds c) :
      ∃ is, c.out.lines.toList = b.out.lines.toList ++ linesOf x is ∧ Coded S site.options x is ∧
        S.Holds c := by
    refine ⟨is, ?_, coded, held⟩
    rw [linesOf, unlabelled, Option.toList_none, List.map_nil, List.append_nil]
    exact emits
  by_cases straight : x.isStraight = true
  · obtain ⟨d, is, js, effect, moves⟩ := lower_effect straight sound ran
    have held := effect.holds table holds
    refine finish (Instr.plainLabel?_of_straight straight) (effect.emits.trans moves.lines) (.ordinary ?_ ?_)
      (moves.holds table held)
    · rintro f res rfl
      simp [Instr.isStraight] at straight
    · exact List.forall_mem_append.mpr
        ⟨effect.ordinary table holds, moves.ordinary table held (Nat.zero_le _)⟩
  · cases x with
    | call function res =>
      obtain ⟨is, js, ks, ls, b₁, b₂, b₃, b₄, called, _⟩ := call_ok consistent ran
      obtain ⟨before, after, held⟩ := called.ordinary table holds (few function res rfl)
      exact finish rfl (called.emits_before.trans called.emits_after) (.call before after) held
    | branch cond ifTrue target =>
      obtain ⟨y, is, js, b₁, b₂, located, flushed, rfl⟩ := branch_ok sound ran
      have first : Emits b is b₁ := located.moves.lines
      have held := located.moves.holds table holds
      have jump : S.Ordinary (if ifTrue = true then .bne y .zero target else .beq y .zero target) := by
        split <;> exact ⟨by simp [Asm.Instr.target?], by simp, by simp, by simp⟩
      refine finish rfl ((first.trans flushed.moves.lines).trans (Output.lines_append ..))
        (.ordinary (by simp) ?_) ((flushed.moves.holds table held).congr rfl rfl rfl rfl)
      exact List.forall_mem_append.mpr ⟨List.forall_mem_append.mpr
        ⟨located.moves.ordinary table holds (Nat.zero_le _),
          flushed.moves.ordinary table held (Nat.zero_le _)⟩, jump.jump _⟩
    | goto target =>
      obtain ⟨is, b₁, flushed, rfl⟩ := jump_ok sound ran
      have jump : S.Ordinary (.j target) := ⟨by simp [Asm.Instr.target?], by simp, by simp, by simp⟩
      refine finish rfl (Emits.trans flushed.moves.lines (Output.lines_append ..))
        (.ordinary (by simp) ?_) ((flushed.moves.holds table holds).congr rfl rfl rfl rfl)
      exact List.forall_mem_append.mpr
        ⟨flushed.moves.ordinary table holds (Nat.zero_le _), jump.jump _⟩
    | ret x =>
      obtain ⟨is, js, b₁, b₂, returned, flushed, rfl⟩ := ret_ok sound ran
      have first : Emits b is b₁ := returned.moves.lines
      have held := returned.moves.holds table holds
      have held' := flushed.moves.holds table held
      refine finish rfl ((first.trans flushed.moves.lines).trans (Output.lines_append ..))
        ?_ (held'.congr rfl rfl rfl rfl)
      rw [held'.layout]
      exact .ret (List.forall_mem_append.mpr ⟨returned.moves.ordinary table holds (Nat.zero_le _),
        flushed.moves.ordinary table held (Nat.zero_le _)⟩)
    | label l =>
      obtain ⟨is, b₁, flushed, rfl⟩ := label_ok sound ran
      obtain ⟨name, boundary⟩ := l
      cases plain _ rfl
      refine ⟨is, by simp [linesOf, Output.push, Instr.plainLabel?, flushed.moves.lines],
        .ordinary (by simp) (flushed.moves.ordinary table holds (Nat.zero_le _)),
        (flushed.moves.holds table holds).congr rfl rfl rfl rfl⟩
    | nop =>
      obtain ⟨_, rfl⟩ := pure_ok.mp ran
      have nothing : Emits b [] b := by simp [Emits]
      exact finish rfl nothing (.ordinary (by simp) (by simp)) holds
    | _ => simp [Instr.isStraight] at straight

/-- What the end of a procedure adds: stores, and an epilogue if the last instruction was no return. -/
theorem leave_coded (table : S.table = site.table) (holds : S.Holds b) (ran : leave site b = .ok ((), c)) :
    ∃ is, Emits b (is ++ if b.returned = true then [] else epilogue site.options S.layout) c ∧
      ∀ i ∈ is, S.Ordinary i := by
  obtain ⟨is, b₁, flushed, rfl⟩ := leave_ok holds.sound ran
  refine ⟨is, ?_, flushed.moves.ordinary table holds (Nat.zero_le _)⟩
  have same := flushed.moves.sameProcedure
  rw [← same.returned, ← (flushed.moves.holds table holds).layout]
  exact Emits.trans flushed.moves.lines (Output.lines_append ..)

/-! The start of a procedure -/

/-- The registers that a function may use: the entry function all of them, another one those that a
call may change and those that it saves. -/
def mayUse (options : Options) (f : Symbol) (l : Frame.Layout) (r : Reg) : Bool :=
  r.isTemporary || f.name = options.entry || Int64.ofNat (r.val - 7) < l.savedCount

theorem isUsable_foldl (use : Nat → Bool) (xs : List (Reg × Nat)) (s : Store Mem) (r : Reg) :
    (xs.foldl (fun s (q, k) => s.setUsable q (use k)) s).isUsable r =
      match xs.reverse.find? (·.1 = r) with
      | some x => use x.2
      | none => s.isUsable r := by
  induction xs generalizing s with
  | nil => rfl
  | cons x xs ih =>
    rw [List.foldl_cons, ih, List.reverse_cons, List.find?_append]
    cases xs.reverse.find? (·.1 = r) with
    | some y => rfl
    | none =>
      by_cases same : x.1 = r
      · simp [same]
      · simp [same, Ne.symm same]

theorem isUsable_usableRegisters (options : Options) (f : Symbol) (l : Frame.Layout) (r : Reg) :
    (usableRegisters (.empty : Store Mem) (f.name = options.entry) l).isUsable r =
      mayUse options f l r := by
  have found : ∀ r : Reg, Reg.savedRegs.zipIdx.reverse.find? (·.1 = r) =
      if r.isTemporary then none else some (r, r.val - 7) := by decide
  have fresh : (.empty : Store Mem).isUsable r = true := by
    simp [Store.isUsable, Store.slot, Store.empty, Vector.get]
  rw [usableRegisters,
    isUsable_foldl (fun k => decide (f.name = options.entry) || Int64.ofNat k < l.savedCount), found]
  cases temporary : r.isTemporary with
  | true => simpa [mayUse, temporary] using fresh
  | false => simp [mayUse, temporary]

theorem isUsable_declareAll (s : Store Mem) (places : List (Decl × Int64)) (r : Reg) :
    (declareAll s places).isUsable r = s.isUsable r := by
  induction places generalizing s with
  | nil => rfl
  | cons x places ih => exact (ih _).trans (Store.isUsable_declare _ _ _)

/-- The setting of a procedure. -/
def settingOf (options : Options) (table : Scope) (f : Symbol) (l : Frame.Layout) (slots : Nat) : Setting :=
  ⟨table, f, l, mayUse options f l, slots⟩

theorem start_holds (options : Options) (table : Scope) (out : Output) {f : Symbol} {l : Frame.Layout}
    (room : totalWords f.locals ≤ l.localWords) (slots : Nat) :
    (settingOf options table f l slots).Holds (.start options out f l) := by
  refine ⟨rfl, rfl, fun r => ?_, (start_fresh options out f l).sound, start_housed options table out f l,
    rfl, ?_⟩
  · refine Eq.trans ?_ (isUsable_usableRegisters options f l r)
    exact (isUsable_declareAll _ _ r).trans (isUsable_declareAll _ _ r)
  · have room := Int64.le_iff_toInt_le.mp room
    simpa [Roomy, Body.start] using room

/-- The generator is outside of procedures or in the setting of its procedure. -/
def State.Set (options : Options) (table : Scope) : State → Prop
  | .idle _ => True
  | .inside b => ∀ slots, (settingOf options table b.function b.layout slots).Holds b

theorem stateAt_set {options : Options} {table : Scope} {code : List Quad} {n : Nat} {st : State}
    (reached : stateAt options table code n = .ok st) : st.Set options table := by
  refine (stateAt_induction (P := fun st => st.Consistent ∧ st.Set options table) ⟨trivial, trivial⟩ ?_
    reached).2
  rintro n x st st' ⟨consistent, set⟩ steps
  refine ⟨step_consistent consistent steps, ?_⟩
  cases step_stepped steps with
  | nop => exact set
  | outside => trivial
  | entry _ entered =>
    obtain ⟨f, l, entered⟩ := enter_ok entered
    rw [entered.start]
    exact start_holds options table _ entered.room
  | exit => trivial
  | @lower x b c real plain lowers =>
    intro slots
    have held := (set (max slots b.pending.length)).congr (c := { b with reserved := [], returned := false })
      rfl rfl rfl rfl
    obtain ⟨_, _, _, held⟩ := lower_coded (b := { b with reserved := [], returned := false }) consistent
      rfl held (fun _ _ _ => Nat.le_max_right _ _) plain lowers
    have function : c.function = b.function := held.function
    have layout : c.layout = b.layout := held.layout
    rw [function, layout]
    exact ⟨held.function, held.layout, held.usable, held.sound, held.housed, held.limit, held.roomy⟩

end ThreeAddress.Codegen
