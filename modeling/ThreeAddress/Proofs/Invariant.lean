import ThreeAddress.Proofs.Calls

/-! The descriptors are consistent after every instruction: registers and variables agree, no
variable is in two registers, and none is lost. -/
namespace ThreeAddress.Codegen

open Asm (Line Mem)
open Descriptor (Store Var Entry)

variable {site : Site} {b c : Body}

/-! One instruction -/

theorem Effect.consistent {name : Option String} {is : List Asm.Instr}
    (effect : Effect site b name is c) (consistent : Consistent b.store) : Consistent c.store :=
  ⟨effect.sound consistent.sound, effect.alone consistent.sound consistent.alone,
    effect.kept consistent.sound consistent.kept⟩

theorem Flushed.consistent {is : List Asm.Instr} (flushed : Flushed site b is c)
    (consistent : Consistent b.store) : Consistent c.store :=
  flushed.moves.consistent rfl consistent

theorem Flushed.settled {is : List Asm.Instr} (flushed : Flushed site b is c)
    (consistent : Consistent b.store) : Settled c.store := by
  intro v e known _
  have after := flushed.consistent consistent
  refine (after.kept v e known (by simp)).resolve_right ?_
  rintro ⟨r, inside⟩
  exact flushed.empty r v ((after.sound.listed r v).mpr ⟨e, known.1, inside⟩)

theorem Returned.moves {x : Option Operand} {is : List Asm.Instr} (returned : Returned site b x is c) :
    Moves site ⟨Reg.all, none, [0], 0⟩ b is c := by
  cases returned with
  | nothing => exact .refl b
  | value copied => exact copied.moves

theorem lower_consistent {x : Instr} (consistent : Consistent b.store)
    (ran : lower site x b = .ok ((), c)) : Consistent c.store := by
  have sound := consistent.sound
  by_cases straight : x.isStraight = true
  · obtain ⟨d, is, js, effect, moves⟩ := lower_effect straight sound ran
    exact moves.consistent rfl (effect.consistent consistent)
  · cases x with
    | call function res =>
      obtain ⟨_, _, _, _, _, _, _, b₄, called, consistent₄⟩ := call_ok consistent ran
      exact called.answered.consistent consistent₄
    | branch cond ifTrue target =>
      obtain ⟨y, is, js, b₁, b₂, located, flushed, rfl⟩ := branch_ok sound ran
      exact flushed.consistent (located.moves.consistent rfl consistent)
    | goto target =>
      obtain ⟨is, b₁, flushed, rfl⟩ := jump_ok sound ran
      exact flushed.consistent consistent
    | ret x =>
      obtain ⟨is, js, b₁, b₂, returned, flushed, rfl⟩ := ret_ok sound ran
      exact flushed.consistent (returned.moves.consistent rfl consistent)
    | label l =>
      obtain ⟨is, b₁, flushed, rfl⟩ := label_ok sound ran
      exact flushed.consistent consistent
    | nop =>
      obtain ⟨_, rfl⟩ := pure_ok.mp ran
      exact consistent
    | _ => simp [Instr.isStraight] at straight

/-! The start of a procedure -/

/-- No register holds a variable, and every variable is valid in its home. -/
structure Fresh (s : Store Mem) : Prop where
  sound : s.Sound
  empty : ∀ r v, v ∉ s.held r
  valid : ∀ v e, s.Has v e → e.homeValid = true

theorem Fresh.consistent {s : Store Mem} (fresh : Fresh s) : Consistent s := by
  refine ⟨fresh.sound, fun v e q r entry inside => ?_, fun v e known _ => .inl (fresh.valid v e known)⟩
  exact absurd ((fresh.sound.listed q v).mpr ⟨e, entry, inside⟩) (fresh.empty q v)

theorem Fresh.declare {s : Store Mem} (fresh : Fresh s) (name : String) (home : Mem) :
    Fresh (s.declare name (some home)).2 := by
  refine ⟨fresh.sound.declare _ _, fun r v => by simpa using fresh.empty r v, fun v f known => ?_⟩
  cases lookup : s.lookup name with
  | some w =>
    obtain ⟨entry, live⟩ := known
    rw [Store.declare_of_known lookup, Store.get?_modifyEntry] at entry
    split at entry
    · obtain ⟨e, _, rfl⟩ := Option.map_eq_some_iff.mp entry
      rfl
    · exact fresh.valid v f ⟨entry, live⟩
  | none =>
    obtain ⟨entry, live⟩ := known
    rw [(Store.declare_of_new lookup _).2] at entry
    split at entry
    · cases Option.some.inj entry
      rfl
    · exact fresh.valid v f ⟨entry, live⟩

theorem Fresh.declareAll {s : Store Mem} (fresh : Fresh s) (places : List (Decl × Int64)) :
    Fresh (declareAll s places) := by
  induction places generalizing s with
  | nil => exact fresh
  | cons place places ih => exact ih (fresh.declare _ _)

/-- Which registers are usable is no matter of variables. -/
theorem usableRegisters_unused (entry : Bool) (l : Frame.Layout) :
    (∀ v, (usableRegisters .empty entry l).get? v = none) ∧
      ∀ r, (usableRegisters .empty entry l).held r = .empty := by
  have all (xs : List (Reg × Nat)) (s : Store Mem) (entries : ∀ v, s.get? v = none)
      (registers : ∀ r, s.held r = .empty) :
      let t := xs.foldl (fun s x => s.setUsable x.1 (entry || Int64.ofNat x.2 < l.savedCount)) s
      (∀ v, t.get? v = none) ∧ ∀ r, t.held r = .empty := by
    induction xs generalizing s with
    | nil => exact ⟨entries, registers⟩
    | cons x xs ih => exact ih _ (by simpa using entries) (by simpa using registers)
  exact all _ .empty (by simp) (by simp)

theorem fresh_of_unused {s : Store Mem} (entries : ∀ v, s.get? v = none)
    (registers : ∀ r, s.held r = .empty) : Fresh s := by
  refine ⟨Store.sound_of_unused entries registers, by simp [registers], fun v e known => ?_⟩
  simp [Store.Has, entries] at known

theorem start_fresh (options : Options) (out : Output) (f : Symbol) (l : Frame.Layout) :
    Fresh (Body.start options out f l).store := by
  obtain ⟨entries, registers⟩ := usableRegisters_unused (f.name = options.entry) l
  exact ((fresh_of_unused entries registers).declareAll _).declareAll _

/-! Steps of the generator -/

theorem except_bind_ok {α β : Type} {x : Except Error α} {f : α → Except Error β} {y : β} :
    (x >>= f) = .ok y ↔ ∃ a, x = .ok a ∧ f a = .ok y := by
  cases x with
  | error e => simp [bind, Except.bind]
  | ok a => simp [bind, Except.bind]

theorem except_bind_error {α β : Type} {x : Except Error α} {f : α → Except Error β} {e : Error} :
    (x >>= f) = .error e ↔ x = .error e ∨ ∃ a, x = .ok a ∧ f a = .error e := by
  cases x with
  | error e => simp [bind, Except.bind]
  | ok a => simp [bind, Except.bind]

theorem inContext_error {α : Type} {context : Context} {x : Except Error α} {e : Error} :
    inContext context x = .error e ↔ ∃ e', x = .error e' ∧ e'.within context = e := by
  cases x with
  | error e => simp [inContext]
  | ok a => simp [inContext]

theorem inContext_ok {α : Type} {context : Context} {x : Except Error α} {y : α} :
    inContext context x = .ok y ↔ x = .ok y := by
  cases x with
  | error e => simp [inContext]
  | ok a => rfl

theorem eq_ok_of_toOption {α : Type} {x : Except Error α} {a : α} (some : x.toOption = some a) :
    x = .ok a := by
  cases x with
  | ok b => exact congrArg _ (Option.some.inj some)
  | error e => cases some

theorem exists_error_of_kind {α : Type} {x : Except Error α} {kind : Kind}
    (refused : (x.map fun _ => ()).mapError Error.kind = .error kind) : ∃ e, x = .error e ∧ e.kind = kind := by
  cases x with
  | ok a => cases refused
  | error e => exact ⟨e, rfl, Except.error.inj refused⟩

/-- What a procedure starts with. -/
structure Entered (site : Site) (name : String) (out : Output) (b : Body) (f : Symbol)
    (l : Frame.Layout) : Prop where
  symbol : site.table.lookup name = some f
  function : f.isFunction = true
  frame : Frame.find site.frames f.name = .ok l
  room : totalWords f.locals ≤ l.localWords
  start : b = .start site.options out f l

theorem enter_ok {name : String} {out : Output} (ran : enter site name out = .ok b) :
    ∃ f l, Entered site name out b f l := by
  unfold enter at ran
  split at ran
  · simp [fail] at ran
  · rename_i f symbol
    split at ran
    · simp [fail] at ran
    · rename_i function
      obtain ⟨l, frame, ran⟩ := except_bind_ok.mp ran
      simp only at ran
      split at ran
      · simp [fail] at ran
      · rename_i room
        exact ⟨f, l, symbol, by simpa using function, frame, Int64.not_lt.mp room,
          (Except.ok.inj ran).symm⟩

/-- What a step of the generator does. -/
inductive Stepped (site : Site) : Instr → State → State → Prop
  | nop (st : State) : Stepped site .nop st st
  | outside {l : Label} {out : Output} :
      l.boundary = .plain → Stepped site (.label l) (.idle out) (.idle (out.push (.label l.name)))
  | entry {l : Label} {out : Output} {name : String} {b : Body} :
      l.boundary = .entry name → enter site name out = .ok b →
      Stepped site (.label l) (.idle out) (.inside b)
  | exit {l : Label} {b c : Body} :
      l.boundary = .exit b.function.name → leave site b = .ok ((), c) →
      Stepped site (.label l) (.inside b) (.idle c.out)
  | lower {x : Instr} {b c : Body} :
      x ≠ .nop → (∀ l, x = .label l → l.boundary = .plain) →
      Codegen.lower site x { b with reserved := [], returned := false } = .ok ((), c) →
      Stepped site x (.inside b) (.inside c)

theorem advance_ok {x : Step Unit} :
    b.advance x = .ok c ↔ x { b with reserved := [], returned := false } = .ok ((), c) := by
  unfold Body.advance
  rw [except_bind_ok]
  constructor
  · rintro ⟨⟨_, d⟩, ran, same⟩
    cases Except.ok.inj same
    exact ran
  · exact fun ran => ⟨((), c), ran, rfl⟩

theorem step_stepped {x : Instr} {st st' : State} (ran : step site x st = .ok st') :
    Stepped site x st st' := by
  have inside {b : Body} (real : x ≠ .nop) (plain : ∀ l, x = .label l → l.boundary = .plain)
      (ran : (do return .inside (← b.advance (lower site x)) : Except Error State) = .ok st') :
      Stepped site x (.inside b) st' := by
    obtain ⟨c, advanced, same⟩ := except_bind_ok.mp ran
    cases Except.ok.inj same
    exact .lower real plain (advance_ok.mp advanced)
  cases x with
  | nop =>
    cases Except.ok.inj ran
    exact .nop st
  | label l =>
    change stepLabel site l st = .ok st' at ran
    cases st with
    | idle out =>
      unfold stepLabel at ran
      cases boundary : l.boundary with
      | plain =>
        simp only [boundary] at ran
        cases Except.ok.inj ran
        exact .outside boundary
      | entry name =>
        simp only [boundary] at ran
        obtain ⟨b, entered, same⟩ := except_bind_ok.mp ran
        cases Except.ok.inj same
        exact .entry boundary entered
      | exit name =>
        simp [boundary, fail] at ran
    | inside b =>
      unfold stepLabel at ran
      cases boundary : l.boundary with
      | plain =>
        simp only [boundary] at ran
        refine inside (by simp) (fun l' same => ?_) ran
        cases same
        exact boundary
      | entry name => simp [boundary, fail] at ran
      | exit name =>
        simp only [boundary] at ran
        split at ran
        · simp [fail] at ran
        · rename_i same
          obtain ⟨⟨_, c⟩, left, same'⟩ := except_bind_ok.mp ran
          cases Except.ok.inj same'
          exact .exit (Decidable.not_not.mp same ▸ boundary) left
  | _ =>
    cases st with
    | idle out => simp [step, fail] at ran
    | inside b => exact inside (by simp) (by simp) ran

/-! Whole runs -/

/-- The generator after a number of instructions of the code. -/
def stateAt (options : Options) (table : Scope) (code : List Quad) (n : Nat) : Except Error State := do
  let instrs ← decodeFrom 0 code
  runFrom options table (Frame.plan options table code) 0 code (instrs.take n)
    (.idle { lines := (header table).toArray })

/-- What the generator reads at the instruction of a position. -/
def siteAt (options : Options) (table : Scope) (code : List Quad) (n : Nat) : Site :=
  ⟨options, table, Frame.plan options table code, n, code.drop (n + 1)⟩

theorem decodeFrom_cons_ok {start : Nat} {q : Quad} {code : List Quad} {instrs : List Instr} :
    decodeFrom start (q :: code) = .ok instrs ↔ q.index = start ∧ ∃ x xs, Instr.ofQuad q = .ok x ∧
      decodeFrom (start + 1) code = .ok xs ∧ x :: xs = instrs := by
  by_cases numbered : q.index = start
  · simp only [decodeFrom, numbered, ne_eq, not_true_eq_false, if_false, except_bind_ok, inContext_ok]
    constructor
    · rintro ⟨x, first, xs, rest, same⟩
      exact ⟨trivial, x, xs, first, rest, Except.ok.inj same⟩
    · rintro ⟨_, x, xs, first, rest, rfl⟩
      exact ⟨x, first, xs, rest, rfl⟩
  · simp [decodeFrom, numbered, fail]

theorem decodeFrom_length {start : Nat} {code : List Quad} {instrs : List Instr}
    (decoded : decodeFrom start code = .ok instrs) : instrs.length = code.length := by
  induction code generalizing start instrs with
  | nil =>
    cases Except.ok.inj decoded
    rfl
  | cons q code ih =>
    obtain ⟨_, x, xs, _, rest, rfl⟩ := decodeFrom_cons_ok.mp decoded
    simp [ih rest]

@[simp] theorem runFrom_nil (options : Options) (table : Scope) (frames : List Frame.Layout) (start : Nat)
    (code : List Quad) (st : State) : runFrom options table frames start code [] st = .ok st := by
  simp [runFrom]

theorem runFrom_append (options : Options) (table : Scope) (frames : List Frame.Layout) (start : Nat)
    (code : List Quad) (xs ys : List Instr) (st : State) :
    runFrom options table frames start code (xs ++ ys) st =
      (runFrom options table frames start code xs st >>=
        runFrom options table frames (start + xs.length) (code.drop xs.length) ys) := by
  induction xs generalizing start code st with
  | nil =>
    simp only [List.nil_append, runFrom]
    rfl
  | cons x xs ih =>
    cases code with
    | nil => simp [runFrom, bind, Except.bind]
    | cons q code =>
      simp only [List.cons_append, runFrom]
      cases inContext (.instrOf start q) (step ⟨options, table, frames, start, code⟩ x st) with
      | error e => rfl
      | ok st' =>
        have rest := ih (start + 1) code st'
        rw [show start + 1 + xs.length = start + (x :: xs).length by simp; omega] at rest
        exact rest

section Runs

variable {options : Options} {table : Scope} {code : List Quad} {instrs : List Instr} {n : Nat}

theorem stateAt_zero (decoded : decodeFrom 0 code = .ok instrs) :
    stateAt options table code 0 = .ok (.idle { lines := (header table).toArray }) := by
  simp [stateAt, decoded, bind, Except.bind]

theorem stateAt_succ {x : Instr} {st' : State} (decoded : decodeFrom 0 code = .ok instrs)
    (found : instrs[n]? = some x) :
    stateAt options table code (n + 1) = .ok st' ↔ ∃ st, stateAt options table code n = .ok st ∧
      step (siteAt options table code n) x st = .ok st' := by
  obtain ⟨bound, _⟩ := List.getElem?_eq_some_iff.mp found
  have inside : n < code.length := decodeFrom_length decoded ▸ bound
  have split : instrs.take (n + 1) = instrs.take n ++ [x] := by
    rw [List.take_add_one, found]
    rfl
  simp only [stateAt, decoded, except_bind_ok, Except.ok.injEq, exists_eq_left', split,
    runFrom_append, List.length_take, Nat.min_eq_left (Nat.le_of_lt bound),
    List.drop_eq_getElem_cons inside, runFrom, runFrom_nil, inContext_ok, Nat.zero_add]
  constructor
  · rintro ⟨st, before, _, steps, rfl⟩
    exact ⟨st, before, steps⟩
  · rintro ⟨st, before, steps⟩
    exact ⟨st, before, st', steps, rfl⟩

theorem stateAt_beyond (decoded : decodeFrom 0 code = .ok instrs) (beyond : instrs.length ≤ n) :
    stateAt options table code (n + 1) = stateAt options table code n := by
  simp only [stateAt, decoded, bind, Except.bind, List.take_of_length_le beyond,
    List.take_of_length_le (Nat.le_succ_of_le beyond)]

/-- Behind the last instruction the generator stays as it is. -/
theorem stateAt_min (decoded : decodeFrom 0 code = .ok instrs) :
    stateAt options table code n = stateAt options table code (min n instrs.length) := by
  simp only [stateAt, decoded, bind, Except.bind, ← List.take_eq_take_min]

/-- The generator is inside of a procedure and passes a check. -/
def insideWith (check : Body → Bool) : Except Error State → Bool
  | .ok (.inside b) => check b
  | _ => false

theorem exists_of_insideWith {check : Body → Bool} {x : Except Error State}
    (inside : insideWith check x = true) : ∃ b, x = .ok (.inside b) ∧ check b = true := by
  unfold insideWith at inside
  split at inside
  · exact ⟨_, rfl, inside⟩
  · contradiction

/-- What holds at the start and after every step holds at every position. -/
theorem stateAt_positions {P : Nat → State → Prop} {st : State} (decoded : decodeFrom 0 code = .ok instrs)
    (start : P 0 (.idle { lines := (header table).toArray }))
    (next : ∀ n x st st', instrs[n]? = some x → P n st →
      step (siteAt options table code n) x st = .ok st' → P (n + 1) st')
    (bound : n ≤ instrs.length) (reached : stateAt options table code n = .ok st) : P n st := by
  induction n generalizing st with
  | zero =>
    cases Except.ok.inj ((stateAt_zero decoded).symm.trans reached)
    exact start
  | succ n ih =>
    have found := List.getElem?_eq_getElem bound
    obtain ⟨st', before, steps⟩ := (stateAt_succ decoded found).mp reached
    exact next n _ st' st found (ih (Nat.le_of_lt bound) before) steps

/-- What holds at the start and after every step holds of every state of the generator. -/
theorem stateAt_induction {P : State → Prop} {st : State}
    (start : P (.idle { lines := (header table).toArray }))
    (next : ∀ n x st st', P st → step (siteAt options table code n) x st = .ok st' → P st')
    (reached : stateAt options table code n = .ok st) : P st := by
  obtain ⟨instrs, decoded, _⟩ := except_bind_ok.mp reached
  rw [stateAt_min decoded] at reached
  exact stateAt_positions (P := fun _ st => P st) decoded start (fun n x st st' _ => next n x st st')
    (Nat.min_le_right n instrs.length) reached

end Runs

/-- The generator is outside of procedures or its descriptors are consistent. -/
def State.Consistent : State → Prop
  | .idle _ => True
  | .inside b => Codegen.Consistent b.store

theorem step_consistent {x : Instr} {st st' : State} (consistent : st.Consistent)
    (ran : step site x st = .ok st') : st'.Consistent := by
  cases step_stepped ran with
  | nop => exact consistent
  | outside => trivial
  | entry boundary entered =>
    obtain ⟨f, l, entered⟩ := enter_ok entered
    rw [entered.start]
    exact (start_fresh _ _ f l).consistent
  | exit => trivial
  | @lower x b c real plain lowers =>
    exact lower_consistent (b := { b with reserved := [], returned := false }) consistent lowers

theorem stateAt_consistent {options : Options} {table : Scope} {code : List Quad} {n : Nat} {st : State}
    (reached : stateAt options table code n = .ok st) : st.Consistent :=
  stateAt_induction trivial (fun _ _ _ _ consistent steps => step_consistent consistent steps) reached

/-- What registers and variables say of each other between two instructions. -/
structure Invariant (s : Store Mem) : Prop where
  /-- A register holds one variable at most. -/
  one_variable : ∀ r, (s.held r).size ≤ 1
  /-- A variable is in one register at most. -/
  one_register : ∀ v, (s.locations v).size ≤ 1
  /-- A register holds a variable if the variable lists it, and only then. -/
  listed : ∀ r v, v ∈ s.held r ↔ r ∈ s.locations v
  /-- Only usable registers hold anything. -/
  usable : ∀ r v, v ∈ s.held r → s.isUsable r = true
  /-- A variable with a home is valid there or in a register. -/
  homed : ∀ v ∈ s.live, ∀ e, s.get? v = some e → e.home.isSome = true →
    e.homeValid = true ∨ ∃ r, r ∈ e.regs
  /-- A variable without a home is in a register. -/
  homeless : ∀ v ∈ s.live, ∀ e, s.get? v = some e → e.home = none → ∃ r, r ∈ e.regs

theorem Consistent.invariant {s : Store Mem} (consistent : Consistent s) : Invariant s where
  one_variable := consistent.sound.single
  one_register v := by
    unfold Store.locations
    split
    · rename_i e entry
      exact (consistent.sound.ascending v e entry).size_le_one
        fun q r left right => consistent.alone v e q r entry left right
    · exact Nat.zero_le 1
  listed r v := by
    rw [consistent.sound.listed]
    unfold Store.locations
    split
    · rename_i e entry
      simp [entry]
    · rename_i absent
      simp [absent]
  usable := consistent.sound.usable
  homed v live e entry _ := by
    obtain ⟨f, known⟩ := Store.mem_live.mp live
    cases Option.some.inj (entry.symm.trans known.1)
    exact consistent.kept v e known (by simp)
  homeless v live e entry none := by
    obtain ⟨f, known⟩ := Store.mem_live.mp live
    cases Option.some.inj (entry.symm.trans known.1)
    refine (consistent.kept v e known (by simp)).resolve_left fun valid => ?_
    simpa [none] using consistent.sound.housed v e entry valid

/-- After every number of instructions that the generator accepts, under any options, its registers
and variables agree, no variable is in two registers and none is lost. -/
theorem stateAt_invariant (options : Options) (table : Scope) (code : List Quad) (n : Nat) (b : Body)
    (reached : stateAt options table code n = .ok (.inside b)) : Invariant b.store := by
  have consistent : (State.inside b).Consistent := stateAt_consistent reached
  exact Codegen.Consistent.invariant consistent

def isInside : Except Error State → Bool
  | .ok (.inside _) => true
  | _ => false

theorem exists_of_isInside {x : Except Error State} (inside : isInside x = true) :
    ∃ b, x = .ok (.inside b) := by
  unfold isInside at inside
  split at inside
  · exact ⟨_, rfl⟩
  · contradiction

/-- A procedure that needs a temporary after a call, next to one that it calls. -/
def keepingTable : Scope :=
  ⟨[{ name := "g" }, { name := "h", kind := .function, params := [{ name := "p" }] },
    { name := "f", kind := .function, locals := [{ name := "x" }] }]⟩

def keepingCode : List Quad :=
  Quad.numberedFrom 0 [
    { op := "label", arg1 := "func_f" },
    { op := "+", arg1 := "g", arg2 := "70000", res := "t" },
    { op := "param", arg1 := "t" },
    { op := "call", arg1 := "h", res := "u" },
    { op := "-", arg1 := "t", arg2 := "u", res := "x" },
    { op := "return", arg1 := "x" },
    { op := "label", arg1 := "end_f" }]

theorem stateAt_invariant_keeping :
    ∃ b, stateAt {} keepingTable keepingCode 5 = .ok (.inside b) ∧ Invariant b.store := by
  have inside : isInside (stateAt {} keepingTable keepingCode 5) = true := by decide +kernel
  obtain ⟨b, reached⟩ := exists_of_isInside inside
  exact ⟨b, reached, stateAt_invariant {} keepingTable keepingCode 5 b reached⟩

end ThreeAddress.Codegen
