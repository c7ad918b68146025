import ThreeAddress.Proofs.Brackets
import ThreeAddress.Proofs.References

/-! Compilation in lenient mode. Every value that cannot be had is warned of, in the order of the code, and
the one reference that compilation fails at is an array that cannot be addressed. -/
namespace ThreeAddress.Codegen

open Asm (Listing)

/-! References of one step -/

section Step

variable {site : Site} {x : Instr} {st st' : State}

/-- The references of a step. Outside of procedures there are none. -/
def stepReadings (site : Site) (x : Instr) : State → List Reading
  | .idle _ => []
  | .inside b => readings site x { b with reserved := [], returned := false }

/-- A reference to an array fails because the name stands for none. -/
def Reading.Proper (r : Reading) : Prop := r.isArray = true → ∀ c, r.cause? = some c → c = .notAnArray r.name

theorem Body.reads_proper (b : Body) (table : Scope) (name : String) : (b.reads table name).Proper := by
  intro array
  cases array

theorem Body.addresses_proper (b : Body) (table : Scope) (name : String) : (b.addresses table name).Proper := by
  intro _ cause unresolved
  unfold Body.addresses at unresolved
  dsimp only at unresolved
  split at unresolved
  · cases unresolved
  · exact (Option.some.inj unresolved).symm

theorem proper_of_readsOf {table : Scope} {b : Body} {x : Operand} {r : Reading}
    (member : r ∈ b.readsOf table x) : r.Proper := by
  obtain ⟨name, _, rfl⟩ := List.mem_map.mp member
  exact b.reads_proper table name

theorem proper_of_later {α : Type} {outcome : Except Error (α × Body)} {rest : Body → List Reading} {r : Reading}
    (proper : ∀ b, ∀ r ∈ rest b, r.Proper) (member : r ∈ readingsAfter outcome rest) : r.Proper := by
  obtain ⟨_, c, _, member⟩ := mem_readingsAfter member
  exact proper c r member

theorem proper_of_element {site : Site} {array : String} {index : Operand} {needs : Needs} {b : Body}
    {r : Reading} (member : r ∈ elementReadings site array index needs b) : r.Proper := by
  rcases List.mem_append.mp member with here | later
  · exact proper_of_readsOf here
  · refine proper_of_later (fun c r member => ?_) later
    rcases List.mem_cons.mp member with rfl | base
    · exact c.addresses_proper site.table array
    · unfold Body.baseReads at base
      split at base
      · rw [List.mem_singleton.mp base]
        exact c.reads_proper site.table array
      · cases base

theorem proper_of_readings {b : Body} {r : Reading} (member : r ∈ readings site x b) : r.Proper := by
  cases x with
  | binary op left right res =>
    rcases List.mem_append.mp member with here | later
    · exact proper_of_readsOf here
    · exact proper_of_later (fun _ _ => proper_of_readsOf) later
  | unary op x res => exact proper_of_readsOf member
  | copy src res =>
    simp only [readings] at member
    split at member
    · cases member
    · rw [List.mem_singleton.mp member]
      exact b.reads_proper site.table src
  | load array index res => exact proper_of_element member
  | store array index value =>
    rcases List.mem_append.mp member with here | later
    · exact proper_of_element here
    · exact proper_of_later (fun _ _ => proper_of_readsOf) later
  | loadInd pointer res =>
    rw [List.mem_singleton.mp member]
    exact b.reads_proper site.table pointer
  | storeInd pointer value =>
    rcases List.mem_cons.mp member with rfl | later
    · exact b.reads_proper site.table pointer
    · exact proper_of_later (fun _ _ => proper_of_readsOf) later
  | branch cond ifTrue target => exact proper_of_readsOf member
  | ret x =>
    obtain ⟨y, _, member⟩ := List.mem_flatMap.mp member
    exact proper_of_readsOf member
  | call function res =>
    obtain ⟨y, _, member⟩ := List.mem_flatMap.mp member
    exact proper_of_readsOf member
  | _ => cases member

theorem leave_mild (site : Site) : Mild (leave site) := by
  refine .bind flush_mild fun _ => .reads fun b => ?_
  split
  · exact .returns ()
  · exact .emits _

/-- A step that succeeds has warned of its references. -/
theorem step_noted (consistent : st.Consistent) (ran : step site x st = .ok st') :
    st'.out.warnings.toList = st.out.warnings.toList ++ noted site (stepReadings site x st) ∧
      ∀ r ∈ stepReadings site x st, r.Fatal site → r.cause? = none := by
  cases step_stepped ran with
  | nop =>
    cases st with
    | idle out => simp [stepReadings, noted]
    | inside b => simp [stepReadings, readings, noted]
  | outside => simp [stepReadings, noted, State.out, Output.push]
  | @entry l out name b _ entered =>
    obtain ⟨f, l, entered⟩ := enter_ok entered
    have unwarned : b.out.warnings = out.warnings := by
      rw [entered.start]
      exact Output.warnings_append _ _
    simp [stepReadings, noted, State.out, unwarned]
  | exit _ left =>
    simp [stepReadings, readings, noted, State.out, ((leave_mild site) _).1 _ _ left]
  | @lower x b c real plain lowers =>
    rcases lower_notes site (b := { b with reserved := [], returned := false })
      (Codegen.Consistent.sound consistent) x with notes | ⟨_, _, e, _, failed, _⟩
    · exact notes.ran () c lowers
    · rw [lowers] at failed
      cases failed

theorem enter_failed {name : String} {out : Output} {e : Error} (failed : enter site name out = .error e)
    (unresolved : e.kind = .unresolved) : ¬ IsFunction site.table name := by
  rintro ⟨f, symbol, function⟩
  simp only [enter, symbol, function, Bool.not_true, Bool.false_eq_true, if_false] at failed
  rcases except_bind_error.mp failed with missing | ⟨l, _, failed⟩
  · rw [find_error missing] at unresolved
    cases unresolved
  · split at failed
    · cases failed
      cases unresolved
    · cases failed

theorem advance_failed {b : Body} {e : Error} (consistent : Consistent b.store)
    (failed : b.advance (lower site x) = .error e) (unresolved : e.kind = .unresolved) :
    ∃ r ∈ stepReadings site x (.inside b), r.Fatal site ∧ r.cause? = some e.cause := by
  have failed : lower site x { b with reserved := [], returned := false } = .error e := by
    rcases except_bind_error.mp failed with failed | ⟨_, _, later⟩
    · exact failed
    · cases later
  rcases lower_notes site (b := { b with reserved := [], returned := false }) consistent.sound x with
    notes | ⟨_, _, e', _, failed', other⟩
  · rcases notes.failed e failed with scarce | fault | found
    · rw [unresolved] at scarce
      cases scarce
    · rw [unresolved] at fault
      cases fault
    · exact found
  · cases failed.symm.trans failed'
    exact absurd unresolved other

/-- A step that something unresolved lets fail opens what is no function, or makes a reference that has to be
resolved and cannot be. -/
theorem step_failed {e : Error} (consistent : st.Consistent) (failed : step site x st = .error e)
    (unresolved : e.kind = .unresolved) :
    (∃ f, x.boundary? = some (.entry f) ∧ ¬ IsFunction site.table f) ∨
      ∃ r ∈ stepReadings site x st, r.Fatal site ∧ r.cause? = some e.cause := by
  cases st with
  | idle out =>
    cases x with
    | nop => cases failed
    | label l =>
      simp only [step, stepLabel] at failed
      split at failed
      · cases failed
      · rename_i name boundary
        refine .inl ⟨name, congrArg some boundary, ?_⟩
        rcases except_bind_error.mp failed with refused | ⟨_, _, later⟩
        · exact enter_failed refused unresolved
        · cases later
      · cases failed
        cases unresolved
    | _ =>
      cases failed
      cases unresolved
  | inside b =>
    have inner (real : x ≠ .nop) (plain : ∀ l, x = .label l → l.boundary = .plain) :
        ∃ r ∈ stepReadings site x (.inside b), r.Fatal site ∧ r.cause? = some e.cause := by
      rw [step_inside real plain] at failed
      rcases except_bind_error.mp failed with failed | ⟨_, _, later⟩
      · exact advance_failed consistent failed unresolved
      · cases later
    cases x with
    | nop => cases failed
    | label l =>
      cases boundary : l.boundary with
      | plain =>
        refine .inr (inner (by simp) fun l' same => ?_)
        cases same
        exact boundary
      | entry name =>
        simp only [step, stepLabel, boundary] at failed
        cases failed
        cases unresolved
      | exit name =>
        simp only [step, stepLabel, boundary] at failed
        split at failed
        · cases failed
          cases unresolved
        · obtain ⟨_, c, left⟩ := leave_runs site b
          rw [left] at failed
          cases failed
    | _ => exact .inr (inner (by simp) (by simp))

end Step

/-! Whole runs -/

section Runs

variable {options : Options} {table : Scope} {code : List Quad} {instrs : List Instr} {n : Nat}

/-- The references at a position of the code. -/
def readingsAt (options : Options) (table : Scope) (code : List Quad) (n : Nat) : List Reading :=
  match stateAt options table code n, code[n]?.map Instr.ofQuad with
  | .ok st, some (.ok x) => stepReadings (siteAt options table code n) x st
  | _, _ => []

/-- The warnings at a position of the code. -/
def warningsAt (options : Options) (table : Scope) (code : List Quad) (n : Nat) : List Error :=
  noted (siteAt options table code n) (readingsAt options table code n)

theorem readingsAt_eq {x : Instr} {st : State} (decoded : decodeFrom 0 code = .ok instrs)
    (found : instrs[n]? = some x) (reached : stateAt options table code n = .ok st) :
    readingsAt options table code n = stepReadings (siteAt options table code n) x st := by
  obtain ⟨q, here, read⟩ := decodeFrom_getElem? decoded found
  simp [readingsAt, reached, here, read]

theorem stateAt_eq (options : Options) (table : Scope) (decoded : decodeFrom 0 code = .ok instrs) (n : Nat) :
    stateAt options table code n = runFrom options table (Frame.plan options table code) 0 code (instrs.take n)
      (.idle { lines := (header table).toArray }) := by
  rw [stateAt, decoded]
  rfl

theorem stateAt_step {x : Instr} {q : Quad} (decoded : decodeFrom 0 code = .ok instrs)
    (found : instrs[n]? = some x) (here : code[n]? = some q) :
    stateAt options table code (n + 1) =
      (stateAt options table code n >>= fun st =>
        inContext (.instrOf n q) (step (siteAt options table code n) x st)) := by
  obtain ⟨bound, _⟩ := List.getElem?_eq_some_iff.mp found
  obtain ⟨inside, same⟩ := List.getElem?_eq_some_iff.mp here
  have split : instrs.take (n + 1) = instrs.take n ++ [x] := by
    rw [List.take_add_one, found]
    rfl
  rw [stateAt_eq options table decoded, stateAt_eq options table decoded, split, runFrom_append, List.length_take,
    Nat.min_eq_left (Nat.le_of_lt bound), List.drop_eq_getElem_cons inside, same, Nat.zero_add]
  congr 1
  funext st
  simp only [runFrom, siteAt, runFrom_nil]
  cases inContext (.instrOf n q) (step _ x st) with
  | ok st' => rfl
  | error e => rfl

/-- A run that fails does so at one of its steps. -/
theorem stateAt_failed {e : Error} (decoded : decodeFrom 0 code = .ok instrs) (bound : n ≤ instrs.length)
    (failed : stateAt options table code n = .error e) : ∃ m x st e', m < n ∧ instrs[m]? = some x ∧
      stateAt options table code m = .ok st ∧ step (siteAt options table code m) x st = .error e' ∧
      e.cause = e'.cause := by
  induction n generalizing e with
  | zero =>
    rw [stateAt_zero decoded] at failed
    cases failed
  | succ n ih =>
    have found := List.getElem?_eq_getElem bound
    obtain ⟨q, here, _⟩ := decodeFrom_getElem? decoded found
    rw [stateAt_step decoded found here] at failed
    rcases except_bind_error.mp failed with earlier | ⟨st, reached, fails⟩
    · obtain ⟨m, x, st, e', before, rest⟩ := ih (Nat.le_of_lt bound) earlier
      exact ⟨m, x, st, e', Nat.lt_succ_of_lt before, rest⟩
    · obtain ⟨e', inner, rfl⟩ := inContext_error.mp fails
      exact ⟨n, instrs[n], st, e', Nat.lt_succ_self n, found, reached, inner, rfl⟩

/-- At every position the warnings are those of the instructions before it, and so far every reference that
has to be resolved was. -/
theorem stateAt_noted {st : State} (decoded : decodeFrom 0 code = .ok instrs) (bound : n ≤ instrs.length)
    (reached : stateAt options table code n = .ok st) :
    st.out.warnings.toList = (List.range n).flatMap (warningsAt options table code) ∧
      ∀ m < n, ∀ r ∈ readingsAt options table code m, r.Fatal (siteAt options table code m) → r.cause? = none := by
  induction n generalizing st with
  | zero =>
    rw [stateAt_zero decoded] at reached
    cases reached
    simp [State.out]
  | succ n ih =>
    have found := List.getElem?_eq_getElem bound
    obtain ⟨st', before, steps⟩ := (stateAt_succ decoded found).mp reached
    obtain ⟨warned, resolved⟩ := ih (Nat.le_of_lt bound) before
    obtain ⟨warned', resolved'⟩ := step_noted (stateAt_consistent before) steps
    rw [← readingsAt_eq decoded found before] at warned' resolved'
    constructor
    · rw [warned', warned, List.range_succ, List.flatMap_append]
      simp [warningsAt]
    · intro m before
      rcases Nat.lt_succ_iff_lt_or_eq.mp before with earlier | rfl
      · exact resolved m earlier
      · exact resolved'

theorem entries_of_boundary {q : Quad} {f : String} (here : code[n]? = some q)
    (opens : q.boundary? = some (.entry f)) : f ∈ Quad.entries code := by
  refine List.mem_filterMap.mpr ⟨q, List.mem_of_getElem? here, ?_⟩
  obtain ⟨⟨name, boundary⟩, label, rfl⟩ := Option.map_eq_some_iff.mp opens
  simp [Quad.entry?, label]

theorem decodeFrom_failed {start : Nat} {e : Error} (failed : decodeFrom start code = .error e) :
    e.kind ≠ .unresolved := by
  induction code generalizing start with
  | nil => cases failed
  | cons q code ih =>
    unfold decodeFrom at failed
    split at failed
    · cases failed
      simp [Error.kind, Cause.kind]
    · rcases except_bind_error.mp failed with misread | ⟨x, _, failed⟩
      · obtain ⟨e', inner, rfl⟩ := inContext_error.mp misread
        have kind : e'.kind ≠ .unresolved := by
          rcases Instr.ofQuad_misread inner with other | other <;> simp [other]
        exact kind
      · rcases except_bind_error.mp failed with later | ⟨_, _, done⟩
        · exact ih later
        · cases done

/-- Compilation that fails for something unresolved fails at a step. -/
theorem compile_failed {e : Error} (failed : compile options table code = .error e)
    (unresolved : e.kind = .unresolved) : ∃ instrs m x st e', decodeFrom 0 code = .ok instrs ∧
      instrs[m]? = some x ∧ stateAt options table code m = .ok st ∧
      step (siteAt options table code m) x st = .error e' ∧ e.cause = e'.cause := by
  rcases except_bind_error.mp failed with misread | ⟨instrs, decoded, failed⟩
  · exact absurd unresolved (decodeFrom_failed misread)
  have whole := stateAt_eq options table decoded instrs.length
  rw [List.take_length] at whole
  rcases except_bind_error.mp failed with fails | ⟨st, _, failed⟩
  · obtain ⟨m, x, st, f, _, found, reached, fails, cause⟩ :=
      stateAt_failed decoded (Nat.le_refl _) (whole.trans fails)
    exact ⟨instrs, m, x, st, f, decoded, found, reached, fails, cause⟩
  · cases st with
    | idle out => cases failed
    | inside b =>
      cases failed
      cases unresolved

end Runs

/-- In lenient mode a program whose procedures are functions fails for nothing unresolved but an array that
cannot be addressed. If it compiles, its warnings are those of the references, in the order in which they are
made, and every array could be addressed. -/
theorem compile_lenient (options : Options) (table : Scope) (code : List Quad) (lenient : options.strict = false)
    (functions : ∀ f ∈ Quad.entries code, IsFunction table f) :
    (∀ e, compile options table code = .error e → e.kind = .unresolved →
      ∃ n < code.length, ∃ r ∈ readingsAt options table code n,
        r.isArray = true ∧ r.cause? = some e.cause ∧ e.cause = .notAnArray r.name) ∧
    ∀ listing, compile options table code = .ok listing →
      listing.warnings = (List.range code.length).flatMap (warningsAt options table code) ∧
        ∀ n < code.length, ∀ r ∈ readingsAt options table code n, r.isArray = true → r.cause? = none := by
  constructor
  · intro e failed unresolved
    obtain ⟨instrs, n, x, st, e', decoded, found, reached, fails, cause⟩ := compile_failed failed unresolved
    obtain ⟨q, here, read⟩ := decodeFrom_getElem? decoded found
    have unresolved' : e'.kind = .unresolved := by
      rw [← unresolved, Error.kind, Error.kind, cause]
    rcases step_failed (stateAt_consistent reached) fails unresolved' with
      ⟨f, opens, other⟩ | ⟨r, member, fatal, missing⟩
    · rw [← Instr.boundary?_of_read read] at opens
      exact absurd (functions f (entries_of_boundary here opens)) other
    · have array : r.isArray = true := fatal.resolve_left (by simp [siteAt, lenient])
      refine ⟨n, (List.getElem?_eq_some_iff.mp here).1, r, ?_, array, cause ▸ missing, ?_⟩
      · rwa [readingsAt_eq decoded found reached]
      · rw [cause]
        cases st with
        | idle out => cases member
        | inside b => exact proper_of_readings member array e'.cause missing
  · intro listing compiled
    obtain ⟨instrs, out, decoded, ran, rfl⟩ := compile_ok_iff.mp compiled
    have reached := stateAt_eq options table decoded instrs.length
    rw [List.take_length, ran] at reached
    obtain ⟨warned, resolved⟩ := stateAt_noted decoded (Nat.le_refl _) reached
    rw [decodeFrom_length decoded] at warned resolved
    exact ⟨warned, fun n bound r member array => resolved n bound r member (.inr array)⟩

theorem isFunction_of_entries {table : Scope} {code : List Quad} {name : String}
    (only : Quad.entries code = [name]) (function : IsFunction table name) :
    ∀ f ∈ Quad.entries code, IsFunction table f := by
  intro f member
  rw [only, List.mem_singleton] at member
  exact member ▸ function

/-- Code that reads names that nothing declares: an operand, a pointer, an argument and a returned value. -/
def strayingCode : List Quad :=
  Quad.numberedFrom 0 [
    { op := "label", arg1 := "func_f" },
    { op := "+", arg1 := "u", arg2 := "1", res := "t" },
    { op := "=$", arg1 := "p", arg2 := "t" },
    { op := "param", arg1 := "w" },
    { op := "call", arg1 := "g", res := "x" },
    { op := "return", res := "v" },
    { op := "label", arg1 := "end_f" }]

def strayingTable : Scope :=
  ⟨[{ name := "f", kind := .function },
    { name := "g", kind := .function, params := [{ name := "a", size := 4 }] }]⟩

theorem compile_lenient_straying : ∃ listing,
    compile { strict := false } strayingTable strayingCode = .ok listing ∧
      listing.warnings = (List.range strayingCode.length).flatMap
        (warningsAt { strict := false } strayingTable strayingCode) ∧
      listing.warnings.map (·.cause) =
        [.undefinedName "u", .undefinedName "p", .undefinedName "w", .undefinedName "v"] := by
  have warned : (compile { strict := false } strayingTable strayingCode).toOption.any
      (fun listing => listing.warnings.map (·.cause) =
        [.undefinedName "u", .undefinedName "p", .undefinedName "w", .undefinedName "v"]) = true := by
    decide +kernel
  obtain ⟨listing, compiled, causes⟩ := (Option.any_eq_true _ _).mp warned
  have compiled := eq_ok_of_toOption compiled
  have only : Quad.entries strayingCode = ["f"] := by decide +kernel
  have functions := isFunction_of_entries only (show IsFunction strayingTable "f" from ⟨_, rfl, rfl⟩)
  obtain ⟨_, lenient⟩ := compile_lenient { strict := false } strayingTable strayingCode rfl functions
  exact ⟨listing, compiled, (lenient listing compiled).1, of_decide_eq_true causes⟩

/-- Code that stores to an array that nothing declares. -/
def strayArrayCode : List Quad :=
  Quad.numberedFrom 0 [
    { op := "label", arg1 := "func_f" },
    { op := "[]=", arg1 := "0", arg2 := "1", res := "nope" },
    { op := "return" },
    { op := "label", arg1 := "end_f" }]

/-- Lenient mode does not let an unknown array pass. -/
theorem unknown_array_fails : Quad.Numbered strayArrayCode ∧ Quad.Bracketed strayArrayCode ∧
    (∀ f ∈ Quad.entries strayArrayCode, IsFunction strayTable f) ∧
    ∃ e, compile { strict := false } strayTable strayArrayCode = .error e ∧ e.kind = .unresolved := by
  have decodes : (decodeFrom 0 strayArrayCode).toOption.isSome = true := by decide +kernel
  have refused : ((compile { strict := false } strayTable strayArrayCode).map fun _ => ()).mapError Error.kind =
      .error .unresolved := by decide +kernel
  have only : Quad.entries strayArrayCode = ["f"] := by decide +kernel
  refine ⟨fun i q found => ?_, ?_, isFunction_of_entries only ⟨_, rfl, rfl⟩, exists_error_of_kind refused⟩
  · obtain ⟨instrs, decoded⟩ := Option.isSome_iff_exists.mp decodes
    rw [decodeFrom_index (eq_ok_of_toOption decoded) i found, Nat.zero_add]
  · exact @Quad.Bracketed.procedure "f" _ _ ((strayArrayCode.drop 1).take 2) [] (by decide +kernel)
      (by decide +kernel) (by decide +kernel) .nil

end ThreeAddress.Codegen
