import ThreeAddress.Program.Basic
import ThreeAddress.Proofs.Frames

/-! Programs that are loaded from declarations. Their tables are made by adding symbols one by one, and
their functions have names. -/
namespace ThreeAddress

namespace Scope

theorem insert_ok {t t' : Scope} {s : Symbol} (inserted : t.insert s = .ok t') :
    t.lookup s.name = none ∧ t'.symbols = t.symbols ++ [s] := by
  unfold insert at inserted
  split at inserted
  · simp [inContext, fail] at inserted
  · rename_i fresh
    split at inserted
    · simp [inContext, fail] at inserted
    · cases Except.ok.inj inserted
      exact ⟨Option.not_isSome_iff_eq_none.mp fresh, rfl⟩

theorem insertAll_symbols {t t' : Scope} {symbols : List Symbol} (built : t.insertAll symbols = .ok t') :
    t'.symbols = t.symbols ++ symbols := by
  induction symbols generalizing t with
  | nil =>
    cases Except.ok.inj built
    exact (List.append_nil _).symm
  | cons s symbols ih =>
    obtain ⟨next, inserted, rest⟩ := Codegen.except_bind_ok.mp built
    rw [ih rest, (insert_ok inserted).2, List.append_assoc]
    rfl

/-- A name stands for one symbol. -/
theorem lookup_of_insertAll {t t' : Scope} {symbols : List Symbol} (built : t.insertAll symbols = .ok t')
    (own : ∀ s ∈ t.symbols, t.lookup s.name = some s) : ∀ s ∈ t'.symbols, t'.lookup s.name = some s := by
  induction symbols generalizing t with
  | nil =>
    cases Except.ok.inj built
    exact own
  | cons s symbols ih =>
    obtain ⟨next, inserted, rest⟩ := Codegen.except_bind_ok.mp built
    obtain ⟨fresh, added⟩ := insert_ok inserted
    refine ih rest fun u member => ?_
    rw [added, List.mem_append, List.mem_singleton] at member
    rw [lookup, added, List.find?_append]
    rcases member with old | rfl
    · rw [show t.symbols.find? _ = some u from own u old, Option.some_or]
    · rw [show t.symbols.find? _ = none from fresh]
      simp

theorem insertAll_append {t t' t'' : Scope} {first second : List Symbol}
    (built : t.insertAll first = .ok t') (more : t'.insertAll second = .ok t'') :
    t.insertAll (first ++ second) = .ok t'' := by
  induction first generalizing t with
  | nil =>
    cases Except.ok.inj built
    exact more
  | cons s first ih =>
    obtain ⟨next, inserted, rest⟩ := Codegen.except_bind_ok.mp built
    exact Codegen.except_bind_ok.mpr ⟨next, inserted, ih rest⟩

end Scope

theorem addGlobals_ok {t t' : Scope} {ds : List Decl} (added : addGlobals t ds = .ok t') :
    ∃ symbols, t.insertAll symbols = .ok t' ∧ ∀ s ∈ symbols, s.isFunction = false := by
  induction ds generalizing t with
  | nil => exact ⟨[], added, by simp⟩
  | cons d ds ih =>
    simp only [addGlobals, Codegen.except_bind_ok, Codegen.inContext_ok] at added
    obtain ⟨v, _, next, inserted, rest⟩ := added
    obtain ⟨symbols, built, plain⟩ := ih rest
    exact ⟨v.toSymbol :: symbols, Codegen.except_bind_ok.mpr ⟨next, inserted, built⟩,
      List.forall_mem_cons.mpr ⟨rfl, plain⟩⟩

theorem FunctionDecl.toSymbol_ok {f : FunctionDecl} {s : Symbol} (made : f.toSymbol = .ok s) :
    s.name = f.name ∧ s.name ≠ "" := by
  unfold toSymbol at made
  split at made
  · simp [fail] at made
  · rename_i named
    simp only [Codegen.except_bind_ok] at made
    obtain ⟨params, _, locals, _, same⟩ := made
    cases Except.ok.inj same
    exact ⟨rfl, named⟩

theorem addFunctions_ok {t t' : Scope} {fs : List FunctionDecl} (added : addFunctions t fs = .ok t') :
    ∃ symbols, t.insertAll symbols = .ok t' ∧ ∀ s ∈ symbols, s.name ≠ "" := by
  induction fs generalizing t with
  | nil => exact ⟨[], added, by simp⟩
  | cons f fs ih =>
    simp only [addFunctions, Codegen.except_bind_ok, Codegen.inContext_ok] at added
    obtain ⟨s, made, next, inserted, rest⟩ := added
    obtain ⟨symbols, built, named⟩ := ih rest
    exact ⟨s :: symbols, Codegen.except_bind_ok.mpr ⟨next, inserted, built⟩,
      List.forall_mem_cons.mpr ⟨(FunctionDecl.toSymbol_ok made).2, named⟩⟩

/-- The table of a loaded program is made by adding its symbols, and a function of it has a name. -/
theorem Program.ofDeclarations_ok {name : String} {d : Declarations} {p : Program}
    (loaded : ofDeclarations name d = .ok p) :
    ∃ symbols, Scope.insertAll {} symbols = .ok p.table ∧ ∀ f ∈ p.table.functions, f.name ≠ "" := by
  simp only [ofDeclarations, Codegen.except_bind_ok, Codegen.inContext_ok] at loaded
  obtain ⟨t, globals, table, functions, code, _, same⟩ := loaded
  cases Except.ok.inj same
  obtain ⟨first, built, plain⟩ := addGlobals_ok globals
  obtain ⟨second, more, named⟩ := addFunctions_ok functions
  have all := Scope.insertAll_append built more
  refine ⟨first ++ second, all, fun f member => ?_⟩
  obtain ⟨inside, function⟩ := List.mem_filter.mp member
  rw [Scope.insertAll_symbols all, List.nil_append, List.mem_append] at inside
  rcases inside with inside | inside
  · rw [plain f inside] at function
    contradiction
  · exact named f inside

end ThreeAddress
