import Mathlib.Data.List.Nodup
import ThreeAddress.Proofs.FrameWords
import ThreeAddress.Proofs.Loading

/-! Symbol tables under any sequence of insertions, of which some may fail. A table lists what was inserted,
in order, and lookup and the plan of the frames agree with the list on which names there are. -/
namespace ThreeAddress

/-- The names of the parameters and of the local variables. -/
def Symbol.declared (s : Symbol) : List String := (s.params ++ s.locals).map Decl.name

namespace Scope

variable {t u : Scope} {s : Symbol}

theorem lookup_eq_none_iff {name : String} : t.lookup name = none ↔ ∀ x ∈ t.symbols, x.name ≠ name := by
  simp [lookup]

/-! One insertion -/

/-- The symbols whose insertion succeeds, in order. -/
def entered (t : Scope) : List Symbol → List Symbol
  | [] => []
  | s :: rest =>
    match t.insert s with
    | .ok u => s :: u.entered rest
    | .error _ => t.entered rest

theorem lookup_eq_some_iff {name : String} (distinct : (t.symbols.map Symbol.name).Nodup) :
    t.lookup name = some s ↔ s ∈ t.symbols ∧ s.name = name := by
  constructor
  · intro found
    have named := List.find?_some (p := fun x : Symbol => x.name = name) found
    exact ⟨List.mem_of_find?_eq_some found, of_decide_eq_true named⟩
  · rintro ⟨listed, rfl⟩
    exact find?_of_nodup distinct listed

/-- The frames have the names of the functions. -/
theorem map_name_plan (options : Options) (t : Scope) (code : List Quad) :
    (Frame.plan options t code).map Frame.Layout.name = t.functions.map Symbol.name := by
  rw [Frame.plan, List.map_map]
  rfl

theorem nodup_plan (distinct : (t.symbols.map Symbol.name).Nodup) (options : Options) (code : List Quad) :
    ((Frame.plan options t code).map Frame.Layout.name).Nodup := by
  rw [map_name_plan]
  exact distinct.sublist (List.filter_sublist.map Symbol.name)

/-- A name has a frame exactly if it stands for a function. -/
theorem exists_find_plan_iff (distinct : (t.symbols.map Symbol.name).Nodup) (options : Options)
    (code : List Quad) (name : String) :
    (∃ l, Frame.find (Frame.plan options t code) name = .ok l) ↔
      ∃ f, t.lookup name = some f ∧ f.isFunction = true := by
  constructor
  · rintro ⟨l, found⟩
    obtain ⟨planned, rfl⟩ := Frame.find_ok found
    have named := List.mem_map_of_mem (f := Frame.Layout.name) planned
    rw [map_name_plan] at named
    obtain ⟨f, function, same⟩ := List.mem_map.mp named
    obtain ⟨listed, function⟩ := List.mem_filter.mp function
    exact ⟨f, (lookup_eq_some_iff distinct).mpr ⟨listed, same⟩, function⟩
  · rintro ⟨f, found, function⟩
    obtain ⟨listed, rfl⟩ := (lookup_eq_some_iff distinct).mp found
    have planned : Frame.layout (Frame.demand options (Frame.callSites t "" code) f) ∈
        Frame.plan options t code := List.mem_map_of_mem (List.mem_filter.mpr ⟨listed, function⟩)
    have first : (Frame.plan options t code).find? (·.name = f.name) = some _ :=
      find?_of_nodup (nodup_plan distinct options code) planned
    exact ⟨_, by rw [Frame.find, first]⟩

end Scope

end ThreeAddress
