import ThreeAddress.Proofs.Choice
import ThreeAddress.Proofs.FrameParts
import ThreeAddress.Proofs.Hiding

/-! Declarations hide global variables. In a procedure the name of a parameter or of a local variable stands for
its own words, and no code refers to the global variable of the name. A local array hides it as an array alone:
where its name is touched as a scalar, it stands for the global variable. -/
namespace ThreeAddress.Codegen

open Asm (Line Mem)
open Descriptor (Store Var Entry)

variable {site : Site} {table : Scope} {h : Hiding} {b c : Body} {f : Symbol} {l : Frame.Layout}

/-! Declarations -/

/-- What a function declares a name to be. -/
structure Hiding.IsOf (l : Frame.Layout) (f : Symbol) (h : Hiding) : Prop where
  place : (arrayPlaces l f).lookup h.name = h.place
  home : ∀ mem, h.home = some mem →
    h.name ∈ (scalarDecls f).map Decl.name ∧ mem = (Slot.declared h.name).word f l

theorem declareAll_live {s : Store Mem} (live : ∀ v e, s.get? v = some e → e.forgotten = false)
    (places : List (Decl × Int64)) : ∀ v e, (declareAll s places).get? v = some e → e.forgotten = false := by
  induction places generalizing s with
  | nil => exact live
  | cons x places ih =>
    refine ih fun v e found => ?_
    change (s.declare x.1.name (some (frameWord x.2))).2.get? v = some e at found
    rw [Store.declare, Store.get?_modifyEntry] at found
    have interned (w : Var) (g : Entry Mem) (here : (s.intern x.1.name).2.get? w = some g) : g.forgotten = false := by
      rw [Store.get?_intern] at here
      split at here
      · cases here
        rfl
      · exact live w g here
    split at found
    · obtain ⟨g, here, rfl⟩ := Option.map_eq_some_iff.mp found
      exact interned _ g here
    · exact interned v e found

theorem start_hidden (options : Options) (table : Scope) (out : Output) {f : Symbol} {l : Frame.Layout}
    (declares : h.IsOf l f) : Hidden table h (Body.start options out f l) := by
  have declared := start_declared options out f l
  have live : ∀ v e, (Body.start options out f l).store.get? v = some e → e.forgotten = false := by
    refine declareAll_live (declareAll_live ?_ _) _
    intro v e found
    rw [(usableRegisters_unused _ l).1] at found
    cases found
  refine ⟨fun v e found => ?_, fun homed => ?_, fun _ => List.not_mem_nil, declares.place, by simp [Body.start]⟩
  · obtain ⟨d, offset, last, home⟩ := declared.home v e ⟨found, live v e found⟩
    refine ⟨fun mem here => ?_, fun homed same => ?_⟩
    · cases home.symm.trans here
      simp [frameWord]
    · obtain ⟨mem, own⟩ := Option.isSome_iff_exists.mp homed
      rw [own, (declares.home mem own).2, home, Slot.word, ← same, last]
  · obtain ⟨mem, own⟩ := Option.isSome_iff_exists.mp homed
    obtain ⟨x, placed, named, _⟩ := mem_scalarPlaces_of_declared (l := l) (declares.home mem own).1
    obtain ⟨v, e, known, same⟩ := declared.known x placed
    exact ⟨v, e, known, same.trans named⟩

/-- The name of a local array is not the name of a scalar. -/
theorem undeclared_of_array (names : ((f.params ++ f.locals).map Decl.name).Nodup) {d : Decl} (member : d ∈ f.locals)
    (array : d.isArray = true) : d.name ∉ (scalarDecls f).map Decl.name := by
  intro declared
  obtain ⟨e, inside, same⟩ := List.mem_map.mp declared
  rw [List.map_append, List.nodup_append] at names
  rcases List.mem_append.mp inside with param | scalar
  · exact names.2.2 _ (List.mem_map_of_mem param) _ (List.mem_map_of_mem member) same
  · obtain ⟨there, scalar⟩ := List.mem_filter.mp scalar
    cases List.inj_on_of_nodup_map names.2.1 there member same
    simp [array] at scalar

/-- Of the names of scalars only those of parameters are arrays, and these are pointers. -/
theorem arrayPlaces_of_scalar (names : ((f.params ++ f.locals).map Decl.name).Nodup) {name : String}
    (declared : name ∈ (scalarDecls f).map Decl.name) :
    (arrayPlaces l f).lookup name = none ∨ (arrayPlaces l f).lookup name = some .pointer := by
  cases found : (arrayPlaces l f).lookup name with
  | none => exact .inl rfl
  | some place =>
    obtain ⟨_, _, split, _⟩ := List.lookup_eq_some_iff.mp found
    have member : (name, place) ∈ arrayPlaces l f := by simp [split]
    unfold arrayPlaces at member
    rw [List.partition_eq_filter_filter] at member
    rcases List.mem_append.mp member with param | data
    · obtain ⟨x, _, same⟩ := List.mem_map.mp param
      cases same
      exact .inr rfl
    · obtain ⟨x, inside, same⟩ := List.mem_map.mp data
      cases same
      obtain ⟨inside, array⟩ := List.mem_filter.mp inside
      have here : x.1 ∈ (placeLocals l 0 f.locals).map Prod.fst := List.mem_map_of_mem inside
      rw [map_placeLocals] at here
      exact absurd declared (undeclared_of_array names here array)

/-- A parameter or a scalar local variable has its word. -/
def Hiding.scalar (l : Frame.Layout) (names : ((f.params ++ f.locals).map Decl.name).Nodup) {name : String}
    (declared : name ∈ (scalarDecls f).map Decl.name) : Hiding where
  name := name
  home := some ((Slot.declared name).word f l)
  place := (arrayPlaces l f).lookup name
  framed none := absurd none (Option.some_ne_none _)
  pointed _ := arrayPlaces_of_scalar names declared

theorem Hiding.scalar_isOf (names : ((f.params ++ f.locals).map Decl.name).Nodup) {name : String}
    (declared : name ∈ (scalarDecls f).map Decl.name) : (Hiding.scalar l names declared).IsOf l f :=
  ⟨rfl, fun _ same => ⟨declared, (Option.some.inj same).symm⟩⟩

/-- A local array is in the frame. -/
def Hiding.array (name : String) (offset : Int64) : Hiding where
  name := name
  home := none
  place := some (.frame offset)
  framed _ := ⟨offset, rfl⟩
  pointed homed := absurd homed Bool.false_ne_true

theorem Hiding.array_isOf {name : String} {offset : Int64}
    (found : (arrayPlaces l f).lookup name = some (.frame offset)) : (Hiding.array name offset).IsOf l f :=
  ⟨found, fun _ none => absurd none.symm (Option.some_ne_none _)⟩

/-! In the course of an instruction -/

/-- A name that has a word stays hidden, whatever is loaded. -/
theorem Midway.hidden (midway : Midway site b c) (hidden : Hidden site.table h b) (homed : h.home.isSome = true) :
    Hidden site.table h c := by
  have allowed (name : String) : h.Allows site.table name := fun none => by simp [none] at homed
  induction midway with
  | start => exact hidden.update (.refl _) rfl rfl rfl
  | emits _ _ ih => exact ih.update (.refl _) rfl rfl rfl
  | fetches _ ran ih => exact (operand_hides (fun name _ => allowed name) _ _ _ _ _ ih ran).2.1
  | loads _ ran ih => exact (loaded_hides (allowed _) _ _ _ _ ih ran).2.1
  | acquires _ ran ih => exact (acquire_hides (allowed _) _ _ _ _ ih ran).2.1
  | calls _ ih => exact { ih with pending := by simp }
  | passes _ ran ih => exact (passArgument_hides (fun name _ => allowed name) _ _ _ _ ih ran).2.1
  | writes _ ran ih => exact (writeBack_hides _ _ _ ih ran).2.1
  | keeps _ ran ih => exact (keep_hides _ _ _ _ ih ran).2.1
  | forgets _ ran ih => exact (forget_hides _ _ _ _ ih ran).2.1

/-- A hidden name is resolved to its word. -/
theorem Hidden.resolve? (hidden : Hidden site.table h b) {mem : Mem} (home : h.home = some mem) :
    ∃ v e, Codegen.resolve? site h.name b = .ok (some v, b) ∧ b.store.get? v = some e ∧ e.home = some mem := by
  obtain ⟨v, e, known, entry, own⟩ := hidden.lookup (by simp [home])
  refine ⟨v, e, ?_, entry, own.trans home⟩
  refine (bind_of_ok (x := get) rfl).trans ?_
  simp only [known]
  rfl

theorem Hidden.arrayPlace (hidden : Hidden site.table h b) (homed : h.home.isSome = true) :
    Codegen.arrayPlace site h.name b = .ok (.pointer, b) := by
  rw [arrayPlace_eq, hidden.place?, if_pos homed]

theorem arrayPlace_of_frame {name : String} {offset : Int64} (found : b.arrays.lookup name = some (.frame offset)) :
    arrayPlace site name b = .ok (.frame offset, b) := by
  rw [arrayPlace_eq, Body.place?, found]
  rfl

/-! Whole runs -/

section Runs

variable {options : Options} {code : List Quad} {instrs : List Instr} {n : Nat}

/-- Before a position, an instruction of the same procedure touches the name as a scalar. -/
def TouchedBefore (instrs : List Instr) (n : Nat) (name : String) : Prop :=
  ∃ k x, k < n ∧ instrs[k]? = some x ∧ name ∈ x.scalars ∧
    ∀ j l, k ≤ j → j < n → instrs[j]? = some (.label l) → l.boundary = .plain

theorem TouchedBefore.later {x : Instr} {name : String} (touched : TouchedBefore instrs n name)
    (found : instrs[n]? = some x) (plain : ∀ l, x = .label l → l.boundary = .plain) :
    TouchedBefore instrs (n + 1) name := by
  obtain ⟨k, y, before, there, named, between⟩ := touched
  refine ⟨k, y, by omega, there, named, fun j l after bound label => ?_⟩
  by_cases last : j = n
  · subst last
    exact plain l (Option.some.inj (found.symm.trans label))
  · exact between j l after (by omega) label

theorem touchedBefore_succ {x : Instr} {name : String} (found : instrs[n]? = some x) (named : name ∈ x.scalars)
    (plain : ∀ l, x = .label l → l.boundary = .plain) : TouchedBefore instrs (n + 1) name := by
  refine ⟨n, x, by omega, found, named, fun j l after bound label => ?_⟩
  obtain rfl : j = n := by omega
  exact plain l (Option.some.inj (found.symm.trans label))

/-- A declaration holds up to the first instruction that touches an array as a scalar. -/
theorem stateAt_hidden (decoded : decodeFrom 0 code = .ok instrs) (bound : n ≤ instrs.length)
    (reached : stateAt options table code n = .ok (.inside b)) (declares : h.IsOf b.layout b.function)
    (untouched : h.home = none → isGlobalScalar table h.name = true → ¬ TouchedBefore instrs n h.name) :
    Hidden table h b := by
  refine (stateAt_positions (P := fun n st => st.Consistent ∧ ∀ b, st = .inside b → h.IsOf b.layout b.function →
    (h.home = none → isGlobalScalar table h.name = true → ¬ TouchedBefore instrs n h.name) → Hidden table h b)
    decoded ⟨trivial, by simp⟩ ?_ bound reached).2 b rfl declares untouched
  rintro n x st st' found ⟨consistent, hides⟩ steps
  refine ⟨step_consistent consistent steps, ?_⟩
  rintro c rfl declares untouched
  cases step_stepped steps with
  | nop =>
    exact hides c rfl declares fun none global touched => untouched none global (touched.later found (by simp))
  | entry _ entered =>
    obtain ⟨f, l, entered⟩ := enter_ok entered
    obtain rfl := entered.start
    exact start_hidden _ _ _ declares
  | @lower x b c real plain lowers =>
    have frame := lower_frame (b := { b with reserved := [], returned := false }) consistent lowers
    rw [frame.function, frame.layout] at declares
    have hidden := hides b rfl declares fun none global touched => untouched none global (touched.later found plain)
    have started : Hidden table h { b with reserved := [], returned := false } :=
      hidden.update (.refl _) rfl rfl rfl
    have allowed : ∀ name ∈ x.scalars, h.Allows (siteAt options table code n).table name := by
      rintro name named none global rfl
      exact untouched none global (touchedBefore_succ found named plain)
    exact (lower_hides allowed _ _ _ started lowers).2.1

/-- The lines of a step do not refer to the global variable of a name that stays hidden. -/
theorem stateAt_avoids {st : State} {ls : List Line} (decoded : decodeFrom 0 code = .ok instrs)
    (reached : stateAt options table code n = .ok (.inside b))
    (accepted : stateAt options table code (n + 1) = .ok st)
    (lines : st.out.lines.toList = b.out.lines.toList ++ ls) (hidden : Hidden table h b)
    (allowed : ∀ x, instrs[n]? = some x → ∀ name ∈ x.scalars, h.Allows table name) :
    ∀ l ∈ ls, l.global? ≠ some h.name := by
  have finish {c : Body} (same : st.out = c.out) (avoids : Avoids h.name b c) :
      ∀ l ∈ ls, l.global? ≠ some h.name := by
    obtain ⟨ks, lines', clean⟩ := avoids
    rw [← same, lines] at lines'
    obtain rfl := List.append_cancel_left lines'
    exact clean
  cases found : instrs[n]? with
  | none =>
    rw [stateAt_beyond decoded (List.getElem?_eq_none_iff.mp found), reached] at accepted
    cases accepted
    exact finish rfl (.of_same rfl)
  | some x =>
    obtain ⟨st', before, steps⟩ := (stateAt_succ decoded found).mp accepted
    cases reached.symm.trans before
    cases step_stepped steps with
    | nop => exact finish rfl (.of_same rfl)
    | exit _ left => exact finish rfl (leave_hides _ _ _ hidden left).2.2
    | lower real plain lowers =>
      have started : Hidden table h { b with reserved := [], returned := false } :=
        hidden.update (.refl _) rfl rfl rfl
      have allowed : ∀ name ∈ x.scalars, h.Allows (siteAt options table code n).table name := allowed x found
      exact finish rfl (lower_hides allowed _ _ _ started lowers).2.2

/-- The names that a procedure declares are different. -/
theorem stateAt_names {symbols : List Symbol} (built : Scope.insertAll {} symbols = .ok table)
    (decoded : decodeFrom 0 code = .ok instrs) (reached : stateAt options table code n = .ok (.inside b)) :
    ((b.function.params ++ b.function.locals).map Decl.name).Nodup := by
  rw [stateAt_min decoded] at reached
  have provided := stateAt_provided decoded (Nat.min_le_right _ _) reached
  exact Scope.nodup_of_insertAll built (by simp) _ (List.mem_of_find?_eq_some provided.symbol)

/-- A scalar of a procedure is hidden by its word all the time. -/
theorem stateAt_hidden_scalar (names : ((b.function.params ++ b.function.locals).map Decl.name).Nodup)
    (decoded : decodeFrom 0 code = .ok instrs) (reached : stateAt options table code n = .ok (.inside b))
    {name : String} (declared : name ∈ (scalarDecls b.function).map Decl.name) :
    Hidden table (Hiding.scalar b.layout names declared) b := by
  rw [stateAt_min decoded] at reached
  exact stateAt_hidden decoded (Nat.min_le_right _ _) reached (Hiding.scalar_isOf names declared)
    fun none => absurd none (Option.some_ne_none _)

theorem mem_scalarPlaces {d : Decl} {offset : Int64} :
    (d, offset) ∈ scalarPlaces l f ↔ (d, offset) ∈ placeParams l f.params ∨
      (d, offset) ∈ placeLocals l 0 f.locals ∧ d.isArray = false := by
  simp [scalarPlaces, List.partition_eq_filter_filter]

/-- A line that refers to the global variable of a declared name does so for a local array that is a scalar
elsewhere. -/
theorem stateAt_exposed {st : State} {ls : List Line} {m : String}
    (names : ((b.function.params ++ b.function.locals).map Decl.name).Nodup)
    (decoded : decodeFrom 0 code = .ok instrs) (reached : stateAt options table code n = .ok (.inside b))
    (accepted : stateAt options table code (n + 1) = .ok st)
    (lines : st.out.lines.toList = b.out.lines.toList ++ ls) (refers : ∃ l ∈ ls, l.global? = some m)
    (declared : m ∈ (b.function.params ++ b.function.locals).map Decl.name) :
    isGlobalScalar table m = true ∧ (∃ d ∈ b.function.locals, d.isArray = true ∧ d.name = m) ∧
      (TouchedBefore instrs n m ∨ ∃ x, instrs[n]? = some x ∧ m ∈ x.scalars) := by
  obtain ⟨l, member, global⟩ := refers
  by_cases scalar : m ∈ (scalarDecls b.function).map Decl.name
  · refine absurd global (stateAt_avoids decoded reached accepted lines
      (stateAt_hidden_scalar names decoded reached scalar) (fun _ _ _ _ none => ?_) l member)
    exact absurd none (Option.some_ne_none _)
  · obtain ⟨d, inside, rfl⟩ := List.mem_map.mp declared
    have array : d ∈ b.function.locals ∧ d.isArray = true := by
      by_contra other
      refine scalar (List.mem_map_of_mem ?_)
      rcases List.mem_append.mp inside with param | local'
      · exact List.mem_append_left _ param
      · exact List.mem_append_right _ (List.mem_filter.mpr ⟨local', by simpa [local'] using other⟩)
    -- otherwise the declaration of the array holds up to here and through this step
    by_contra covered
    have clean : isGlobalScalar table d.name = true →
        ¬ (TouchedBefore instrs n d.name ∨ ∃ x, instrs[n]? = some x ∧ d.name ∈ x.scalars) :=
      fun there touched => covered ⟨there, ⟨d, array.1, array.2, rfl⟩, touched⟩
    obtain ⟨x, placed, same⟩ : ∃ x ∈ placeLocals b.layout 0 b.function.locals, x.1 = d := by
      have here := array.1
      rwa [← map_placeLocals b.layout 0 b.function.locals, List.mem_map] at here
    obtain ⟨e, offset⟩ := x
    obtain rfl : e = d := same
    obtain ⟨j, placed⟩ := List.mem_iff_getElem?.mp placed
    have declares := Hiding.array_isOf (arrayPlaces_lookup names array.2 placed)
    cases found : instrs[n]? with
    | none =>
      rw [stateAt_beyond decoded (List.getElem?_eq_none_iff.mp found), reached] at accepted
      cases accepted
      have empty : ls = [] := List.self_eq_append_right.mp lines
      simp [empty] at member
    | some x =>
      have bound := (List.getElem?_eq_some_iff.mp found).1
      have hidden := stateAt_hidden decoded bound.le reached declares
        fun _ there touched => clean there (.inl touched)
      refine stateAt_avoids decoded reached accepted lines hidden ?_ l member global
      rintro y here name named - there rfl
      exact clean there (.inr ⟨y, here, named⟩)

/-- Inside of a procedure a parameter or scalar local variable stands for its word and a local array for its words,
at every point of every instruction. No line refers to the global variable of such a name, unless the name is one
of a local array that was touched as a scalar. -/
theorem declarations_shadow {symbols : List Symbol} (built : Scope.insertAll {} symbols = .ok table)
    (decoded : decodeFrom 0 code = .ok instrs) (reached : stateAt options table code n = .ok (.inside b)) :
    (∀ c, Midway (siteAt options table code n) b c →
      (∀ d offset, (d, offset) ∈ placeParams b.layout b.function.params ∨
          (d, offset) ∈ placeLocals b.layout 0 b.function.locals ∧ d.isArray = false →
        (∃ v e, resolve? (siteAt options table code n) d.name c = .ok (some v, c) ∧ c.store.get? v = some e ∧
          e.home = some (frameWord offset)) ∧
        arrayPlace (siteAt options table code n) d.name c = .ok (.pointer, c)) ∧
      ∀ d offset, (d, offset) ∈ placeLocals b.layout 0 b.function.locals → d.isArray = true →
        arrayPlace (siteAt options table code n) d.name c = .ok (.frame offset, c)) ∧
    ∀ st, stateAt options table code (n + 1) = .ok st →
      ∃ ls, st.out.lines.toList = b.out.lines.toList ++ ls ∧
        ∀ l ∈ ls, ∀ m, l.global? = some m → m ∈ (b.function.params ++ b.function.locals).map Decl.name →
          isGlobalScalar table m = true ∧ (∃ d ∈ b.function.locals, d.isArray = true ∧ d.name = m) ∧
          (TouchedBefore instrs n m ∨ ∃ x, instrs[n]? = some x ∧ m ∈ x.scalars) := by
  have names := stateAt_names built decoded reached
  refine ⟨fun c midway => ⟨fun d offset placed => ?_, fun d offset placed array => ?_⟩, fun st accepted => ?_⟩
  · have member := mem_scalarPlaces.mpr placed
    have declared : d.name ∈ (scalarDecls b.function).map Decl.name := by
      rw [← map_scalarPlaces b.layout b.function]
      exact List.mem_map_of_mem (List.mem_map_of_mem member)
    have hidden := midway.hidden (stateAt_hidden_scalar names decoded reached declared) rfl
    have word := word_declared names member
    exact ⟨hidden.resolve? (congrArg some word), hidden.arrayPlace rfl⟩
  · obtain ⟨j, placed⟩ := List.mem_iff_getElem?.mp placed
    have arranged : b.arrays = arrayPlaces b.layout b.function := stateAt_arranged reached
    have consistent : (State.inside b).Consistent := stateAt_consistent reached
    have frame := midway.frame consistent.1
    refine arrayPlace_of_frame ?_
    rw [frame.arrays, arranged]
    exact arrayPlaces_lookup names array placed
  · obtain ⟨st', ls, before, lines, _⟩ := stateAt_lines decoded accepted
    cases reached.symm.trans before
    exact ⟨ls, lines, fun l member m global declared =>
      stateAt_exposed names decoded reached accepted lines ⟨l, member, global⟩ declared⟩

end Runs

def shadowingFunction : Symbol :=
  { name := "f", kind := .function, params := [{ name := "p" }]
    locals := [{ name := "a", size := 8, isArray := true }, { name := "x" }] }

/-- The parameter and the local array have the names of global scalars. -/
def shadowingSymbols : List Symbol :=
  [{ name := "p" }, { name := "a" }, shadowingFunction]

def shadowingCode : List Quad :=
  Quad.numberedFrom 0 [
    { op := "label", arg1 := "func_f" },
    { op := "=[]", arg1 := "a", arg2 := "p", res := "x" },
    { op := "return", arg1 := "x" },
    { op := "label", arg1 := "end_f" }]

theorem declarations_shadow_element :
    ∃ b c st ls, stateAt {} ⟨shadowingSymbols⟩ shadowingCode 1 = .ok (.inside b) ∧
      Midway (siteAt {} ⟨shadowingSymbols⟩ shadowingCode 1) b c ∧
      (∃ v e, resolve? (siteAt {} ⟨shadowingSymbols⟩ shadowingCode 1) "p" c = .ok (some v, c) ∧
        c.store.get? v = some e ∧ e.home = some (frameWord 32)) ∧
      arrayPlace (siteAt {} ⟨shadowingSymbols⟩ shadowingCode 1) "a" c = .ok (.frame 0, c) ∧
      stateAt {} ⟨shadowingSymbols⟩ shadowingCode 2 = .ok st ∧ st.out.lines.toList = b.out.lines.toList ++ ls ∧
      ∀ l ∈ ls, l.global? ≠ some "p" ∧ l.global? ≠ some "a" := by
  have built : Scope.insertAll {} shadowingSymbols = .ok ⟨shadowingSymbols⟩ := by rfl
  have decoded : decodeFrom 0 shadowingCode = .ok [.label ⟨"func_f", .entry "f"⟩, .load "a" (.variable "p") "x",
      .ret (some (.variable "x")), .label ⟨"end_f", .exit "f"⟩] :=
    eq_ok_of_toOption (by decide +kernel)
  have before : insideWith (fun b => b.function = shadowingFunction && b.layout = ⟨"f", true, 8, 0, 7, 0, 0⟩)
      (stateAt {} ⟨shadowingSymbols⟩ shadowingCode 1) = true := by
    decide +kernel
  have after : insideWith (fun _ => true) (stateAt {} ⟨shadowingSymbols⟩ shadowingCode 2) = true := by
    decide +kernel
  obtain ⟨b, reached, checked⟩ := exists_of_insideWith before
  obtain ⟨d, accepted, _⟩ := exists_of_insideWith after
  simp only [Bool.and_eq_true, decide_eq_true_eq] at checked
  obtain ⟨resolves, avoids⟩ := declarations_shadow built decoded reached
  obtain ⟨scalars, arrays⟩ := resolves _ .start
  obtain ⟨ls, lines, clean⟩ := avoids _ accepted
  rw [checked.1] at clean
  refine ⟨b, _, _, ls, reached, .start,
    (scalars { name := "p" } 32 (.inl (by rw [checked.1, checked.2]; decide))).1,
    arrays { name := "a", size := 8, isArray := true } 0 (by rw [checked.1, checked.2]; decide) rfl, accepted, lines,
    fun l member => ⟨fun refers => ?_, fun refers => ?_⟩⟩
  · obtain ⟨_, exposed, _⟩ := clean l member "p" refers (by decide)
    exact absurd exposed (by decide)
  · obtain ⟨_, _, touched⟩ := clean l member "a" refers (by decide)
    rcases touched with ⟨k, x, first, found, named, _⟩ | ⟨x, found, named⟩
    · obtain rfl : k = 0 := by omega
      cases found
      exact absurd named (by decide)
    · cases found
      exact absurd named (by decide)

/-- An array is loaded as a scalar. -/
def exposingCode : List Quad :=
  Quad.numberedFrom 0 [
    { op := "label", arg1 := "func_f" },
    { op := "+", arg1 := "a", arg2 := "1", res := "x" },
    { op := "return", arg1 := "x" },
    { op := "label", arg1 := "end_f" }]

/-- The global variable of the name of a local array is loaded. -/
theorem array_exposes_global :
    (compile {} ⟨shadowingSymbols⟩ exposingCode).toOption.any (Line.instr (.lw (.pool 0) (.global "a")) ∈ ·.lines) =
      true := by
  decide +kernel

end ThreeAddress.Codegen

