import ThreeAddress.Proofs.Positions
import ThreeAddress.Proofs.Renaming

/-! The listing does not depend on how temporaries are spelled: generators of a program and of the same
program in another spelling go through states that differ in the spelling only. -/
namespace ThreeAddress.Codegen

open Asm (Line Listing Mem)
open Descriptor (Store Var Entry)

variable {ρ : String → String} {site : Site}

/-! States in two spellings -/

def Needs.rename (ρ : String → String) (n : Needs) : Needs := ⟨n.other.map ρ, n.res.map ρ⟩

def Site.rename (ρ : String → String) (site : Site) : Site :=
  { site with rest := site.rest.map (Quad.rename ρ) }

/-- The second generator is the first one in the other spelling. Both have produced the same lines. -/
structure Renamed (ρ : String → String) (b c : Body) : Prop where
  lines : c.out.lines = b.out.lines
  function : c.function = b.function
  layout : c.layout = b.layout
  store : c.store = b.store.rename ρ
  arrays : c.arrays = b.arrays
  arrayNames : ∀ x ∈ b.arrays, ρ x.1 = x.1
  spare : c.spare = { b.spare with owners := b.spare.owners.map ρ }
  pending : c.pending = b.pending.map (Operand.rename ρ)
  returned : c.returned = b.returned
  reserved : c.reserved = b.reserved

theorem lookup_rename {table : Scope} (respells : Respells ρ table) (name : String) :
    table.lookup (ρ name) = table.lookup name := by
  have same : ∀ s ∈ table.symbols, decide (s.name = ρ name) = decide (s.name = name) := by
    intro s declared
    rw [decide_eq_decide, ← respells.same s.name name, respells.symbol s declared]
  unfold Scope.lookup
  revert same
  induction table.symbols with
  | nil => exact fun _ => rfl
  | cons s symbols ih =>
    intro same
    rw [List.find?_cons, List.find?_cons, same s (List.mem_cons_self ..),
      ih fun t member => same t (List.mem_cons_of_mem s member)]

theorem rename_of_lookup {table : Scope} (respells : Respells ρ table) {name : String} {s : Symbol}
    (found : table.lookup name = some s) : ρ name = name := by
  have named : s.name = name := by simpa using List.find?_some found
  rw [← named]
  exact respells.symbol s (List.mem_of_find?_eq_some found)

namespace Renamed

variable {b c : Body}

theorem laterUse (respells : Respells ρ site.table) (renamed : Renamed ρ b c) (name : String) :
    laterUse (site.rename ρ) c (ρ name) = Codegen.laterUse site b name := by
  unfold Codegen.laterUse
  rw [renamed.pending]
  exact usedLater_rename respells b.pending site.rest name

theorem lookup (respells : Respells ρ site.table) (renamed : Renamed ρ b c) (name : String) :
    c.store.lookup (ρ name) = b.store.lookup name := by
  rw [renamed.store, Store.lookup_rename b.store respells.injective]

theorem push (renamed : Renamed ρ b c) (l : Line) :
    Renamed ρ { b with out := b.out.push l } { c with out := c.out.push l } :=
  { renamed with lines := congrArg (·.push l) renamed.lines }

theorem withStore (renamed : Renamed ρ b c) (s : Store Mem) :
    Renamed ρ { b with store := s } { c with store := s.rename ρ } :=
  { renamed with store := rfl }

end Renamed

namespace InStep

theorem emitsRenamed (is : List Asm.Instr) : InStep (Renamed ρ) Eq (emitAll is) (emitAll is) :=
  emits (fun _ _ l renamed => renamed.push l) is

theorem emitsOne (i : Asm.Instr) : InStep (Renamed ρ) Eq (emitInstr i) (emitInstr i) :=
  changes fun _ _ renamed => renamed.push _

theorem changesStore {f g : Store Mem → Store Mem} (same : ∀ s, g (s.rename ρ) = (f s).rename ρ) :
    InStep (Renamed ρ) Eq (modifyStore f) (modifyStore g) := by
  apply changes
  intro b c renamed
  rw [renamed.store, same]
  exact renamed.withStore _

theorem reserves (r : Reg) : InStep (Renamed ρ) Eq (reserve r) (reserve r) :=
  changes fun _ _ renamed => { renamed with reserved := congrArg (r :: ·) renamed.reserved }

theorem finds (v : Var) : InStep (Renamed ρ) (fun e f => f = e.rename ρ) (entryOf v) (entryOf v) := by
  apply reads
  intro b c renamed
  rw [renamed.store, Store.get?_rename]
  cases b.store.get? v with
  | some e => exact returns rfl
  | none => exact fails rfl rfl

theorem reports {c d : Cause} (kind : d.kind = c.kind) (inner : c.kind.isInner = true) :
    InStep (Renamed ρ) Eq (unresolved site c) (unresolved (site.rename ρ) d) := by
  apply ite Iff.rfl
  · exact fails kind inner
  · exact changes fun _ _ renamed => { renamed with lines := renamed.lines }

end InStep

/-! Allocation -/

theorem overwrites_rename (one : Function.Injective ρ) (needs : Needs) (name : String) :
    (needs.rename ρ).overwrites (ρ name) = needs.overwrites name := by
  have same (x : Option String) : x.map ρ = some (ρ name) ↔ x = some name := by
    cases x with
    | none => simp
    | some s => simpa using ⟨fun same => one same, congrArg ρ⟩
  simp only [Needs.overwrites, Needs.rename, ne_eq, same]

theorem entryCost_rename (one : Function.Injective ρ) {later later' : String → Bool}
    (uses : ∀ name, later' (ρ name) = later name) (needs : Needs) (r : Reg) (e : Entry Mem) :
    entryCost later' (needs.rename ρ) r (e.rename ρ) = entryCost later needs r e := by
  have other : needs.other.map ρ = some (ρ e.name) ↔ needs.other = some e.name := by
    cases needs.other with
    | none => simp
    | some s => simpa using ⟨fun same => one same, congrArg ρ⟩
  have overwrites := overwrites_rename one needs e.name
  unfold entryCost
  simp only [Entry.rename, overwrites, uses]
  simp only [Needs.rename, ne_eq, other]
  rfl

theorem resolve?_renamed (respells : Respells ρ site.table) (name : String) :
    InStep (Renamed ρ) Eq (resolve? site name) (resolve? (site.rename ρ) (ρ name)) := by
  apply InStep.reads
  intro b c renamed
  rw [renamed.lookup respells]
  cases b.store.lookup name with
  | some v => exact .returns rfl
  | none =>
    have declared : (site.rename ρ).table.lookup (ρ name) = site.table.lookup name :=
      lookup_rename respells name
    dsimp only
    rw [declared]
    cases found : site.table.lookup name with
    | none => exact .returns rfl
    | some s =>
      apply InStep.ite Iff.rfl
      · apply InStep.reads
        intro b c renamed
        rw [renamed.store, rename_of_lookup respells found]
        have same := Store.declare_rename b.store respells.injective name (some (Mem.global name))
        rw [rename_of_lookup respells found] at same
        rw [same]
        refine .bind (.changesStore fun _ => rfl) fun _ _ _ => .returns rfl
      · exact .returns rfl

theorem storeTo_renamed (r : Reg) (v : Var) (home : Mem) :
    InStep (Renamed ρ) Eq (storeTo r v home) (storeTo r v home) :=
  .bind (.emitsOne _) fun _ _ _ => .changesStore fun s => Store.markStored_rename s v

theorem heldEntries_renamed (r : Reg) :
    InStep (Renamed ρ) (fun xs ys => ys = xs.map (Prod.map id (Entry.rename ρ))) (heldEntries r)
      (heldEntries r) := by
  apply InStep.reads
  intro b c renamed
  rw [renamed.store, Store.held_rename]
  refine .mapM (fun v => ?_) _
  refine .bind (.finds v) ?_
  rintro e _ rfl
  exact .returns rfl

theorem spillCost_renamed (respells : Respells ρ site.table) (needs : Needs) (r : Reg) :
    InStep (Renamed ρ) Eq (spillCost site needs r) (spillCost (site.rename ρ) (needs.rename ρ) r) := by
  apply InStep.bind (heldEntries_renamed r)
  rintro xs _ rfl
  apply InStep.reads
  intro b c renamed
  apply InStep.returns
  have costs := entryCost_rename respells.injective (renamed.laterUse respells) needs r
  simp only [List.mapM_map, Function.comp_def, Prod.map, costs]

theorem spill_renamed (respells : Respells ρ site.table) (needs : Needs) (r : Reg) :
    InStep (Renamed ρ) Eq (spill needs r) (spill (needs.rename ρ) r) := by
  apply InStep.bind (heldEntries_renamed r)
  rintro xs _ rfl
  refine .bind (.forM_map (fun x => ?_) xs) fun _ _ _ => .changesStore fun s => Store.clearRegister_rename s r
  obtain ⟨v, e⟩ := x
  have overwrites := overwrites_rename respells.injective needs e.name
  simp only [Prod.map, Entry.rename, overwrites]
  cases e.home with
  | none => exact .returns rfl
  | some home => exact .ite Iff.rfl (storeTo_renamed r v home) (.returns rfl)

theorem Renamed.candidates {b c : Body} (renamed : Renamed ρ b c) :
    Codegen.candidates c = Codegen.candidates b := by
  simp only [Codegen.candidates, renamed.store, renamed.reserved]
  rfl

theorem seize_renamed (respells : Respells ρ site.table) (name : String) (needs : Needs) :
    InStep (Renamed ρ) Eq (seize site name needs) (seize (site.rename ρ) (ρ name) (needs.rename ρ)) := by
  apply InStep.reads
  intro b c renamed
  rw [renamed.candidates]
  refine .bind (.mapM (h := id) (fun r => ?_) _) ?_
  · refine .bind (spillCost_renamed respells needs r) ?_
    rintro cost _ rfl
    exact .returns rfl
  · rintro costs _ rfl
    rw [List.map_id]
    split
    · exact .fails rfl rfl
    · exact .fails rfl rfl
    · exact .bind (spill_renamed respells needs _) fun _ _ _ => .returns rfl

theorem residence?_renamed (respells : Respells ρ site.table) (name : String) :
    InStep (Renamed ρ) Eq (residence? site name) (residence? (site.rename ρ) (ρ name)) := by
  apply InStep.bind (resolve?_renamed respells name)
  rintro found _ rfl
  cases found with
  | none => exact .returns rfl
  | some v =>
    refine .bind (.finds v) ?_
    rintro e _ rfl
    exact .returns rfl

theorem acquire_renamed (respells : Respells ρ site.table) (name : String) (needs : Needs) :
    InStep (Renamed ρ) Eq (acquire site name needs) (acquire (site.rename ρ) (ρ name) (needs.rename ρ)) := by
  have finish (r : Reg) : InStep (Renamed ρ) Eq (do reserve r; pure r) (do reserve r; pure r) :=
    .bind (.reserves r) fun _ _ _ => .returns rfl
  apply InStep.bind (residence?_renamed respells name)
  rintro found _ rfl
  cases found with
  | some r => exact finish r
  | none =>
    apply InStep.reads
    intro b c renamed
    have free : freeRegister? c = freeRegister? b := by
      simp only [freeRegister?, renamed.candidates, renamed.store]
      rfl
    rw [free]
    cases freeRegister? b with
    | some r => exact finish r
    | none =>
      refine .bind (seize_renamed respells name needs) ?_
      rintro r _ rfl
      exact finish r

theorem ensureLoaded_renamed (respells : Respells ρ site.table) (name : String) (r : Reg) :
    InStep (Renamed ρ) Eq (ensureLoaded site name r) (ensureLoaded (site.rename ρ) (ρ name) r) := by
  apply InStep.bind (resolve?_renamed respells name)
  rintro found _ rfl
  cases found with
  | none => exact .reports rfl rfl
  | some v =>
    refine .bind (.finds v) ?_
    rintro e _ rfl
    apply InStep.ite Iff.rfl (.returns rfl)
    have register : (e.rename ρ).register? = e.register? := rfl
    rw [register]
    cases e.register? with
    | some q => exact .bind (.emitsOne _) fun _ _ _ => .changesStore fun s => Store.bind_rename s r v
    | none =>
      have home : (if (e.rename ρ).homeValid = true then (e.rename ρ).home else none) =
          if e.homeValid = true then e.home else none := rfl
      dsimp only
      rw [home]
      cases (if e.homeValid = true then e.home else none) with
      | none => exact .reports rfl rfl
      | some home =>
        exact .bind (.emitsRenamed _) fun _ _ _ => .changesStore fun s => Store.bind_rename s r v

theorem loaded_renamed (respells : Respells ρ site.table) (name : String) (needs : Needs) :
    InStep (Renamed ρ) Eq (loaded site name needs) (loaded (site.rename ρ) (ρ name) (needs.rename ρ)) := by
  apply InStep.bind (acquire_renamed respells name needs)
  rintro r _ rfl
  exact .bind (ensureLoaded_renamed respells name r) fun _ _ _ => .returns rfl

theorem operand_renamed (respells : Respells ρ site.table) (x : Operand) (needs : Needs)
    (scratch : MachineReg) : InStep (Renamed ρ) Eq (operand site x needs scratch)
      (operand (site.rename ρ) (x.rename ρ) (needs.rename ρ) scratch) := by
  cases x with
  | literal n => exact .ite Iff.rfl (.returns rfl) (.bind (.emitsRenamed _) fun _ _ _ => .returns rfl)
  | «variable» name =>
    refine .bind (loaded_renamed respells name needs) ?_
    rintro r _ rfl
    exact .returns rfl

theorem commit_renamed (respells : Respells ρ site.table) (r : Reg) (name : String) :
    InStep (Renamed ρ) Eq (commit site r name) (commit (site.rename ρ) r (ρ name)) := by
  apply InStep.bind (resolve?_renamed respells name)
  rintro found _ rfl
  cases found with
  | some v => exact .bind (.finds v) fun _ _ _ => .changesStore fun s => Store.commit_rename s r v
  | none =>
    apply InStep.changesStore
    intro s
    rw [Store.intern_rename s respells.injective]
    exact Store.commit_rename _ r _

theorem copyTo_renamed (respells : Respells ρ site.table) (dst : MachineReg) (x : Operand) :
    InStep (Renamed ρ) Eq (copyTo site dst x) (copyTo (site.rename ρ) dst (x.rename ρ)) := by
  cases x with
  | literal n => exact .emitsRenamed _
  | «variable» name =>
    apply InStep.bind (resolve?_renamed respells name)
    rintro found _ rfl
    cases found with
    | none => exact .reports rfl rfl
    | some v =>
      refine .bind (.finds v) ?_
      rintro e _ rfl
      have register : (e.rename ρ).register? = e.register? := rfl
      rw [register]
      cases e.register? with
      | some q => exact .emitsOne _
      | none =>
        have home : (if (e.rename ρ).homeValid = true then (e.rename ρ).home else none) =
            if e.homeValid = true then e.home else none := rfl
        dsimp only
        rw [home]
        cases (if e.homeValid = true then e.home else none) with
        | none => exact .reports rfl rfl
        | some home => exact .emitsRenamed _

theorem writeBack_renamed : InStep (Renamed ρ) Eq writeBack writeBack := by
  apply InStep.reads
  intro b c renamed
  rw [renamed.store, Store.live_rename]
  refine .forM (fun v => ?_) _
  refine .bind (.finds v) ?_
  rintro ⟨name, home, regs, valid, forgotten⟩ _ rfl
  dsimp only [Entry.rename, Entry.register?]
  split
  · exact .ite Iff.rfl (.returns rfl) (storeTo_renamed _ v _)
  · exact .returns rfl

theorem flush_renamed : InStep (Renamed ρ) Eq flush flush :=
  .bind writeBack_renamed fun _ _ _ => .changesStore Store.clearAll_rename

theorem evictHomed_renamed : InStep (Renamed ρ) Eq evictHomed evictHomed := by
  apply InStep.reads
  intro b c renamed
  rw [renamed.store, Store.live_rename]
  refine .forM (fun v => ?_) _
  refine .bind (.finds v) ?_
  rintro e _ rfl
  apply InStep.ite Iff.rfl
  · apply InStep.changesStore
    exact fun s => List.foldl_hom (Store.rename ρ) fun s r => Store.unbind_rename s r v
  · exact .returns rfl

/-! Instructions inside of a block -/

theorem emits_commit_renamed (respells : Respells ρ site.table) (is : List Asm.Instr) (r : Reg)
    (res : String) : InStep (Renamed ρ) Eq (do emitAll is; commit site r res)
      (do emitAll is; commit (site.rename ρ) r (ρ res)) :=
  .bind (.emitsRenamed is) fun _ _ _ => commit_renamed respells r res

theorem shared?_rename (one : Function.Injective ρ) (x : Operand) (y : MachineReg) (res : String) :
    shared? (x.rename ρ) y (ρ res) = shared? x y res := by
  cases x with
  | literal n => rfl
  | «variable» name =>
    have same : ρ name = ρ res ↔ name = res := ⟨fun same => one same, congrArg ρ⟩
    cases y <;> simp only [shared?, Operand.rename, same]

theorem binary_renamed (respells : Respells ρ site.table) (op : BinaryOp) (left right : Operand)
    (res : String) : InStep (Renamed ρ) Eq (binary site op left right res)
      (binary (site.rename ρ) op (left.rename ρ) (right.rename ρ) (ρ res)) := by
  unfold binary
  rw [Operand.name?_rename, Operand.name?_rename]
  apply InStep.bind ((operand_renamed respells left ⟨right.name?, some res⟩ _).within _)
  rintro y _ rfl
  apply InStep.bind ((operand_renamed respells right ⟨left.name?, some res⟩ _).within _)
  rintro z _ rfl
  rw [shared?_rename respells.injective, shared?_rename respells.injective]
  split
  · exact emits_commit_renamed respells _ _ res
  · exact emits_commit_renamed respells _ _ res
  · apply InStep.bind ((acquire_renamed respells res ⟨none, some res⟩).within _)
    rintro r _ rfl
    exact emits_commit_renamed respells _ r res

theorem unary_renamed (respells : Respells ρ site.table) (op : UnaryOp) (x : Operand) (res : String) :
    InStep (Renamed ρ) Eq (unary site op x res) (unary (site.rename ρ) op (x.rename ρ) (ρ res)) := by
  unfold unary
  rw [Operand.name?_rename]
  apply InStep.bind (operand_renamed respells x ⟨none, some res⟩ _)
  rintro y _ rfl
  rw [shared?_rename respells.injective]
  split
  · exact emits_commit_renamed respells _ _ res
  · apply InStep.bind ((acquire_renamed respells res ⟨x.name?, some res⟩).within _)
    rintro r _ rfl
    exact emits_commit_renamed respells _ r res

theorem immediate_renamed (respells : Respells ρ site.table) (n : Int) (res : String) :
    InStep (Renamed ρ) Eq (immediate site n res) (immediate (site.rename ρ) n (ρ res)) := by
  apply InStep.bind (acquire_renamed respells res ⟨none, some res⟩)
  rintro r _ rfl
  exact emits_commit_renamed respells _ r res

theorem copy_renamed (respells : Respells ρ site.table) (src res : String) :
    InStep (Renamed ρ) Eq (copy site src res) (copy (site.rename ρ) (ρ src) (ρ res)) := by
  apply InStep.ite (respells.same src res) (.returns rfl)
  apply InStep.bind (loaded_renamed respells src ⟨none, some res⟩)
  rintro y _ rfl
  apply InStep.bind ((acquire_renamed respells res ⟨some src, some res⟩).within _)
  rintro r _ rfl
  exact .bind (.emitsOne _) fun _ _ _ => commit_renamed respells r res

theorem Renamed.place {b c : Body} (respells : Respells ρ site.table) (renamed : Renamed ρ b c)
    (name : String) : c.arrays.lookup (ρ name) = b.arrays.lookup name := by
  rw [renamed.arrays]
  have names := renamed.arrayNames
  revert names
  induction b.arrays with
  | nil => exact fun _ => rfl
  | cons x arrays ih =>
    intro names
    have same : (ρ name == x.1) = (name == x.1) := by
      rw [Bool.eq_iff_iff, beq_iff_eq, beq_iff_eq, ← respells.same name x.1,
        names x (List.mem_cons_self ..)]
    rw [List.lookup_cons, List.lookup_cons, same,
      ih fun y member => names y (List.mem_cons_of_mem x member)]

theorem Renamed.rename_of_place {b c : Body} (renamed : Renamed ρ b c) {name : String} {place : ArrayPlace}
    (found : b.arrays.lookup name = some place) : ρ name = name := by
  obtain ⟨_, _, split, _⟩ := List.lookup_eq_some_iff.mp found
  exact renamed.arrayNames (name, place) (by simp [split])

/-- An array whose elements are addressed by its name has one spelling. -/
theorem arrayPlace_renamed (respells : Respells ρ site.table) (array : String) :
    InStep (Renamed ρ) (fun p q => q = p ∧ (p = .global → ρ array = array))
      (arrayPlace site array) (arrayPlace (site.rename ρ) (ρ array)) := by
  apply InStep.reads
  intro b c renamed
  have declared : (site.rename ρ).table.lookup (ρ array) = site.table.lookup array :=
    lookup_rename respells array
  rw [renamed.place respells, renamed.lookup respells, declared]
  cases place : b.arrays.lookup array with
  | some place' => exact .returns ⟨rfl, fun _ => renamed.rename_of_place place⟩
  | none =>
    cases b.store.lookup array with
    | some v => exact .returns ⟨rfl, nofun⟩
    | none =>
      cases found : site.table.lookup array with
      | none => exact .fails rfl rfl
      | some s =>
        apply InStep.ite Iff.rfl
        · exact .returns ⟨rfl, nofun⟩
        · apply InStep.ite Iff.rfl
          · exact .returns ⟨rfl, fun _ => rename_of_lookup respells found⟩
          · exact .fails rfl rfl

theorem element_renamed (respells : Respells ρ site.table) (array : String) (index : Operand)
    (needs : Needs) : InStep (Renamed ρ) Eq (element site array index needs)
      (element (site.rename ρ) (ρ array) (index.rename ρ) (needs.rename ρ)) := by
  unfold element
  rw [Operand.name?_rename]
  apply InStep.bind ((operand_renamed respells index needs _).within _)
  rintro i _ rfl
  refine .bind (.emitsOne _) fun _ _ _ => .bind (arrayPlace_renamed respells array) ?_
  rintro _ place ⟨rfl, spelled⟩
  cases place with
  | global =>
    rw [spelled rfl]
    exact .returns rfl
  | frame offset => exact .bind (.emitsOne _) fun _ _ _ => .returns rfl
  | pointer =>
    apply InStep.bind ((loaded_renamed respells array ⟨index.name?, needs.res⟩).within _)
    rintro base _ rfl
    exact .bind (.emitsOne _) fun _ _ _ => .returns rfl

theorem loadElement_renamed (respells : Respells ρ site.table) (array : String) (index : Operand)
    (res : String) : InStep (Renamed ρ) Eq (loadElement site array index res)
      (loadElement (site.rename ρ) (ρ array) (index.rename ρ) (ρ res)) := by
  apply InStep.bind (element_renamed respells array index ⟨none, some res⟩)
  rintro mem _ rfl
  apply InStep.bind ((acquire_renamed respells res ⟨none, some res⟩).within _)
  rintro r _ rfl
  exact emits_commit_renamed respells _ r res

theorem storeElement_renamed (respells : Respells ρ site.table) (array : String) (index value : Operand) :
    InStep (Renamed ρ) Eq (storeElement site array index value)
      (storeElement (site.rename ρ) (ρ array) (index.rename ρ) (value.rename ρ)) := by
  unfold storeElement
  rw [Operand.name?_rename, Operand.name?_rename]
  apply InStep.bind (element_renamed respells array index ⟨value.name?, none⟩)
  rintro mem _ rfl
  apply InStep.bind ((operand_renamed respells value ⟨index.name?, none⟩ _).within _)
  rintro x _ rfl
  exact .emitsOne _

theorem loadIndirect_renamed (respells : Respells ρ site.table) (pointer res : String) :
    InStep (Renamed ρ) Eq (loadIndirect site pointer res)
      (loadIndirect (site.rename ρ) (ρ pointer) (ρ res)) := by
  apply InStep.bind ((loaded_renamed respells pointer ⟨none, some res⟩).within _)
  rintro p _ rfl
  apply InStep.bind ((acquire_renamed respells res ⟨some pointer, some res⟩).within _)
  rintro r _ rfl
  exact emits_commit_renamed respells _ r res

theorem storeIndirect_renamed (respells : Respells ρ site.table) (pointer : String) (value : Operand) :
    InStep (Renamed ρ) Eq (storeIndirect site pointer value)
      (storeIndirect (site.rename ρ) (ρ pointer) (value.rename ρ)) := by
  unfold storeIndirect
  rw [Operand.name?_rename]
  apply InStep.bind ((loaded_renamed respells pointer ⟨value.name?, none⟩).within _)
  rintro p _ rfl
  apply InStep.bind ((operand_renamed respells value ⟨some pointer, none⟩ _).within _)
  rintro x _ rfl
  exact .emitsOne _

theorem enqueue_renamed (x : Operand) : InStep (Renamed ρ) Eq (enqueue x) (enqueue (x.rename ρ)) :=
  .changes fun _ _ renamed => { renamed with pending := by simp [renamed.pending] }

theorem straight_renamed {x y : Step Unit} (inStep : InStep (Renamed ρ) Eq x y) :
    InStep (Renamed ρ) Eq (straight site x) (straight (site.rename ρ) y) := by
  apply InStep.bind inStep
  rintro _ _ _
  exact .ite Iff.rfl (.bind writeBack_renamed fun _ _ _ => evictHomed_renamed) (.returns rfl)

/-! Jumps and returns -/

theorem branch_renamed (respells : Respells ρ site.table) (cond : Operand) (ifTrue : Bool)
    (target : String) : InStep (Renamed ρ) Eq (branch site cond ifTrue target)
      (branch (site.rename ρ) (cond.rename ρ) ifTrue target) := by
  apply InStep.bind (operand_renamed respells cond {} _)
  rintro c _ rfl
  exact .bind flush_renamed fun _ _ _ => .emitsRenamed _

theorem jump_renamed (target : String) :
    InStep (Renamed ρ) Eq (jump site target) (jump (site.rename ρ) target) :=
  .bind flush_renamed fun _ _ _ => .emitsRenamed _

theorem leave_renamed (site : Site) : InStep (Renamed ρ) Eq (leave site) (leave (site.rename ρ)) := by
  apply InStep.bind flush_renamed
  rintro _ _ _
  apply InStep.reads
  intro b c renamed
  rw [renamed.returned, renamed.layout]
  exact .ite Iff.rfl (.returns rfl) (.emitsRenamed _)

theorem ret_renamed (respells : Respells ρ site.table) (x : Option Operand) :
    InStep (Renamed ρ) Eq (ret site x) (ret (site.rename ρ) (x.map (Operand.rename ρ))) := by
  have finish : InStep (Renamed ρ) Eq
      (do
        flush
        emitAll (epilogue site.options (← get).layout)
        modify fun b => { b with returned := true })
      (do
        flush
        emitAll (epilogue site.options (← get).layout)
        modify fun b => { b with returned := true }) := by
    apply InStep.bind flush_renamed
    rintro _ _ _
    apply InStep.reads
    intro b c renamed
    rw [renamed.layout]
    refine .bind (.emitsRenamed _) fun _ _ _ => .changes fun _ _ renamed => ?_
    exact { renamed with returned := rfl }
  cases x with
  | none => exact finish
  | some x => exact .bind (copyTo_renamed respells .result x) fun _ _ _ => finish

/-! Calls -/

theorem passArgument_renamed (respells : Respells ρ site.table) (i : Nat) (x : Operand) :
    InStep (Renamed ρ) Eq (passArgument site i x) (passArgument (site.rename ρ) i (x.rename ρ)) := by
  unfold passArgument
  cases MachineReg.argument? i with
  | some dst => exact copyTo_renamed respells dst x
  | none =>
    apply InStep.reads
    intro b c renamed
    rw [renamed.layout]
    have stored (slot : Mem) : InStep (Renamed ρ) Eq
        (do copyTo site .address x; emitInstr (.sw .address slot))
        (do copyTo (site.rename ρ) .address (x.rename ρ); emitInstr (.sw .address slot)) :=
      .bind (copyTo_renamed respells .address x) fun _ _ _ => .emitsOne _
    cases x with
    | literal n => exact stored _
    | «variable» name =>
      apply InStep.bind (residence?_renamed respells name)
      rintro found _ rfl
      cases found with
      | some r => exact .emitsOne _
      | none => exact stored _

theorem passArguments_renamed (respells : Respells ρ site.table) (start : Nat) (xs : List Operand) :
    InStep (Renamed ρ) Eq (passArguments site start xs)
      (passArguments (site.rename ρ) start (xs.map (Operand.rename ρ))) := by
  induction xs generalizing start with
  | nil => exact .returns rfl
  | cons x xs ih =>
    exact .bind ((passArgument_renamed respells start x).within _) fun _ _ _ => ih (start + 1)

theorem spareWord?_renamed (respells : Respells ρ site.table) (name : String) :
    InStep (Renamed ρ) Eq (spareWord? site name) (spareWord? (site.rename ρ) (ρ name)) := by
  apply InStep.reads
  intro b c renamed
  rw [renamed.spare, renamed.layout]
  dsimp only
  rw [List.findIdx?_map, List.length_map]
  have unused : ((fun owner => !laterUse (site.rename ρ) c owner) ∘ ρ) = fun owner => !laterUse site b owner :=
    funext fun owner => congrArg (!·) (renamed.laterUse respells owner)
  rw [unused]
  cases b.spare.owners.findIdx? fun owner => !laterUse site b owner with
  | some i =>
    have owner : ((b.spare.owners.map ρ)[i]?).bind c.store.lookup =
        (b.spare.owners[i]?).bind b.store.lookup := by
      rw [List.getElem?_map]
      cases b.spare.owners[i]? with
      | none => rfl
      | some owner => exact renamed.lookup respells owner
    dsimp only
    rw [owner]
    have takes : InStep (Renamed ρ) Eq
        (do
          modify fun b' => { b' with spare := { b.spare with owners := b.spare.owners.set i name } }
          pure (some (frameWord (b.layout.localOffset (b.spare.first + Int64.ofNat i)))))
        (do
          modify fun c' =>
            { c' with spare := { b.spare with owners := (b.spare.owners.map ρ).set i (ρ name) } }
          pure (some (frameWord (b.layout.localOffset (b.spare.first + Int64.ofNat i))))) := by
      refine .bind (.changes fun _ _ renamed => ?_) fun _ _ _ => .returns rfl
      exact { renamed with spare := by simp [List.map_set] }
    cases (b.spare.owners[i]?).bind b.store.lookup with
    | none => exact takes
    | some v => exact .bind (.changesStore fun s => Store.drop_rename s v) fun _ _ _ => takes
  | none =>
    apply InStep.ite Iff.rfl
    · refine .bind (.changes fun _ _ renamed => ?_) fun _ _ _ => .returns rfl
      exact { renamed with spare := by simp }
    · exact .returns rfl

theorem keep_renamed (respells : Respells ρ site.table) (r : Reg) :
    InStep (Renamed ρ) Eq (keep site r) (keep (site.rename ρ) r) := by
  apply InStep.reads
  intro b c renamed
  have holder : c.store.holder? r = b.store.holder? r := by
    rw [renamed.store]
    rfl
  rw [holder]
  cases b.store.holder? r with
  | none => exact .returns rfl
  | some v =>
    refine .bind (.finds v) ?_
    rintro e _ rfl
    apply InStep.reads
    intro b c renamed
    refine .ite ?_ (.returns rfl) ?_
    · rw [Entry.rename, renamed.laterUse respells]
    apply InStep.reads
    intro b c renamed
    have free : freeSaved? c = freeSaved? b := by
      simp only [freeSaved?, renamed.store, renamed.reserved]
      rfl
    rw [free]
    cases freeSaved? b with
    | some s =>
      refine .bind (.emitsOne _) fun _ _ _ => ?_
      exact .bind (.changesStore fun t => Store.bind_rename t s v) fun _ _ _ => .reserves s
    | none =>
      apply InStep.bind (spareWord?_renamed respells e.name)
      rintro word _ rfl
      cases word with
      | none => exact .fails rfl rfl
      | some home =>
        refine .bind (.emitsOne _) fun _ _ _ => .changesStore fun t => ?_
        exact congrArg Prod.snd (Store.declare_rename t respells.injective e.name (some home))

theorem forget_renamed (r : Reg) : InStep (Renamed ρ) Eq (forget r) (forget r) := by
  have clears (changed : Bool) : InStep (Renamed ρ) Eq
      (if r.isTemporary || changed then modifyStore (·.clearRegister r) else pure ())
      (if r.isTemporary || changed then modifyStore (·.clearRegister r) else pure ()) :=
    .ite Iff.rfl (.changesStore fun s => Store.clearRegister_rename s r) (.returns rfl)
  apply InStep.reads
  intro b c renamed
  have holder : c.store.holder? r = b.store.holder? r := by
    rw [renamed.store]
    rfl
  rw [holder]
  cases b.store.holder? r with
  | none => exact clears false
  | some v =>
    refine .bind (.finds v) ?_
    rintro e _ rfl
    exact clears _

theorem find_inner (frames : List Frame.Layout) (name : String) (e : Error)
    (failed : Frame.find frames name = .error e) : e.kind.isInner = true := by
  unfold Frame.find at failed
  split at failed
  · cases failed
  · cases Except.error.inj failed
    rfl

theorem call_renamed (respells : Respells ρ site.table) (function : String) (res : Option String) :
    InStep (Renamed ρ) Eq (call site function res) (call (site.rename ρ) function (res.map ρ)) := by
  refine .bind (.lifts (find_inner site.frames function)) fun _ _ _ => ?_
  have declared : (site.rename ρ).table.lookup function = site.table.lookup function := rfl
  rw [declared]
  cases site.table.lookup function with
  | none => exact .fails rfl rfl
  | some f =>
    apply InStep.reads
    intro b c renamed
    rw [renamed.pending]
    refine .bind (.changes fun _ _ renamed => { renamed with pending := rfl }) fun _ _ _ => ?_
    apply InStep.ite
    · rw [List.length_map]
    · exact .fails rfl rfl
    refine .bind (passArguments_renamed respells 0 _) fun _ _ _ => .bind writeBack_renamed fun _ _ _ => ?_
    refine .bind (.forM (keep_renamed respells) _) fun _ _ _ => .bind (.emitsRenamed _) fun _ _ _ => ?_
    refine .bind (.forM forget_renamed _) fun _ _ _ => ?_
    cases res with
    | none => exact .returns rfl
    | some res =>
      apply InStep.bind ((acquire_renamed respells res ⟨none, some res⟩).within _)
      rintro r _ rfl
      exact .bind (.emitsOne _) fun _ _ _ => commit_renamed respells r res

/-! Programs -/

theorem lower_renamed (respells : Respells ρ site.table) (x : Instr) :
    InStep (Renamed ρ) Eq (lower site x) (lower (site.rename ρ) (x.rename ρ)) := by
  cases x with
  | binary op left right res => exact straight_renamed (binary_renamed respells op left right res)
  | unary op x res => exact straight_renamed (unary_renamed respells op x res)
  | imm n res => exact straight_renamed (immediate_renamed respells n res)
  | copy src res => exact straight_renamed (copy_renamed respells src res)
  | load array index res => exact straight_renamed (loadElement_renamed respells array index res)
  | store array index value => exact straight_renamed (storeElement_renamed respells array index value)
  | loadInd pointer res => exact straight_renamed (loadIndirect_renamed respells pointer res)
  | storeInd pointer value => exact straight_renamed (storeIndirect_renamed respells pointer value)
  | param x => exact straight_renamed (enqueue_renamed x)
  | call function res => exact call_renamed respells function res
  | branch cond ifTrue target => exact branch_renamed respells cond ifTrue target
  | goto target => exact jump_renamed target
  | ret x => exact ret_renamed respells x
  | label l => exact .bind flush_renamed fun _ _ _ => .changes fun _ _ renamed => renamed.push _
  | nop => exact .returns rfl

/-- The generator in another spelling. -/
def Body.rename (ρ : String → String) (b : Body) : Body :=
  { b with
    store := b.store.rename ρ
    spare := { b.spare with owners := b.spare.owners.map ρ }
    pending := b.pending.map (Operand.rename ρ) }

theorem Renamed.id (b : Body) : Renamed id b (b.rename id) where
  lines := rfl
  function := rfl
  layout := rfl
  store := rfl
  arrays := rfl
  arrayNames := fun _ _ => rfl
  spare := rfl
  pending := rfl
  returned := rfl
  reserved := rfl

theorem InStep.inner {x y : Step Unit} (inStep : InStep (Renamed id) Eq x y) {b : Body} {e : Error}
    (failed : x b = .error e) : e.kind.isInner = true := by
  obtain ⟨f, _, alike⟩ := (inStep b (b.rename id) (.id b)).failed failed
  exact alike.inner

theorem lower_inner {x : Instr} {b : Body} {e : Error} (failed : lower site x b = .error e) :
    e.kind.isInner = true := (lower_renamed (.id site.table) x).inner failed

theorem leave_inner {b : Body} {e : Error} (failed : leave site b = .error e) : e.kind.isInner = true :=
  (leave_renamed site).inner failed

theorem declareAll_rename (one : Function.Injective ρ) (s : Store Mem) (places : List (Decl × Int64))
    (names : ∀ d ∈ places.map Prod.fst, ρ d.name = d.name) :
    declareAll (s.rename ρ) places = (declareAll s places).rename ρ := by
  induction places generalizing s with
  | nil => rfl
  | cons x places ih =>
    have declared := Store.declare_rename s one x.1.name (some (frameWord x.2))
    rw [names x.1 (by simp)] at declared
    simp only [declareAll, List.foldl_cons, declared]
    exact ih _ fun d member => names d (by simp [member])

theorem usableRegisters_rename (s : Store Mem) (entry : Bool) (l : Frame.Layout) :
    usableRegisters (s.rename ρ) entry l = (usableRegisters s entry l).rename ρ :=
  List.foldl_hom (Store.rename ρ) fun _ _ => rfl

/-- Declared names have one spelling, so that a procedure starts in the same way in both. -/
theorem start_renamed {table : Scope} (respells : Respells ρ table) (options : Options) {o p : Output}
    (lines : p.lines = o.lines) {f : Symbol} (function : f ∈ table.functions) (l : Frame.Layout) :
    Renamed ρ (.start options o f l) (.start options p f l) := by
  have params : (placeParams l f.params).map Prod.fst = f.params := by
    simp [placeParams, Function.comp_def]
  have spelled : ∀ d ∈ f.params ++ f.locals, ρ d.name = d.name := respells.declared f function
  have paramNames : ∀ d ∈ (placeParams l f.params).map Prod.fst, ρ d.name = d.name := by
    rw [params]
    exact fun d member => spelled d (List.mem_append_left _ member)
  have localNames : ∀ d ∈ (placeLocals l 0 f.locals).map Prod.fst, ρ d.name = d.name := by
    rw [map_placeLocals]
    exact fun d member => spelled d (List.mem_append_right _ member)
  constructor
  · apply Array.toList_inj.mp
    rw [start_lines, start_lines, lines]
  · rfl
  · rfl
  · have scalarNames : ∀ d ∈ ((placeLocals l 0 f.locals).partition (·.1.isArray)).2.map Prod.fst,
        ρ d.name = d.name := by
      intro d member
      rw [List.partition_eq_filter_filter] at member
      obtain ⟨x, inside, rfl⟩ := List.mem_map.mp member
      exact localNames x.1 (List.mem_map_of_mem (List.mem_filter.mp inside).1)
    simp only [Body.start]
    rw [← declareAll_rename respells.injective _ _ scalarNames,
      ← declareAll_rename respells.injective _ _ paramNames, ← usableRegisters_rename]
    rfl
  · rfl
  · intro x member
    simp only [Body.start, List.partition_eq_filter_filter, List.mem_append, List.mem_map] at member
    rcases member with ⟨y, inside, rfl⟩ | ⟨y, inside, rfl⟩
    · exact paramNames y.1 (List.mem_map_of_mem (List.mem_filter.mp inside).1)
    · exact localNames y.1 (List.mem_map_of_mem (List.mem_filter.mp inside).1)
  · rfl
  · rfl
  · rfl
  · rfl

/-- Generators of one program in two spellings. -/
abbrev RenamedStates (ρ : String → String) : State → State → Prop :=
  States (fun o p => p.lines = o.lines) (Renamed ρ)

theorem Alike.sameKind {e f : Error} (alike : Alike e f) : SameKind e f := alike.kind

theorem enter_renamed (respells : Respells ρ site.table) (name : String) {o p : Output}
    (lines : p.lines = o.lines) :
    Agree SameKind (Renamed ρ) (enter site name o) (enter (site.rename ρ) name p) := by
  unfold enter
  have declared : (site.rename ρ).table.lookup name = site.table.lookup name := rfl
  rw [declared]
  cases found : site.table.lookup name with
  | none => exact .error rfl
  | some f =>
    dsimp only
    by_cases function : f.isFunction = true
    · rw [if_neg (by simp [function]), if_neg (by simp [function])]
      have frames : (site.rename ρ).frames = site.frames := rfl
      rw [frames]
      cases Frame.find site.frames f.name with
      | error e => exact .error rfl
      | ok l =>
        have member : f ∈ site.table.functions :=
          List.mem_filter.mpr ⟨List.mem_of_find?_eq_some found, function⟩
        have started := start_renamed respells site.options lines member l
        dsimp only [bind, Except.bind]
        split
        · exact .error rfl
        · exact .ok started
    · rw [if_pos (by simpa using function), if_pos (by simpa using function)]
      exact .error rfl

theorem step_renamed (site : Site) (respells : Respells ρ site.table) (x : Instr) {st st' : State}
    (renamed : RenamedStates ρ st st') :
    Agree SameKind (RenamedStates ρ) (step site x st) (step (site.rename ρ) (x.rename ρ) st') := by
  have lowers {b c : Body} (renamed : Renamed ρ b c) (x : Instr) : Agree SameKind (RenamedStates ρ)
      (do return .inside (← b.advance (lower site x)))
      (do return .inside (← c.advance (lower (site.rename ρ) (x.rename ρ)))) := by
    have lowered := lower_renamed respells x { b with reserved := [], returned := false }
      { c with reserved := [], returned := false } { renamed with returned := rfl, reserved := rfl }
    refine Agree.mono (advance_agree (lowered.mono (fun _ _ alike => alike) fun _ _ after => after.2))
      (fun _ _ alike => alike.sameKind) fun _ _ states => states
  cases renamed with
  | @idle o p lines =>
    cases x with
    | nop => exact .ok (.idle lines)
    | label l =>
      change Agree SameKind (RenamedStates ρ) (stepLabel site l (.idle o)) (stepLabel (site.rename ρ) l (.idle p))
      unfold stepLabel
      dsimp only
      split
      · exact .ok (.idle (congrArg (·.push (.label l.name)) lines))
      · exact (enter_renamed respells _ lines).bind fun b c renamed => .ok (.inside renamed)
      · exact .error rfl
    | _ => exact .error rfl
  | @inside b c renamed =>
    cases x with
    | nop => exact .ok (.inside renamed)
    | label l =>
      change Agree SameKind (RenamedStates ρ) (stepLabel site l (.inside b))
        (stepLabel (site.rename ρ) l (.inside c))
      unfold stepLabel
      dsimp only
      split
      · exact lowers renamed (.label l)
      · exact .error rfl
      · rw [renamed.function]
        split
        · exact .error rfl
        · have left := (leave_renamed site b c renamed).mono (fun _ _ alike => alike.sameKind)
            fun _ _ after => after
          exact left.bind fun p q after => .ok (.idle after.2.lines)
    | _ => exact lowers renamed _

theorem decodeFrom_renamed {table : Scope} (respells : Respells ρ table) (start : Nat) (code : List Quad) :
    Agree SameKind (fun xs ys => ys = xs.map (Instr.rename ρ)) (decodeFrom start code)
      (decodeFrom start (code.map (Quad.rename ρ))) := by
  induction code generalizing start with
  | nil => exact .ok rfl
  | cons q code ih =>
    simp only [List.map_cons, decodeFrom, Quad.index_rename]
    split
    · exact .error rfl
    · refine ((Instr.ofQuad_agree respells q).inContext fun _ _ misread => misread.sameKind).bind ?_
      rintro x _ rfl
      refine (ih (start + 1)).bind ?_
      rintro xs _ rfl
      exact .ok rfl

theorem runFrom_renamed {table : Scope} (respells : Respells ρ table) (options : Options)
    (frames : List Frame.Layout) (start : Nat) (code : List Quad) (instrs : List Instr) {st st' : State}
    (renamed : RenamedStates ρ st st') :
    Agree SameKind (RenamedStates ρ) (runFrom options table frames start code instrs st)
      (runFrom options table frames start (code.map (Quad.rename ρ)) (instrs.map (Instr.rename ρ)) st') := by
  induction code generalizing start instrs st st' with
  | nil => exact .ok renamed
  | cons q code ih =>
    cases instrs with
    | nil => exact .ok renamed
    | cons x instrs =>
      have stepped := step_renamed ⟨options, table, frames, start, code⟩ respells x renamed
      refine (stepped.inContext fun _ _ same => same).bind fun st st' renamed => ?_
      exact ih (start + 1) instrs renamed

/-- Another spelling of the temporaries changes neither the lines nor the frames of the listing, and
code that fails fails in the same way. -/
theorem compile_respelled (options : Options) (table : Scope) (code : List Quad) (ρ : String → String)
    (respells : Respells ρ table) :
    Agree SameKind
      (fun listing respelled => respelled.lines = listing.lines ∧ respelled.frames = listing.frames)
      (compile options table code) (compile options table (code.map (Quad.rename ρ))) := by
  refine (decodeFrom_renamed respells 0 code).bind ?_
  rintro instrs _ rfl
  rw [Frame.plan_rename]
  refine (runFrom_renamed respells options _ 0 code instrs (.idle rfl)).bind ?_
  intro st st' renamed
  cases renamed with
  | idle lines => exact .ok ⟨congrArg Array.toList lines, rfl⟩
  | inside renamed => exact .error rfl

/-- Two names that change places. -/
def swapNames (a b s : String) : String := if s = a then b else if s = b then a else s

theorem swapNames_injective (a b : String) : Function.Injective (swapNames a b) := by
  intro s t same
  unfold swapNames at same
  grind

/-- A function of one parameter, and code of it with a temporary of the name. -/
def scaleTable : Scope := ⟨[{ name := "f", kind := .function, params := [{ name := "p" }] }]⟩

@[inherit_doc scaleTable]
def scaleCode (t : String) : List Quad :=
  Quad.numberedFrom 0
    [⟨"label", "func_f", "", "", 0⟩, ⟨"+", "p", "2", t, 0⟩, ⟨"*", t, "p", t, 0⟩, ⟨"return", t, "", "", 0⟩,
     ⟨"label", "end_f", "", "", 0⟩]

theorem compile_respelled_swapped : Respells (swapNames "t" "u") scaleTable ∧
    Agree SameKind
      (fun listing respelled => respelled.lines = listing.lines ∧ respelled.frames = listing.frames)
      (compile {} scaleTable (scaleCode "t")) (compile {} scaleTable (scaleCode "u")) := by
  have respells : Respells (swapNames "t" "u") scaleTable := by
    refine ⟨swapNames_injective "t" "u", by decide, ?_, by decide, by decide⟩
    intro s isLiteral
    have first : s ≠ "t" := by
      rintro rfl
      exact absurd isLiteral (by decide)
    have second : s ≠ "u" := by
      rintro rfl
      exact absurd isLiteral (by decide)
    simp [swapNames, first, second]
  have respelled : (scaleCode "t").map (Quad.rename (swapNames "t" "u")) = scaleCode "u" := by decide
  have agree := compile_respelled {} scaleTable (scaleCode "t") _ respells
  rw [respelled] at agree
  exact ⟨respells, agree⟩

end ThreeAddress.Codegen
