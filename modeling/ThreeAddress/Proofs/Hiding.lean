import ThreeAddress.Proofs.References
import ThreeAddress.Proofs.Mentions

/-! Names that are not taken for global variables. While a declared name stands for its own words, no step of the
generator makes it the global variable of the name or refers to that. A name that is declared as an array must not
be touched as a scalar for this. -/
namespace ThreeAddress

open Asm (Line Mem)

/-- The global variable that a memory operand refers to. -/
@[simp] def Asm.Mem.global? : Mem → Option String
  | .global name => some name
  | .offset _ _ => none
  | .indexed array _ => some array

@[simp] def Asm.Instr.global? : Asm.Instr → Option String
  | .lw _ src => src.global?
  | .sw _ dst => dst.global?
  | _ => none

@[simp] def Asm.Line.global? : Line → Option String
  | .instr i => i.global?
  | _ => none

/-- The names that an instruction touches as scalars. -/
def Instr.scalars : Instr → List String
  | .load _ index res => index.names ++ [res]
  | .store _ index value => index.names ++ value.names
  | x => x.touches

theorem Instr.mem_scalars_of_operand (x : Instr) {y : Operand} {n : String} (member : y ∈ x.operands)
    (named : n ∈ y.names) : n ∈ x.scalars := by
  rw [Operand.mem_names] at named
  have touched : n ∈ x.operands.filterMap Operand.name? := List.mem_filterMap.mpr ⟨y, member, named⟩
  cases x <;> simp_all [scalars, touches, operands, Operand.mem_names]

theorem Instr.mem_scalars_of_result (x : Instr) {n : String} (found : x.result? = some n) : n ∈ x.scalars := by
  cases x <;> simp_all [scalars, touches, result?]

namespace Descriptor.Store

variable {s t u : Store Mem}

/-- Entries keep their names and homes, and one that has a home is not forgotten. -/
structure Retains (s t : Store Mem) : Prop where
  before : ∀ v f, t.get? v = some f → ∃ e, s.get? v = some e ∧ f.name = e.name ∧ f.home = e.home
  homed : ∀ v e, s.Has v e → e.home.isSome = true → ∃ f, t.Has v f ∧ f.name = e.name ∧ f.home = e.home

namespace Retains

theorem refl (s : Store Mem) : s.Retains s :=
  ⟨fun _ f found => ⟨f, found, rfl, rfl⟩, fun _ e known _ => ⟨e, known, rfl, rfl⟩⟩

theorem trans (first : s.Retains t) (second : t.Retains u) : s.Retains u := by
  constructor
  · intro v g found
    obtain ⟨f, found, name, home⟩ := second.before v g found
    obtain ⟨e, found, name', home'⟩ := first.before v f found
    exact ⟨e, found, name.trans name', home.trans home'⟩
  · intro v e known homed
    obtain ⟨f, known, name, home⟩ := first.homed v e known homed
    obtain ⟨g, known, name', home'⟩ := second.homed v f known (home ▸ homed)
    exact ⟨g, known, name'.trans name, home'.trans home⟩

theorem modifyHeld (s : Store Mem) (r : Reg) (f : KeySet Var → KeySet Var) : s.Retains (s.modifyHeld r f) :=
  ⟨(refl s).before, (refl s).homed⟩

/-- One entry changes, but not its name and home, and it is forgotten only without a home. -/
theorem modifyEntry (s : Store Mem) (v : Var) {change : Entry Mem → Entry Mem}
    (name : ∀ e, (change e).name = e.name) (home : ∀ e, (change e).home = e.home)
    (live : ∀ e, s.get? v = some e → e.home.isSome = true → (change e).forgotten = e.forgotten) :
    s.Retains (s.modifyEntry v change) := by
  constructor
  · intro w f found
    rw [get?_modifyEntry] at found
    split at found
    · rename_i same
      obtain ⟨e, entry, rfl⟩ := Option.map_eq_some_iff.mp found
      exact ⟨e, same ▸ entry, name e, home e⟩
    · exact ⟨f, found, rfl, rfl⟩
  · rintro w e ⟨found, kept⟩ homed
    by_cases same : w = v
    · subst same
      refine ⟨change e, ⟨?_, (live e found homed).trans kept⟩, name e, home e⟩
      rw [get?_modifyEntry, if_pos rfl, found]
      rfl
    · refine ⟨e, ⟨?_, kept⟩, rfl, rfl⟩
      rw [get?_modifyEntry, if_neg same]
      exact found

theorem markStored (s : Store Mem) (v : Var) : s.Retains (s.markStored v) :=
  modifyEntry s v (fun _ => rfl) (fun _ => rfl) fun _ _ _ => rfl

theorem unbind (s : Store Mem) (r : Reg) (v : Var) : s.Retains (s.unbind r v) :=
  (modifyHeld s r _).trans (modifyEntry _ v (fun _ => rfl) (fun _ => rfl) fun _ _ _ => rfl)

theorem foldl {α : Type} {f : Store Mem → α → Store Mem} (each : ∀ (s : Store Mem) a, s.Retains (f s a))
    (s : Store Mem) (xs : List α) : s.Retains (xs.foldl f s) := by
  induction xs generalizing s with
  | nil => exact refl s
  | cons x xs ih => exact (each s x).trans (ih (f s x))

theorem releaseFrom (s : Store Mem) (v : Var) (rs : List Reg) : s.Retains (s.releaseFrom v rs) :=
  foldl (fun s r => modifyHeld s r _) s rs

theorem dropOrphan (s : Store Mem) (v : Var) : s.Retains (s.dropOrphan v) := by
  unfold Store.dropOrphan
  split
  · rename_i e found
    split
    · rename_i orphan
      refine (releaseFrom s v _).trans (modifyEntry _ v (fun _ => rfl) (fun _ => rfl) fun f found' homed => ?_)
      rw [get?_releaseFrom, found] at found'
      cases found'
      simp_all
    · exact refl s
  · exact refl s

theorem evict (s : Store Mem) (r : Reg) (vs : List Var) : s.Retains (s.evict r vs) :=
  foldl (fun s v => (unbind s r v).trans (dropOrphan _ v)) s vs

theorem clearRegister (s : Store Mem) (r : Reg) : s.Retains (s.clearRegister r) := evict s r _

theorem clearAll (s : Store Mem) : s.Retains s.clearAll := foldl clearRegister s _

theorem bind (s : Store Mem) (r : Reg) (v : Var) : s.Retains (s.bind r v) :=
  ((evict s r _).trans (modifyHeld _ r _)).trans
    (modifyEntry _ v (fun _ => rfl) (fun _ => rfl) fun _ _ _ => rfl)

theorem commit (s : Store Mem) (r : Reg) (v : Var) : s.Retains (s.commit r v) :=
  ((releaseFrom s v _).trans (bind _ r v)).trans
    (modifyEntry _ v (fun _ => rfl) (fun _ => rfl) fun _ _ _ => rfl)

end Retains

end Descriptor.Store

namespace Codegen

open Descriptor (Store Var Entry)

/-! Hidden names -/

/-- What a declaration makes of a name: the word of a scalar or a pointer, and how elements are addressed. Without
a word the name is an array of the frame. -/
structure Hiding where
  name : String
  home : Option Mem
  place : Option ArrayPlace
  framed : home = none → ∃ offset, place = some (.frame offset)
  pointed : home.isSome = true → place = none ∨ place = some .pointer

namespace Hiding

variable (h : Hiding)

/-- The entry does not live in the global variable of the name, and one of the name itself has the word of the
declaration. -/
structure Shelters (e : Entry Mem) : Prop where
  elsewhere : ∀ mem, e.home = some mem → mem.global? ≠ some h.name
  own : h.home.isSome = true → e.name = h.name → e.home = h.home

/-- The name may stand for a scalar: it is not the name of an array that hides a global scalar. -/
def Allows (table : Scope) (name : String) : Prop :=
  h.home = none → isGlobalScalar table h.name = true → name ≠ h.name

end Hiding

variable {table : Scope} {h : Hiding} {b c : Body}

/-- The generator takes the name for what is declared. -/
structure Hidden (table : Scope) (h : Hiding) (b : Body) : Prop where
  entries : ∀ v e, b.store.get? v = some e → h.Shelters e
  known : h.home.isSome = true → ∃ v e, b.store.Has v e ∧ e.name = h.name
  owners : h.home.isSome = true → h.name ∉ b.spare.owners
  arrays : b.arrays.lookup h.name = h.place
  pending : ∀ y ∈ b.pending, ∀ name ∈ y.names, h.Allows table name

theorem Hidden.update (hidden : Hidden table h b) (retains : b.store.Retains c.store) (arrays : c.arrays = b.arrays)
    (spare : c.spare = b.spare) (pending : c.pending = b.pending) : Hidden table h c := by
  refine ⟨fun v f found => ?_, fun homed => ?_, spare ▸ hidden.owners, arrays ▸ hidden.arrays,
    pending ▸ hidden.pending⟩
  · obtain ⟨e, found, name, home⟩ := retains.before v f found
    have shelters := hidden.entries v e found
    exact ⟨fun mem here => shelters.elsewhere mem (home ▸ here), fun homed same =>
      home.trans (shelters.own homed (name.symm.trans same))⟩
  · obtain ⟨v, e, known, same⟩ := hidden.known homed
    have own := (hidden.entries v e known.1).own homed same
    obtain ⟨f, stays, name, _⟩ := retains.homed v e known (own ▸ homed)
    exact ⟨v, f, stays, name.trans same⟩

theorem Hidden.lookup (hidden : Hidden table h b) (homed : h.home.isSome = true) :
    ∃ v e, b.store.lookup h.name = some v ∧ b.store.get? v = some e ∧ e.home = h.home := by
  obtain ⟨_, _, known, same⟩ := hidden.known homed
  obtain ⟨v, found⟩ := Store.lookup_isSome known
  rw [same] at found
  obtain ⟨e, has, named⟩ := Store.lookup_spec found
  exact ⟨v, e, found, has.1, (hidden.entries v e has.1).own homed named⟩

theorem Hidden.intern (hidden : Hidden table h b) (name : String) :
    Hidden table h { b with store := (b.store.intern name).2 } := by
  refine ⟨fun v e found => ?_, fun homed => ?_, hidden.owners, hidden.arrays, hidden.pending⟩
  · change (b.store.intern name).2.get? v = some e at found
    rw [Store.get?_intern] at found
    split at found
    · rename_i new
      cases found
      refine ⟨(by simp), fun homed same => ?_⟩
      obtain ⟨_, _, known, _⟩ := hidden.lookup homed
      rw [← show name = h.name from same, new.1] at known
      cases known
    · exact hidden.entries v e found
  · obtain ⟨v, e, known, same⟩ := hidden.known homed
    exact ⟨v, e, Store.has_intern known, same⟩

/-- Another name gets a word that is not the global variable of this one. -/
theorem Hidden.declare (hidden : Hidden table h b) {name : String} {mem : Mem} (clean : mem.global? ≠ some h.name)
    (other : h.home.isSome = true → name ≠ h.name) :
    Hidden table h { b with store := (b.store.declare name (some mem)).2 } := by
  have interned := hidden.intern name
  obtain ⟨g, here, named⟩ := Store.intern_has b.store name
  have entry (w : Var) : (b.store.declare name (some mem)).2.get? w =
      if w = (b.store.intern name).1 then some { g with home := some mem, homeValid := true }
      else (b.store.intern name).2.get? w := by
    rw [Store.declare, Store.get?_modifyEntry, here.1]
    rfl
  refine ⟨fun v e found => ?_, fun homed => ?_, hidden.owners, hidden.arrays, hidden.pending⟩
  · change (b.store.declare name (some mem)).2.get? v = some e at found
    rw [entry] at found
    split at found
    · cases found
      refine ⟨fun mem' there => (Option.some.inj there) ▸ clean, fun homed same => ?_⟩
      exact absurd (named.symm.trans same) (other homed)
    · exact interned.entries v e found
  · obtain ⟨v, e, known, same⟩ := interned.known homed
    refine ⟨v, e, ⟨?_, known.2⟩, same⟩
    rw [entry, if_neg]
    · exact known.1
    · rintro rfl
      cases here.1.symm.trans known.1
      exact other homed (named.symm.trans same)

/-! Steps -/

section Steps

variable {α β : Type} {P Q : α → Prop} {R : β → Prop}

/-- The lines that are new do not refer to the global variable of the name. -/
def Avoids (name : String) (b c : Body) : Prop :=
  ∃ ls, c.out.lines.toList = b.out.lines.toList ++ ls ∧ ∀ l ∈ ls, l.global? ≠ some name

theorem Avoids.of_same {name : String} (same : c.out.lines = b.out.lines) : Avoids name b c :=
  ⟨[], by simp [same], by simp⟩

theorem Avoids.trans {name : String} {d : Body} (first : Avoids name b c) (second : Avoids name c d) :
    Avoids name b d := by
  obtain ⟨ls, lines, clean⟩ := first
  obtain ⟨ks, lines', clean'⟩ := second
  refine ⟨ls ++ ks, by rw [lines', lines, List.append_assoc], fun l member => ?_⟩
  rcases List.mem_append.mp member with here | there
  · exact clean l here
  · exact clean' l there

/-- The step leaves the name hidden, does not refer to the global variable, and its result is of a kind. -/
def Hides (table : Scope) (h : Hiding) (Q : α → Prop) (x : Step α) : Prop :=
  ∀ b a c, Hidden table h b → x b = .ok (a, c) → Q a ∧ Hidden table h c ∧ Avoids h.name b c

/-- The step leaves the name hidden. -/
abbrev Conceals (table : Scope) (h : Hiding) (x : Step α) : Prop := Hides table h (fun _ => True) x

namespace Hides

theorem returns {a : α} (result : Q a) : Hides table h Q (pure a : Step α) := by
  intro b a' c hidden ran
  obtain ⟨rfl, rfl⟩ := pure_ok.mp ran
  exact ⟨result, hidden, .of_same rfl⟩

theorem fails (cause : Cause) : Hides table h Q (failWith cause : Step α) := by
  intro b a c hidden ran
  exact (failWith_ok.mp ran).elim

theorem bind {x : Step α} {f : α → Step β} (first : Hides table h P x) (rest : ∀ a, P a → Hides table h R (f a)) :
    Hides table h R (x >>= f) := by
  intro b y d hidden ran
  obtain ⟨a, c, ran, after⟩ := bind_ok.mp ran
  obtain ⟨result, middle, clean⟩ := first b a c hidden ran
  obtain ⟨result', last, clean'⟩ := rest a result c y d middle after
  exact ⟨result', last, clean.trans clean'⟩

theorem reads {f : Body → Step β} (rest : ∀ b, Hidden table h b → Hides table h R (f b)) :
    Hides table h R (get >>= f) := fun b a c hidden ran => rest b hidden b a c hidden ran

theorem within {x : Step α} (hides : Hides table h Q x) (context : Context) :
    Hides table h Q (Codegen.within context x) :=
  fun b a c hidden ran => hides b a c hidden (within_ok.mp ran)

theorem changes {f : Body → Body} (same : ∀ b, (f b).out.lines = b.out.lines)
    (kept : ∀ b, Hidden table h b → Hidden table h (f b)) : Conceals table h (modify f) := by
  intro b a c hidden ran
  obtain rfl := modify_ok.mp ran
  exact ⟨trivial, kept b hidden, .of_same (same b)⟩

theorem stores {f : Store Mem → Store Mem} (retains : ∀ s : Store Mem, s.Retains (f s)) :
    Conceals table h (modifyStore f) :=
  changes (fun _ => rfl) fun _ hidden => hidden.update (retains _) rfl rfl rfl

theorem emits {is : List Asm.Instr} (clean : ∀ i ∈ is, i.global? ≠ some h.name) : Conceals table h (emitAll is) := by
  intro b a c hidden ran
  obtain rfl := emitAll_ok.mp ran
  refine ⟨trivial, hidden.update (.refl _) rfl rfl rfl, is.map Line.instr, Output.lines_append .., ?_⟩
  intro l member
  obtain ⟨i, inside, rfl⟩ := List.mem_map.mp member
  exact clean i inside

theorem emit {i : Asm.Instr} (clean : i.global? ≠ some h.name) : Conceals table h (emitInstr i) := by
  intro b a c hidden ran
  have clean : ∀ j ∈ [i], j.global? ≠ some h.name := by simpa using clean
  exact emits clean b a c hidden (emitAll_ok.mpr (emitInstr_ok.mp ran))

theorem forM {f : α → Step Unit} {xs : List α} (each : ∀ a ∈ xs, Conceals table h (f a)) :
    Conceals table h (xs.forM f) := by
  induction xs with
  | nil => exact returns trivial
  | cons x xs ih =>
    exact bind (f := fun _ => xs.forM f) (each x List.mem_cons_self) fun _ _ =>
      ih fun a member => each a (List.mem_cons_of_mem x member)

theorem mapM {f : α → Step β} (each : ∀ a, Hides table h R (f a)) (xs : List α) :
    Hides table h (fun ys => ∀ y ∈ ys, R y) (xs.mapM f) := by
  induction xs with
  | nil => exact returns (by simp)
  | cons x xs ih =>
    rw [List.mapM_cons]
    exact bind (each x) fun y here => bind ih fun ys there => returns (by simpa using ⟨here, there⟩)

theorem finds (v : Var) : Hides table h h.Shelters (entryOf v) := by
  intro b e c hidden ran
  obtain ⟨found, rfl⟩ := entryOf_ok.mp ran
  exact ⟨hidden.entries v e found, hidden, .of_same rfl⟩

theorem unresolved (site : Site) (cause : Cause) : Conceals table h (Codegen.unresolved site cause) := by
  intro b a c hidden ran
  obtain ⟨_, rfl⟩ := unresolved_ok.mp ran
  exact ⟨trivial, hidden.update (.refl _) rfl rfl rfl, .of_same rfl⟩

end Hides

/-! Allocation -/

variable {site : Site} {name : String}

theorem avoids_load {options : Options} {r : MachineReg} {mem : Mem} (clean : mem.global? ≠ some name) :
    ∀ i ∈ loadInstrs options r mem, i.global? ≠ some name := by
  unfold loadInstrs delay
  split <;> simp_all

theorem avoids_immediate (r : MachineReg) (n : Int) : ∀ i ∈ immediateInstrs r n, i.global? ≠ some name := by
  unfold immediateInstrs
  split <;> simp

theorem resolve?_hides (allowed : h.Allows site.table name) : Conceals site.table h (resolve? site name) := by
  intro b o c hidden ran
  simp only [resolve?, bind_ok, get_ok] at ran
  obtain ⟨_, _, ⟨rfl, rfl⟩, ran⟩ := ran
  cases unknown : b.store.lookup name with
  | some v =>
    simp only [unknown] at ran
    exact Hides.returns (Q := fun _ => True) trivial b o c hidden ran
  | none =>
    cases symbol : site.table.lookup name with
    | none =>
      simp only [unknown, symbol] at ran
      exact Hides.returns (Q := fun _ => True) trivial b o c hidden ran
    | some x =>
      simp only [unknown, symbol] at ran
      split at ran
      · rename_i scalar
        simp only [bind_ok, get_ok, modifyStore_ok, pure_ok] at ran
        obtain ⟨_, _, ⟨rfl, rfl⟩, _, _, rfl, rfl, rfl⟩ := ran
        -- the name cannot be the hidden one: that is known, or it is an array that may not be a scalar
        have other : name ≠ h.name := by
          rintro rfl
          cases home : h.home with
          | none => exact allowed home (by simp [isGlobalScalar, symbol, scalar]) rfl
          | some w =>
            obtain ⟨_, _, found, _⟩ := hidden.lookup (by simp [home])
            rw [unknown] at found
            cases found
        have clean : (Mem.global name).global? ≠ some h.name := by simpa using other
        exact ⟨trivial, hidden.declare clean fun _ => other, .of_same rfl⟩
      · exact Hides.returns (Q := fun _ => True) trivial b o c hidden ran

theorem storeTo_hides {r : Reg} {v : Var} {mem : Mem} (clean : mem.global? ≠ some h.name) :
    Conceals table h (storeTo r v mem) :=
  .bind (.emit clean) fun _ _ => .stores fun s => .markStored s v

theorem heldEntries_hides (r : Reg) : Hides table h (fun es => ∀ x ∈ es, h.Shelters x.2) (heldEntries r) :=
  .reads fun _ _ => .mapM (R := fun x : Var × Entry Mem => h.Shelters x.2)
    (fun v => .bind (.finds v) fun _ shelters => .returns shelters) _

theorem spill_hides (needs : Needs) (r : Reg) : Conceals table h (spill needs r) := by
  refine .bind (heldEntries_hides r) fun es sheltered =>
    .bind (.forM fun x member => ?_) fun _ _ => .stores fun s => .clearRegister s r
  dsimp only
  split
  · rename_i home here
    split
    · exact storeTo_hides ((sheltered x member).elsewhere home here)
    · exact .returns trivial
  · exact .returns trivial

theorem seize_hides (needs : Needs) : Conceals table h (seize site name needs) := by
  have cost (r : Reg) : Conceals table h (spillCost site needs r) :=
    .bind (heldEntries_hides r) fun _ _ => .reads fun _ _ => .returns trivial
  refine .reads fun b _ => .bind (.mapM (R := fun _ => True) (fun r => .bind (cost r) fun _ _ => .returns trivial) _)
    fun costs _ => ?_
  split
  · exact .fails _
  · exact .fails _
  · exact .bind (spill_hides needs _) fun _ _ => .returns trivial

theorem residence?_hides (allowed : h.Allows site.table name) : Conceals site.table h (residence? site name) := by
  refine .bind (resolve?_hides allowed) fun o _ => ?_
  split
  · exact .bind (.finds _) fun _ _ => .returns trivial
  · exact .returns trivial

theorem acquire_hides (allowed : h.Allows site.table name) (needs : Needs) :
    Conceals site.table h (acquire site name needs) := by
  have finish (r : Reg) : Conceals site.table h (do reserve r; pure r) :=
    .bind (.changes (fun _ => rfl) fun _ hidden => hidden.update (.refl _) rfl rfl rfl) fun _ _ => .returns trivial
  refine .bind (residence?_hides allowed) fun o _ => ?_
  cases o with
  | some r => exact finish r
  | none =>
    refine .reads fun b _ => ?_
    split
    · exact finish _
    · exact .bind (seize_hides needs) fun r _ => finish r

/-- The home that a variable is read from. -/
theorem Hiding.Shelters.valid {e : Entry Mem} {mem : Mem} (shelters : h.Shelters e)
    (valid : (if e.homeValid then e.home else none) = some mem) : mem.global? ≠ some h.name := by
  split at valid
  · exact shelters.elsewhere mem valid
  · cases valid

theorem ensureLoaded_hides (allowed : h.Allows site.table name) (r : Reg) :
    Conceals site.table h (ensureLoaded site name r) := by
  refine .bind (resolve?_hides allowed) fun o _ => ?_
  split
  · exact .unresolved site _
  · refine .bind (.finds _) fun e shelters => ?_
    split
    · exact .returns trivial
    · split
      · exact .bind (.emit (by simp)) fun _ _ => .stores fun s => .bind s r _
      · split
        · rename_i home valid
          exact .bind (.emits (avoids_load (shelters.valid valid))) fun _ _ => .stores fun s => .bind s r _
        · exact .unresolved site _

theorem loaded_hides (allowed : h.Allows site.table name) (needs : Needs) :
    Conceals site.table h (loaded site name needs) :=
  .bind (acquire_hides allowed needs) fun r _ => .bind (ensureLoaded_hides allowed r) fun _ _ => .returns trivial

theorem operand_hides {x : Operand} (allowed : ∀ name ∈ x.names, h.Allows site.table name) (needs : Needs)
    (scratch : MachineReg) : Conceals site.table h (operand site x needs scratch) := by
  cases x with
  | literal n =>
    unfold operand
    dsimp only
    split
    · exact .returns trivial
    · exact .bind (.emits (avoids_immediate scratch n)) fun _ _ => .returns trivial
  | «variable» name =>
    exact .bind (loaded_hides (allowed name List.mem_cons_self) needs) fun _ _ => .returns trivial

theorem commit_hides (allowed : h.Allows site.table name) (r : Reg) : Conceals site.table h (commit site r name) := by
  refine .bind (resolve?_hides allowed) fun o _ => ?_
  split
  · exact .bind (.finds _) fun _ _ => .stores fun s => .commit s r _
  · exact .changes (fun _ => rfl) fun b hidden => (hidden.intern name).update (.commit _ r _) rfl rfl rfl

theorem copyTo_hides {x : Operand} (allowed : ∀ name ∈ x.names, h.Allows site.table name) (dst : MachineReg) :
    Conceals site.table h (copyTo site dst x) := by
  cases x with
  | literal n => exact .emits (avoids_immediate dst n)
  | «variable» name =>
    refine .bind (resolve?_hides (allowed name List.mem_cons_self)) fun o _ => ?_
    split
    · exact .unresolved site _
    · refine .bind (.finds _) fun e shelters => ?_
      split
      · exact .emit (by simp)
      · split
        · rename_i home valid
          exact .emits (avoids_load (shelters.valid valid))
        · exact .unresolved site _

theorem writeBack_hides : Conceals table h writeBack := by
  refine .reads fun b _ => .forM fun v _ => .bind (.finds v) fun e shelters => ?_
  split
  · rename_i home r here _
    split
    · exact .returns trivial
    · exact storeTo_hides (shelters.elsewhere home here)
  · exact .returns trivial

theorem flush_hides : Conceals table h flush := .bind writeBack_hides fun _ _ => .stores .clearAll

theorem evictHomed_hides : Conceals table h evictHomed := by
  refine .reads fun b _ => .forM fun v _ => .bind (.finds v) fun e _ => ?_
  split
  · exact .stores fun s => .foldl (fun s r => .unbind s r v) s _
  · exact .returns trivial

/-! Instructions inside of a block -/

theorem avoids_binary (op : BinaryOp) (r y z : MachineReg) : ∀ i ∈ binaryInstrs op r y z, i.global? ≠ some name := by
  cases op <;> simp [binaryInstrs]

theorem avoids_unary (op : UnaryOp) (r y : MachineReg) : ∀ i ∈ unaryInstrs op r y, i.global? ≠ some name := by
  cases op with
  | plus =>
    simp only [unaryInstrs]
    split <;> simp
  | _ => simp [unaryInstrs]

/-- A result is computed and gets its register. -/
theorem assign_hides {is : List Asm.Instr} (clean : ∀ i ∈ is, i.global? ≠ some h.name)
    (allowed : h.Allows site.table name) (r : Reg) :
    Conceals site.table h (do emitAll is; commit site r name) :=
  .bind (.emits clean) fun _ _ => commit_hides allowed r

theorem binary_hides {op : BinaryOp} {left right : Operand}
    (first : ∀ n ∈ left.names, h.Allows site.table n) (second : ∀ n ∈ right.names, h.Allows site.table n)
    (result : h.Allows site.table name) : Conceals site.table h (binary site op left right name) := by
  refine .bind (.within (operand_hides first _ _) _) fun y _ =>
    .bind (.within (operand_hides second _ _) _) fun z _ => ?_
  have finish (r : Reg) := assign_hides (avoids_binary op (.pool r) y z) result r
  split
  · exact finish _
  · exact finish _
  · exact .bind (.within (acquire_hides result _) _) fun r _ => finish r

theorem unary_hides {op : UnaryOp} {x : Operand} (first : ∀ n ∈ x.names, h.Allows site.table n)
    (result : h.Allows site.table name) : Conceals site.table h (unary site op x name) := by
  refine .bind (operand_hides first _ _) fun y _ => ?_
  have finish (r : Reg) := assign_hides (avoids_unary op (.pool r) y) result r
  split
  · exact finish _
  · exact .bind (.within (acquire_hides result _) _) fun r _ => finish r

theorem immediate_hides (n : Int) (result : h.Allows site.table name) :
    Conceals site.table h (immediate site n name) :=
  .bind (acquire_hides result _) fun r _ => assign_hides (avoids_immediate (.pool r) n) result r

theorem copy_hides {src : String} (first : h.Allows site.table src) (result : h.Allows site.table name) :
    Conceals site.table h (copy site src name) := by
  unfold copy
  split
  · exact .returns trivial
  · refine .bind (loaded_hides first _) fun y _ => .bind (.within (acquire_hides result _) _) fun r _ => ?_
    exact .bind (.emit (by simp)) fun _ _ => commit_hides result r

/-- How the elements of the array of a hidden name are addressed. -/
theorem Hidden.place? (hidden : Hidden table h b) :
    b.place? table h.name = if h.home.isSome then some .pointer else h.place := by
  rw [Body.place?, hidden.arrays]
  cases home : h.home with
  | none =>
    obtain ⟨offset, place⟩ := h.framed home
    simp [place]
  | some w =>
    have homed : h.home.isSome = true := by simp [home]
    obtain ⟨v, _, known, _⟩ := hidden.lookup homed
    rcases h.pointed homed with place | place <;> simp [place, known]

/-- A hidden name is not taken for a global array, nor for a pointer if it is an array of the frame. -/
theorem arrayPlace_hides (array : String) :
    Hides site.table h (fun place => array = h.name → place ≠ .global ∧ (place = .pointer → h.home.isSome = true))
      (arrayPlace site array) := by
  intro b place c hidden ran
  obtain rfl := arrayPlace_reads ran
  refine ⟨?_, hidden, .of_same rfl⟩
  rintro rfl
  rw [arrayPlace_eq, hidden.place?] at ran
  cases home : h.home with
  | none =>
    obtain ⟨offset, framed⟩ := h.framed home
    simp only [home, framed] at ran
    cases ran
    simp
  | some w =>
    simp only [home] at ran
    cases ran
    simp

theorem element_hides {array : String} {index : Operand} (first : ∀ n ∈ index.names, h.Allows site.table n)
    (needs : Needs) : Hides site.table h (fun mem => mem.global? ≠ some h.name) (element site array index needs) := by
  refine .bind (.within (operand_hides first _ _) _) fun i _ => .bind (.emit (by simp)) fun _ _ =>
    .bind (arrayPlace_hides array) fun place own => ?_
  cases place with
  | global => exact .returns (by simpa using fun same => (own same).1 rfl)
  | frame offset =>
    exact .bind (.emit (by simp)) fun _ _ => .returns (by simp)
  | pointer =>
    have allowed : h.Allows site.table array := by
      rintro none _ rfl
      simpa [none] using (own rfl).2 rfl
    exact .bind (.within (loaded_hides allowed _) _) fun base _ => .bind (.emit (by simp)) fun _ _ =>
      .returns (by simp)

theorem loadElement_hides {array : String} {index : Operand} (first : ∀ n ∈ index.names, h.Allows site.table n)
    (result : h.Allows site.table name) : Conceals site.table h (loadElement site array index name) :=
  .bind (element_hides first _) fun _ clean => .bind (.within (acquire_hides result _) _) fun r _ =>
    assign_hides (avoids_load clean) result r

theorem storeElement_hides {array : String} {index value : Operand}
    (first : ∀ n ∈ index.names, h.Allows site.table n) (second : ∀ n ∈ value.names, h.Allows site.table n) :
    Conceals site.table h (storeElement site array index value) :=
  .bind (element_hides first _) fun _ clean => .bind (.within (operand_hides second _ _) _) fun _ _ => .emit clean

theorem loadIndirect_hides {pointer : String} (first : h.Allows site.table pointer)
    (result : h.Allows site.table name) : Conceals site.table h (loadIndirect site pointer name) :=
  .bind (.within (loaded_hides first _) _) fun _ _ => .bind (.within (acquire_hides result _) _) fun r _ =>
    assign_hides (avoids_load (by simp)) result r

theorem storeIndirect_hides {pointer : String} {value : Operand} (first : h.Allows site.table pointer)
    (second : ∀ n ∈ value.names, h.Allows site.table n) : Conceals site.table h (storeIndirect site pointer value) :=
  .bind (.within (loaded_hides first _) _) fun _ _ => .bind (.within (operand_hides second _ _) _) fun _ _ =>
    .emit (by simp)

theorem enqueue_hides {x : Operand} (first : ∀ n ∈ x.names, h.Allows table n) : Conceals table h (enqueue x) := by
  refine .changes (fun _ => rfl) fun b hidden => { hidden with pending := fun y member => ?_ }
  rcases List.mem_append.mp member with waits | last
  · exact hidden.pending y waits
  · cases List.mem_singleton.mp last
    exact first

theorem straight_hides {x : Step Unit} (hides : Conceals site.table h x) :
    Conceals site.table h (straight site x) := by
  refine .bind hides fun _ _ => ?_
  split
  · exact .bind writeBack_hides fun _ _ => evictHomed_hides
  · exact .returns trivial

/-! Flow of control -/

theorem avoids_jump {options : Options} {i : Asm.Instr} (clean : i.global? ≠ some name) :
    ∀ j ∈ jumpInstrs options i, j.global? ≠ some name := by
  unfold jumpInstrs delay
  split <;> simp_all

theorem avoids_epilogue (options : Options) (l : Frame.Layout) :
    ∀ i ∈ epilogue options l, i.global? ≠ some name := by
  have slots : ∀ x ∈ saveSlots l ++ returnSlots l, x.2.global? = none := by
    intro x member
    unfold saveSlots returnSlots at member
    rcases List.mem_append.mp member with saved | address
    · obtain ⟨y, _, rfl⟩ := List.mem_map.mp saved
      rfl
    · split at address
      · cases address
      · cases List.mem_singleton.mp address
        rfl
  intro i member
  unfold epilogue adjustStack at member
  rw [List.mem_append, List.mem_append, List.mem_flatMap] at member
  rcases member with (⟨x, slot, loads⟩ | moves) | jumps
  · have clean : x.2.global? ≠ some name := by rw [slots x slot]; exact (Option.some_ne_none name).symm
    exact avoids_load clean i loads
  · split at moves
    · cases moves
    · cases List.mem_singleton.mp moves
      simp
  · exact avoids_jump (by simp) i jumps

theorem branch_hides {cond : Operand} (first : ∀ n ∈ cond.names, h.Allows site.table n) (ifTrue : Bool)
    (target : String) : Conceals site.table h (branch site cond ifTrue target) :=
  .bind (operand_hides first _ _) fun _ _ => .bind flush_hides fun _ _ =>
    .emits (avoids_jump (by split <;> simp))

theorem jump_hides (target : String) : Conceals table h (jump site target) :=
  .bind flush_hides fun _ _ => .emits (avoids_jump (by simp))

theorem ret_hides {x : Option Operand} (first : ∀ y ∈ x, ∀ n ∈ y.names, h.Allows site.table n) :
    Conceals site.table h (ret site x) := by
  have finish : Conceals site.table h (do
      flush
      emitAll (epilogue site.options (← get).layout)
      modify fun b => { b with returned := true }) :=
    .bind flush_hides fun _ _ => .reads fun b _ => .bind (.emits (avoids_epilogue _ _)) fun _ _ =>
      .changes (fun _ => rfl) fun _ hidden => hidden.update (.refl _) rfl rfl rfl
  cases x with
  | none => exact finish
  | some x => exact .bind (copyTo_hides (first x rfl) _) fun _ _ => finish

theorem leave_hides : Conceals table h (leave site) := by
  refine .bind flush_hides fun _ _ => .reads fun b _ => ?_
  split
  · exact .returns trivial
  · exact .emits (avoids_epilogue _ _)

/-! Calls -/

theorem passArgument_hides {x : Operand} (allowed : ∀ n ∈ x.names, h.Allows site.table n) (i : Nat) :
    Conceals site.table h (passArgument site i x) := by
  have slot (b : Body) (r : MachineReg) :
      Conceals site.table h (emitInstr (.sw r (frameWord (b.layout.outgoingOffset (Int64.ofNat i))))) :=
    .emit (by simp [frameWord])
  unfold passArgument
  split
  · exact copyTo_hides allowed _
  · refine .reads fun b _ => ?_
    have copied := Hides.bind (copyTo_hides allowed .address) fun _ _ => slot b .address
    cases x with
    | literal n => exact copied
    | «variable» name =>
      refine .bind (residence?_hides (allowed name List.mem_cons_self)) fun o _ => ?_
      cases o with
      | some r => exact slot b _
      | none => exact copied

theorem passArguments_hides {xs : List Operand} (allowed : ∀ x ∈ xs, ∀ n ∈ x.names, h.Allows site.table n) (i : Nat) :
    Conceals site.table h (passArguments site i xs) := by
  induction xs generalizing i with
  | nil => exact .returns trivial
  | cons x xs ih =>
    exact .bind (.within (passArgument_hides (allowed x List.mem_cons_self) i) _) fun _ _ =>
      ih (fun y member => allowed y (List.mem_cons_of_mem x member)) (i + 1)

theorem Spared.hidden {i : Nat} (spared : Spared site b name i c) (hidden : Hidden table h b)
    (other : h.home.isSome = true → name ≠ h.name) : Hidden table h c := by
  obtain ⟨_, _, _, members⟩ := spared.owners
  have owners : h.home.isSome = true → h.name ∉ c.spare.owners := by
    intro homed owner
    rcases members _ owner with same | before
    · exact other homed same.symm
    · exact hidden.owners homed before
  cases spared with
  | @reuse i owner v found unused lookup =>
    refine ⟨fun w e entry => ?_, fun homed => ?_, owners, hidden.arrays, hidden.pending⟩
    · change (b.store.drop v).get? w = some e at entry
      rw [Store.get?_drop] at entry
      split at entry
      · obtain ⟨f, before, rfl⟩ := Option.map_eq_some_iff.mp entry
        have shelters := hidden.entries v f before
        exact ⟨shelters.elsewhere, shelters.own⟩
      · exact hidden.entries w e entry
    · obtain ⟨w, e, known, same⟩ := hidden.known homed
      refine ⟨w, e, ⟨?_, known.2⟩, same⟩
      rw [Store.get?_drop, if_neg]
      · exact known.1
      · rintro rfl
        obtain ⟨f, has, named⟩ := Store.lookup_spec lookup
        cases has.1.symm.trans known.1
        exact hidden.owners homed (same ▸ named ▸ List.mem_of_getElem? found)
  | stale => exact ⟨hidden.entries, hidden.known, owners, hidden.arrays, hidden.pending⟩
  | new => exact ⟨hidden.entries, hidden.known, owners, hidden.arrays, hidden.pending⟩

theorem spareWord?_hides (other : h.home.isSome = true → name ≠ h.name) :
    Hides table h (fun o => ∀ mem ∈ o, mem.global? = none) (spareWord? site name) := by
  intro b o c hidden ran
  rcases spareWord?_spared ran with ⟨rfl, rfl⟩ | ⟨i, rfl, spared⟩
  · exact ⟨by simp, hidden, .of_same rfl⟩
  · refine ⟨fun mem here => ?_, spared.hidden hidden other, .of_same (by rw [spared.out])⟩
    cases here
    rfl

theorem keep_hides (r : Reg) : Conceals table h (keep site r) := by
  refine .reads fun b _ => ?_
  split
  · exact .returns trivial
  · refine .bind (.finds _) fun e shelters => .reads fun b _ => ?_
    split
    · exact .returns trivial
    · rename_i needed
      -- a declared scalar has a home
      have other : h.home.isSome = true → e.name ≠ h.name := by
        intro homed same
        have own := shelters.own homed same
        simp_all
      refine .reads fun b _ => ?_
      split
      · exact .bind (.emit (by simp)) fun _ _ => .bind (.stores fun s => .bind s _ _) fun _ _ =>
          .changes (fun _ => rfl) fun _ hidden => hidden.update (.refl _) rfl rfl rfl
      · refine .bind (spareWord?_hides other) fun o framed => ?_
        split
        · rename_i home
          have clean : home.global? ≠ some h.name := by rw [framed home rfl]; exact (Option.some_ne_none _).symm
          exact .bind (.emit clean) fun _ _ => .changes (fun _ => rfl) fun _ hidden => hidden.declare clean other
        · exact .fails _

theorem forget_hides (r : Reg) : Conceals table h (forget r) := by
  have finish (changed : Bool) : Conceals table h
      (if r.isTemporary || changed then modifyStore (·.clearRegister r) else pure () : Step Unit) := by
    split
    · exact .stores fun s => .clearRegister s r
    · exact .returns trivial
  refine .reads fun b _ => ?_
  split
  · exact .bind (.finds _) fun _ _ => finish _
  · exact finish false

theorem answerCall_hides {res : Option String} (allowed : ∀ name ∈ res, h.Allows site.table name) :
    Conceals site.table h (answerCall site res) := by
  cases res with
  | none => exact .returns trivial
  | some name =>
    have allowed := allowed name rfl
    exact .bind (.within (acquire_hides allowed _) _) fun r _ =>
      .bind (.emit (by simp)) fun _ _ => commit_hides allowed r

theorem call_hides {function : String} {res : Option String} (allowed : ∀ name ∈ res, h.Allows site.table name) :
    Conceals site.table h (call site function res) := by
  intro b u c hidden ran
  obtain ⟨_, _, b₁, b₂, b₃, b₄, _, _, _, passes, wrote, keeps, forgets, answers⟩ := call_steps ran
  have taken : Hidden site.table h { b with pending := [] } := { hidden with pending := by simp }
  obtain ⟨_, hidden₁, clean₁⟩ := passArguments_hides hidden.pending 0 _ _ _ taken passes
  obtain ⟨_, hidden₂, clean₂⟩ := writeBack_hides _ _ _ hidden₁ wrote
  obtain ⟨_, hidden₃, clean₃⟩ := Hides.forM (fun r _ => keep_hides r) _ _ _ hidden₂ keeps
  have jumps : Conceals site.table h (emitAll (jumpInstrs site.options (.jal function))) :=
    .emits (avoids_jump (by simp))
  obtain ⟨_, jumped, clean⟩ := jumps b₃ () _ hidden₃ (emitAll_ok.mpr rfl)
  obtain ⟨_, hidden₄, clean₄⟩ := Hides.forM (fun r _ => forget_hides r) _ _ _ jumped forgets
  obtain ⟨_, hidden₅, clean₅⟩ := answerCall_hides allowed _ _ _ hidden₄ answers
  have before : Avoids h.name b b₃ := (Avoids.trans clean₁ clean₂).trans clean₃
  exact ⟨trivial, hidden₅, ((before.trans clean).trans clean₄).trans clean₅⟩

theorem lower_hides {x : Instr} (allowed : ∀ n ∈ x.scalars, h.Allows site.table n) :
    Conceals site.table h (lower site x) := by
  have reads {y : Operand} (member : y ∈ x.operands) : ∀ n ∈ y.names, h.Allows site.table n :=
    fun n named => allowed n (x.mem_scalars_of_operand member named)
  have writes {n : String} (found : x.result? = some n) : h.Allows site.table n :=
    allowed n (x.mem_scalars_of_result found)
  cases x with
  | binary op left right res =>
    exact straight_hides
      (binary_hides (reads (by simp [Instr.operands])) (reads (by simp [Instr.operands])) (writes rfl))
  | unary op x res => exact straight_hides (unary_hides (reads (by simp [Instr.operands])) (writes rfl))
  | imm n res => exact straight_hides (immediate_hides n (writes rfl))
  | copy src res =>
    have source := reads (y := .variable src) (by simp [Instr.operands]) src (by simp [Operand.names])
    exact straight_hides (copy_hides source (writes rfl))
  | load array index res => exact straight_hides (loadElement_hides (reads (by simp [Instr.operands])) (writes rfl))
  | store array index value =>
    exact straight_hides (storeElement_hides (reads (by simp [Instr.operands])) (reads (by simp [Instr.operands])))
  | loadInd pointer res =>
    have source := allowed pointer (by simp [Instr.scalars, Instr.touches, Instr.base?])
    exact straight_hides (loadIndirect_hides source (writes rfl))
  | storeInd pointer value =>
    have source := allowed pointer (by simp [Instr.scalars, Instr.touches, Instr.base?])
    exact straight_hides (storeIndirect_hides source (reads (by simp [Instr.operands])))
  | param x => exact straight_hides (enqueue_hides (reads (by simp [Instr.operands])))
  | call function res => exact call_hides fun name found => writes found
  | branch cond ifTrue target => exact branch_hides (reads (by simp [Instr.operands])) ifTrue target
  | goto target => exact jump_hides target
  | ret x => exact ret_hides fun y found => reads (by simpa [Instr.operands] using found)
  | label l =>
    refine .bind flush_hides fun _ _ b u c hidden ran => ?_
    obtain rfl := modify_ok.mp ran
    exact ⟨trivial, hidden.update (.refl _) rfl rfl rfl, [.label l.name], by simp [Output.push],
      by simp⟩
  | nop => exact .returns trivial

end Steps

end Codegen

end ThreeAddress
