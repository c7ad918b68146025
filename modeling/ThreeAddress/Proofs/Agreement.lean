import ThreeAddress.Proofs.Semantics

/-! A machine agrees with the descriptors if every register and every valid home of a variable holds
its value. Moves keep a machine in agreement. -/
namespace ThreeAddress.Codegen

open Asm (Line Mem)
open Descriptor (Store Var Entry)

/-- A procedure on its way: its words of memory, with the spare words and outgoing slots that it
may use. -/
structure Activation where
  data : Data
  table : Scope
  function : Symbol
  layout : Frame.Layout
  sp : Word
  spares : Nat := 0
  outgoing : Nat := 0

namespace Activation

def address (A : Activation) : Mem → Option Word
  | .global name => (A.data name).bind Machine.aligned?
  | .offset bytes .sp => (Machine.immediate? bytes).bind fun k => Machine.aligned? (A.sp + k)
  | _ => none

/-- The address of a word that the procedure uses. -/
def slot (A : Activation) (s : Slot) : Option Word := A.address (s.word A.function A.layout)

/-- The words that the procedure uses. -/
def slots (A : Activation) : List Slot :=
  (scalarDecls A.function).map (.declared ·.name) ++
    ((A.table.symbols.map Symbol.name).filter (isGlobalScalar A.table)).map .global ++
    (List.range A.spares).map .spare ++
    (List.range A.outgoing).map .outgoing ++
    (List.range (saveSlots A.layout).length).map .saved ++
    (returnSlots A.layout).map fun _ => .returnAddress

def place (A : Activation) (name : String) : Place := placeOf A.table A.function name

/-- The words of the procedure are words of memory, no two of them the same. -/
structure Separate (A : Activation) : Prop where
  addressable : ∀ s ∈ A.slots, (A.slot s).isSome = true
  apart : ∀ s ∈ A.slots, ∀ t ∈ A.slots, A.slot s = A.slot t → s = t

end Activation

theorem isGlobalScalar_mem {table : Scope} {name : String} (global : isGlobalScalar table name = true) :
    name ∈ (table.symbols.map Symbol.name).filter (isGlobalScalar table) := by
  rw [List.mem_filter]
  refine ⟨?_, global⟩
  unfold isGlobalScalar at global
  cases found : table.lookup name with
  | none => simp [found] at global
  | some x =>
    have member := List.mem_of_find?_eq_some found
    have named := List.find?_some found
    exact List.mem_map.mpr ⟨x, member, by simpa using named⟩

variable {A : Activation}

theorem global_mem {name : String} (global : isGlobalScalar A.table name = true) :
    .global name ∈ A.slots := by
  have member := isGlobalScalar_mem global
  simp only [Activation.slots, List.append_assoc, List.mem_append]
  exact .inr (.inl (List.mem_map.mpr ⟨name, member, rfl⟩))

theorem HasSlot.mem {owners : List String} {name : String} {s : Slot}
    (slot : HasSlot A.table A.function owners name s) (few : owners.length ≤ A.spares) :
    s ∈ A.slots := by
  cases slot with
  | declared declared =>
    rw [placeOf_eq_frame] at declared
    obtain ⟨d, member, rfl⟩ := List.mem_map.mp declared
    simp only [Activation.slots, List.append_assoc, List.mem_append]
    exact .inl (List.mem_map.mpr ⟨d, member, rfl⟩)
  | global global => exact global_mem (isGlobalScalar_of_place global)
  | @spare i temporary owner =>
    have bound := (List.getElem?_eq_some_iff.mp owner).1
    simp only [Activation.slots, List.append_assoc, List.mem_append]
    exact .inr (.inr (.inl (List.mem_map.mpr ⟨i, List.mem_range.mpr (by omega), rfl⟩)))

theorem outgoing_mem {i : Nat} (bound : i < A.outgoing) : .outgoing i ∈ A.slots := by
  simp [Activation.slots, bound]

/-- Whether moves may write the word. -/
def Slot.isWritable (outgoing : Nat) : Slot → Bool
  | .declared _ => true
  | .global _ => true
  | .spare _ => true
  | .outgoing i => i < outgoing
  | .saved _ => false
  | .returnAddress => false

/-- The address of a word of the procedure is the same for every machine with its stack pointer. -/
theorem address?_of_address {m : Machine} {h : Mem} {a : Word} (sp : m.read .sp = A.sp)
    (address : A.address h = some a) : m.address? A.data h = some a := by
  unfold Activation.address at address
  split at address
  · exact address
  · rw [← sp] at address
    exact address
  · contradiction

/-- The machine agrees with the descriptors on what is tracked. Global variables that are not
mentioned yet are in their words. -/
structure Agrees (A : Activation) (tracked : Place → Prop) (s : Store Mem) (env : Env) (m : Machine) :
    Prop where
  sp : m.read .sp = A.sp
  regs : ∀ v e r, s.Has v e → tracked (A.place e.name) → r ∈ e.regs →
    m.read (.pool r) = env (A.place e.name)
  homes : ∀ v e h a, s.Has v e → tracked (A.place e.name) → e.homeValid = true → e.home = some h →
    A.address h = some a → m.mem a = env (A.place e.name)
  absent : ∀ name a, tracked (.global name) → isGlobalScalar A.table name = true →
    (∀ v e, s.Has v e → A.place e.name ≠ .global name) → A.slot (.global name) = some a →
    m.mem a = env (.global name)

/-- What moves leave alone. -/
structure Untouched (A : Activation) (limits : Limits) (m m' : Machine) : Prop where
  locked : ∀ r ∈ limits.locked, m'.read (.pool r) = m.read (.pool r)
  args : ∀ i, i ∉ limits.free → m'.read (.arg i) = m.read (.arg i)
  sp : m'.read .sp = m.read .sp
  ra : m'.read .ra = m.read .ra
  words : ∀ s ∈ A.slots, s.isWritable limits.outgoing = false → ∀ a, A.slot s = some a →
    m'.mem a = m.mem a

theorem Untouched.refl (limits : Limits) (m : Machine) : Untouched A limits m m :=
  ⟨fun _ _ => rfl, fun _ _ => rfl, rfl, rfl, fun _ _ _ _ _ => rfl⟩

theorem Untouched.trans {limits : Limits} {m₁ m₂ m₃ : Machine} (first : Untouched A limits m₁ m₂)
    (second : Untouched A limits m₂ m₃) : Untouched A limits m₁ m₃ :=
  ⟨fun r lock => (second.locked r lock).trans (first.locked r lock),
    fun i free => (second.args i free).trans (first.args i free),
    second.sp.trans first.sp, second.ra.trans first.ra,
    fun s member fixed a at_ => (second.words s member fixed a at_).trans (first.words s member fixed a at_)⟩

/-- The procedure that the generator is in is that of the activation. -/
structure Suits (A : Activation) (site : Site) (b : Body) : Prop where
  table : A.table = site.table
  function : A.function = b.function
  layout : A.layout = b.layout
  few : b.spare.owners.length ≤ A.spares
  sound : b.store.Sound
  housed : Housed site.table b
  separate : A.Separate

variable {site : Site} {limits : Limits} {b c : Body} {is : List Asm.Instr} {v w : Var}
variable {e f : Entry Mem} {tracked : Place → Prop} {env : Env} {m m' : Machine}

/-- Only the procedure, the words and the descriptors matter. -/
theorem Suits.update (suits : Suits A site b) (out : Output) (pending : List Operand) (reserved : List Reg)
    (returned : Bool) : Suits A site
      { b with out := out, pending := pending, reserved := reserved, returned := returned } :=
  ⟨suits.table, suits.function, suits.layout, suits.few, suits.sound, suits.housed, suits.separate⟩

theorem Moves.suits (moves : Moves site limits b is c) (suits : Suits A site b) : Suits A site c := by
  have same := moves.sameProcedure
  exact ⟨suits.table, suits.function.trans same.function.symm, suits.layout.trans same.layout.symm,
    same.spare ▸ suits.few, moves.sound suits.sound, moves.housed suits.sound suits.housed,
    suits.separate⟩

/-- The home of a variable is the word of its name, at an address of its own. -/
theorem Suits.home {h : Mem} (suits : Suits A site b) (known : b.store.Has v e)
    (place : e.home = some h) :
    ∃ s a, HasSlot A.table A.function b.spare.owners e.name s ∧ s ∈ A.slots ∧ A.slot s = some a ∧
      A.address h = some a := by
  obtain ⟨s, slot, word⟩ := suits.housed.home v e h known place
  rw [← suits.table, ← suits.function] at slot
  rw [← suits.function, ← suits.layout] at word
  have member := slot.mem suits.few
  obtain ⟨a, address⟩ := Option.isSome_iff_exists.mp (suits.separate.addressable s member)
  exact ⟨s, a, slot, member, address, word ▸ address⟩

theorem HasSlot.isWritable {owners : List String} {name : String} {s : Slot}
    (slot : HasSlot A.table A.function owners name s) (n : Nat) : s.isWritable n = true := by
  cases slot <;> rfl

theorem HasSlot.place_of_global {owners : List String} {m n : String}
    (slot : HasSlot A.table A.function owners m (.global n)) : A.place m = .global n := by
  cases slot with
  | global global => exact global

/-- A word of the procedure is stored. What agreed before agrees still if the value is right for
the variable that has the word, if one has it. -/
theorem Agrees.store_slot {s : Slot} {a x : Word} (agrees : Agrees A tracked b.store env m)
    (suits : Suits A site b) (member : s ∈ A.slots) (address : A.slot s = some a)
    (value : ∀ w f, b.store.Has w f → HasSlot A.table A.function b.spare.owners f.name s →
      tracked (A.place f.name) → x = env (A.place f.name))
    (mentioned : ∀ name, s = .global name → ∃ w f, b.store.Has w f ∧ A.place f.name = .global name) :
    Agrees A tracked b.store env (m.store a x) := by
  have apart {t : Slot} {y : Word} (inside : t ∈ A.slots) (at_ : A.slot t = some y) (other : t ≠ s) :
      y ≠ a := by
    rintro rfl
    exact other (suits.separate.apart t inside s member (at_.trans address.symm))
  constructor
  · rw [Machine.read_store]
    exact agrees.sp
  · intro w f r has track inside
    rw [Machine.read_store]
    exact agrees.regs w f r has track inside
  · intro w f h y has track valid place at_
    obtain ⟨t, y', slot, inside, at', found⟩ := suits.home has place
    cases Option.some.inj (at_.symm.trans found)
    rw [Machine.mem_store]
    split
    · rename_i same
      subst same
      have same : t = s := suits.separate.apart t inside s member (at'.trans address.symm)
      exact value w f has (same ▸ slot) track
    · exact agrees.homes w f h y has track valid place at_
  · intro name y track global unknown at_
    have other : Slot.global name ≠ s := by
      intro same
      obtain ⟨w, f, has, place⟩ := mentioned name same.symm
      exact unknown w f has place
    rw [Machine.mem_store, if_neg (apart (global_mem global) at_ other)]
    exact agrees.absent name y track global unknown at_

theorem Suits.untouched {s : Slot} {a : Word} (suits : Suits A site b) (member : s ∈ A.slots)
    (address : A.slot s = some a) (writable : s.isWritable limits.outgoing = true) (m : Machine)
    (x : Word) : Untouched A limits m (m.store a x) := by
  refine ⟨by simp, by simp, by simp, by simp, fun t inside fixed y at_ => ?_⟩
  rw [Machine.mem_store, if_neg]
  rintro rfl
  have same := suits.separate.apart t inside s member (at_.trans address.symm)
  rw [same, writable] at fixed
  contradiction

/-- A variable may get a home that holds its value. -/
theorem Agrees.rehome {s t : Store Mem} (agrees : Agrees A tracked s env m) (known : s.Has v e)
    (entry : ∀ w, t.get? w = if w = v then some f else s.get? w) (live : f.forgotten = false)
    (name : f.name = e.name) (regs : ∀ r, r ∈ f.regs → r ∈ e.regs)
    (value : tracked (A.place e.name) → ∀ h a, f.home = some h → A.address h = some a →
      m.mem a = env (A.place e.name)) :
    Agrees A tracked t env m := by
  refine ⟨agrees.sp, ?_, ?_, ?_⟩
  · rintro w g r ⟨found, alive⟩ track inside
    rw [entry] at found
    split at found
    · cases Option.some.inj found
      rw [name] at track ⊢
      exact agrees.regs v e r known track (regs r inside)
    · exact agrees.regs w g r ⟨found, alive⟩ track inside
  · rintro w g h a ⟨found, alive⟩ track valid place address
    rw [entry] at found
    split at found
    · cases Option.some.inj found
      rw [name] at track ⊢
      exact value track h a place address
    · exact agrees.homes w g h a ⟨found, alive⟩ track valid place address
  · intro name' a track global unknown address
    refine agrees.absent name' a track global (fun w g has => ?_) address
    by_cases same : w = v
    · subst same
      cases Option.some.inj (known.1.symm.trans has.1)
      exact name ▸ unknown w f ⟨by rw [entry, if_pos rfl], live⟩
    · exact unknown w g ⟨by rw [entry, if_neg same]; exact has.1, has.2⟩

/-- Descriptors that note fewer copies agree as well, if no global variable is forgotten. -/
theorem Agrees.weaken {s t : Store Mem} (agrees : Agrees A tracked s env m)
    (before : ∀ v f, t.Has v f → ∃ e, s.Has v e ∧ f.name = e.name ∧ f.home = e.home ∧
      (∀ r, r ∈ f.regs → r ∈ e.regs) ∧ (f.homeValid = true → e.homeValid = true))
    (after : ∀ v e name, s.Has v e → A.place e.name = .global name →
      ∃ w f, t.Has w f ∧ A.place f.name = .global name) :
    Agrees A tracked t env m := by
  refine ⟨agrees.sp, ?_, ?_, ?_⟩
  · intro v f r has track inside
    obtain ⟨e, known, name, _, fewer, _⟩ := before v f has
    rw [name] at track ⊢
    exact agrees.regs v e r known track (fewer r inside)
  · intro v f h a has track valid place address
    obtain ⟨e, known, name, home, _, less⟩ := before v f has
    rw [name] at track ⊢
    exact agrees.homes v e h a known track (less valid) (home ▸ place) address
  · intro name a track global unknown address
    refine agrees.absent name a track global (fun v e known place => ?_) address
    obtain ⟨w, f, has, same⟩ := after v e name known place
    exact unknown w f has same

/-! Moves on the machine -/

theorem isScratch_exec {free : List (Fin 8)} {data : Data} {x : Asm.Instr}
    (scratch : isScratch free x = true) (encodable : x.isEncodable = true) (m : Machine) :
    ∃ m', m.exec data x = some m' := by
  cases x with
  | alu | mv | nop => exact ⟨_, rfl⟩
  | aluImm op dst src imm | lui dst imm =>
    obtain ⟨k, read⟩ := Option.isSome_iff_exists.mp encodable
    simp [Machine.exec, read]
  | _ => simp [isScratch] at scratch

theorem isScratch_target {free : List (Fin 8)} {x : Asm.Instr} {q : MachineReg}
    (scratch : isScratch free x = true) (other : ∀ i ∈ free, q ≠ .arg i) : x.target? ≠ some q := by
  have differs {dst : MachineReg} {i : Fin 8} (same : dst = .arg i) (inside : i ∈ free) :
      some dst ≠ some q := by
    rintro equal
    exact other i inside (by rw [← Option.some.inj equal, same])
  cases x with
  | alu op dst _ _ =>
    cases dst <;> simp [isScratch] at scratch
    exact differs rfl scratch
  | aluImm op dst _ _ =>
    cases dst <;> simp [isScratch] at scratch
    exact differs rfl scratch
  | lui dst _ =>
    cases dst <;> simp [isScratch] at scratch
    exact differs rfl scratch
  | mv dst _ =>
    cases dst <;> simp [isScratch] at scratch
    exact differs rfl scratch
  | nop => simp [Asm.Instr.target?]
  | _ => simp [isScratch] at scratch

theorem scratch_run {free : List (Fin 8)} {data : Data} (m : Machine)
    (scratch : ∀ x ∈ is, isScratch free x = true) (encodable : ∀ x ∈ is, x.isEncodable = true) :
    ∃ m', m.execAll data is = some m' ∧ m'.mem = m.mem ∧
      ∀ q, (∀ i ∈ free, q ≠ .arg i) → m'.read q = m.read q := by
  have runs : ∃ m', m.execAll data is = some m' := by
    induction is generalizing m with
    | nil => exact ⟨m, rfl⟩
    | cons x is ih =>
      obtain ⟨m₁, first⟩ : ∃ m₁, m.exec data x = some m₁ :=
        isScratch_exec (scratch x (by simp)) (encodable x (by simp)) m
      obtain ⟨m₂, rest⟩ := ih m₁ (fun y member => scratch y (by simp [member]))
        (fun y member => encodable y (by simp [member]))
      exact ⟨m₂, by simp [Machine.execAll, first, rest]⟩
  obtain ⟨m', ran⟩ := runs
  refine ⟨m', ran, Machine.execAll_mem ran fun src dst member => ?_, fun q other => ?_⟩
  · simpa [isScratch] using scratch _ member
  · exact Machine.execAll_read ran fun x member => isScratch_target (scratch x member) other

theorem load_run {data : Data} {options : Options} {dst : MachineReg} {src : Mem} {a : Word}
    (m : Machine) (address : m.address? data src = some a) :
    m.execAll data (loadInstrs options dst src) = some (m.write dst (m.mem a)) := by
  unfold loadInstrs delay
  split
  · simp [Machine.execAll, Machine.exec, address, List.replicate]
  · simp [Machine.execAll, Machine.exec, address]

/-- Agreement is about the pool registers, the stack pointer and memory. -/
theorem Agrees.congr {s : Store Mem} (agrees : Agrees A tracked s env m) (mem : m'.mem = m.mem)
    (regs : ∀ r, m'.read (.pool r) = m.read (.pool r)) (sp : m'.read .sp = m.read .sp) :
    Agrees A tracked s env m' := by
  refine ⟨sp.trans agrees.sp, ?_, ?_, ?_⟩
  · intro v e r known track inside
    rw [regs]
    exact agrees.regs v e r known track inside
  · rw [mem]
    exact agrees.homes
  · rw [mem]
    exact agrees.absent

theorem Suits.place {name : String} (suits : Suits A site b) :
    A.place name = placeOf site.table b.function name := by
  rw [Activation.place, suits.table, suits.function]

/-- A global variable has a home. -/
theorem Suits.homed_of_global {name : String} (suits : Suits A site b) (known : b.store.Has v e)
    (global : A.place e.name = .global name) : e.home.isSome = true := by
  cases home : e.home with
  | some h => rfl
  | none =>
    have temporary := suits.housed.homeless v e known home
    rw [← suits.place, global] at temporary
    contradiction

/-- A global variable that is mentioned for the first time is valid in its word. -/
theorem Agrees.mention {name : String} (agrees : Agrees A tracked b.store env m)
    (unknown : b.store.lookup name = none) (global : A.place name = .global name) :
    Agrees A tracked (b.store.declare name (some (.global name))).2 env m := by
  have new := (Store.declare_of_new unknown (some (Mem.global name))).2
  have absent (v : Var) (e : Entry Mem) (known : b.store.Has v e) : A.place e.name ≠ .global name := by
    intro same
    have clash : e.name = name := placeOf_injective (same.trans global.symm)
    obtain ⟨w, found⟩ := Store.lookup_isSome known
    rw [clash, unknown] at found
    contradiction
  refine ⟨agrees.sp, ?_, ?_, ?_⟩
  · rintro v e r ⟨found, live⟩ track inside
    rw [new] at found
    split at found
    · cases Option.some.inj found
      exact absurd inside (KeySet.not_mem_empty r)
    · exact agrees.regs v e r ⟨found, live⟩ track inside
  · rintro v e h a ⟨found, live⟩ track valid place address
    rw [new] at found
    split at found
    · cases Option.some.inj found
      cases Option.some.inj place
      rw [global] at track ⊢
      exact agrees.absent name a track (isGlobalScalar_of_place global) absent address
    · exact agrees.homes v e h a ⟨found, live⟩ track valid place address
  · intro other a track scalar unknown' address
    refine agrees.absent other a track scalar (fun v e known => ?_) address
    refine unknown' v e ⟨?_, known.2⟩
    rw [new, if_neg (Nat.ne_of_lt (Store.get?_lt known.1))]
    exact known.1

/-- A register gets a value that is right for the variable that it holds afterwards. -/
theorem Agrees.write {r : Reg} {s t : Store Mem} (agrees : Agrees A tracked s env m)
    (mem : m'.mem = m.mem) (others : ∀ q, q ≠ .pool r → m'.read q = m.read q)
    (before : ∀ w f, t.Has w f → ∃ e, s.Has w e ∧ f.name = e.name ∧ f.home = e.home ∧
      (f.homeValid = true → e.homeValid = true) ∧
      (r ∈ f.regs → tracked (A.place f.name) → m'.read (.pool r) = env (A.place f.name)) ∧
      ∀ q, q ∈ f.regs → q ≠ r → q ∈ e.regs)
    (after : ∀ w e, s.Has w e → ∃ f, t.Has w f ∧ f.name = e.name) :
    Agrees A tracked t env m' := by
  refine ⟨(others .sp (by simp)).trans agrees.sp, ?_, ?_, ?_⟩
  · intro w f q known track inside
    obtain ⟨e, old, name, _, _, value, fewer⟩ := before w f known
    by_cases same : q = r
    · subst same
      exact value inside track
    · rw [others (.pool q) (by simpa using same), name]
      exact agrees.regs w e q old (name ▸ track) (fewer q inside same)
  · intro w f h a known track valid place address
    obtain ⟨e, old, name, home, less, _, _⟩ := before w f known
    rw [mem, name]
    exact agrees.homes w e h a old (name ▸ track) (less valid) (home ▸ place) address
  · intro name a track global unknown address
    rw [mem]
    refine agrees.absent name a track global (fun w e known => ?_) address
    obtain ⟨f, new, same⟩ := after w e known
    rw [← same]
    exact unknown w f new

/-- An empty register gets the value of a variable and is entered for it. -/
theorem Agrees.bind {r : Reg} {x : Word} {s : Store Mem} (agrees : Agrees A tracked s env m)
    (sound : s.Sound) (known : s.Has v e) (empty : ∀ w, w ∉ s.held r)
    (value : tracked (A.place e.name) → x = env (A.place e.name)) :
    Agrees A tracked (s.bind r v) env (m.write (.pool r) x) := by
  have entry (w : Var) : (s.bind r v).get? w =
      if w = v then some { e with regs := e.regs.insert r } else s.get? w := by
    rw [Store.get?_bind (fun w held => absurd held (empty w)), known.1]
    rfl
  refine agrees.write (Machine.mem_write ..) (fun q other => Machine.read_write_ne other _) ?_ ?_
  · rintro w f ⟨after, live⟩
    rw [entry] at after
    split at after
    · rename_i same
      subst same
      cases Option.some.inj after
      refine ⟨e, known, rfl, rfl, fun valid => valid, fun _ track => ?_, fun q inside other => ?_⟩
      · rw [Machine.read_write_pool]
        exact value track
      · exact (KeySet.mem_insert.mp inside).resolve_left other
    · refine ⟨f, ⟨after, live⟩, rfl, rfl, fun valid => valid, fun inside => ?_, fun _ inside _ => inside⟩
      exact absurd ((sound.listed r w).mpr ⟨f, after, inside⟩) (empty w)
  · intro w f has
    by_cases same : w = v
    · subst same
      cases Option.some.inj (known.1.symm.trans has.1)
      exact ⟨{ e with regs := e.regs.insert r }, ⟨by rw [entry, if_pos rfl], known.2⟩, rfl⟩
    · exact ⟨f, ⟨by rw [entry, if_neg same]; exact has.1, has.2⟩, rfl⟩

/-- A variable is stored from its register to its home. -/
theorem Agrees.save {r : Reg} {home : Mem} (agrees : Agrees A tracked b.store env m)
    (suits : Suits A site b) (known : b.store.Has v e) (listed : r ∈ e.regs) (place : e.home = some home) :
    ∃ m', m.execAll A.data [.sw (.pool r) home] = some m' ∧
      Agrees A tracked (b.store.markStored v) env m' ∧ Untouched A limits m m' := by
  obtain ⟨s, a, slot, member, address, found⟩ := suits.home known place
  have value (w : Var) (f : Entry Mem) (has : b.store.Has w f)
      (same : HasSlot A.table A.function b.spare.owners f.name s) (track : tracked (A.place f.name)) :
      m.read (.pool r) = env (A.place f.name) := by
    cases suits.sound.unique w v f e has known (same.injective slot)
    cases Option.some.inj (has.1.symm.trans known.1)
    exact agrees.regs v e r known track listed
  have stored := agrees.store_slot suits member address value ?_
  · refine ⟨m.store a (m.read (.pool r)), ?_, ?_, suits.untouched member address (slot.isWritable _) m _⟩
    · exact Machine.execAll_one (by simp [Machine.exec, address?_of_address agrees.sp found])
    · refine stored.rehome (f := e.markStored) known (fun w => ?_) known.2 rfl (fun _ inside => inside)
        fun track h a' place' address' => ?_
      · simp only [Store.get?_markStored, known.1, Option.map_some]
      · cases Option.some.inj (place.symm.trans place')
        cases Option.some.inj (found.symm.trans address')
        rw [Machine.mem_store, if_pos rfl]
        exact value v e known slot track
  · rintro name rfl
    exact ⟨v, e, known, slot.place_of_global⟩

/-- No variable lives in an outgoing slot, so a store to it changes no value. -/
theorem Agrees.store_outgoing {i : Nat} (agrees : Agrees A tracked b.store env m) (suits : Suits A site b)
    (bound : i < A.outgoing) (x : MachineReg) :
    ∃ a, A.slot (.outgoing i) = some a ∧
      m.execAll A.data [.sw x (frameWord (b.layout.outgoingOffset (Int64.ofNat i)))] =
        some (m.store a (m.read x)) ∧
      Agrees A tracked b.store env (m.store a (m.read x)) := by
  have member : Slot.outgoing i ∈ A.slots := outgoing_mem bound
  obtain ⟨a, address⟩ := Option.isSome_iff_exists.mp (suits.separate.addressable _ member)
  have found : m.address? A.data (frameWord (b.layout.outgoingOffset (Int64.ofNat i))) = some a := by
    rw [← suits.layout]
    exact address?_of_address agrees.sp address
  refine ⟨a, address, Machine.execAll_one (by simp [Machine.exec, found]), ?_⟩
  refine agrees.store_slot suits member address (fun w f has slot => ?_) (fun name same => ?_)
  · cases slot
  · contradiction

/-- Moves whose instructions only compute into free argument registers. -/
theorem Agrees.scratch {s : Store Mem} (agrees : Agrees A tracked s env m)
    (mem : m'.mem = m.mem) (others : ∀ q, (∀ i ∈ limits.free, q ≠ .arg i) → m'.read q = m.read q) :
    Agrees A tracked s env m' ∧ Untouched A limits m m' := by
  have fixed (q : MachineReg) (other : ∀ i, q ≠ .arg i) : m'.read q = m.read q :=
    others q fun i _ => other i
  constructor
  · exact agrees.congr mem (fun r => fixed _ (by simp)) (fixed _ (by simp))
  · refine ⟨fun r _ => fixed _ (by simp), fun i free => ?_, fixed _ (by simp), fixed _ (by simp), ?_⟩
    · exact others _ fun j member same => free (MachineReg.arg.inj same ▸ member)
    · intro _ _ _ _ _
      rw [mem]

theorem Move.run (move : Move site limits b is c) (suits : Suits A site b)
    (slots : limits.outgoing ≤ A.outgoing) (encodable : ∀ x ∈ is, x.isEncodable = true)
    (agrees : Agrees A tracked b.store env m) :
    ∃ m', m.execAll A.data is = some m' ∧ Agrees A tracked c.store env m' ∧ Untouched A limits m m' := by
  have sound := suits.sound
  have global (v : Var) (e : Entry Mem) (name : String) (known : b.store.Has v e)
      (place : A.place e.name = .global name) : ∃ w f, c.store.Has w f ∧ A.place f.name = .global name := by
    obtain ⟨f, after, same, _⟩ :=
      (Moves.one move).homed_stays sound known (suits.homed_of_global known place)
    exact ⟨v, f, after, same ▸ place⟩
  cases move with
  | @mention name x unknown symbol scalar =>
    refine ⟨m, rfl, agrees.mention unknown ?_, .refl _ m⟩
    rw [suits.place]
    exact suits.housed.global_of_unknown unknown symbol scalar
  | reserve => exact ⟨m, rfl, agrees, .refl _ m⟩
  | @save v e r home entry listed place =>
    exact agrees.save suits (sound.known_of_reg entry listed) listed place
  | @clear r free kept =>
    refine ⟨m, rfl, agrees.weaken (fun v f after => ?_) global, .refl _ m⟩
    rcases sound.entry_cleared after.1 with before | ⟨e, known, _, rfl⟩
    · exact ⟨f, ⟨before, after.2⟩, rfl, rfl, fun _ member => member, fun valid => valid⟩
    · exact ⟨e, known, e.name_without r, e.home_without r, fun q member => (Entry.mem_without.mp member).1,
        fun valid => e.homeValid_without r ▸ valid⟩
  | @load v e r home free known valid place nowhere empty usable =>
    obtain ⟨s, a, _, _, _, found⟩ := suits.home known place
    have others (q : MachineReg) (other : q ≠ .pool r) : (m.write (.pool r) (m.mem a)).read q = m.read q :=
      Machine.read_write_ne other _
    refine ⟨m.write (.pool r) (m.mem a), load_run m (address?_of_address agrees.sp found), ?_, ?_⟩
    · exact agrees.bind sound known empty fun track => agrees.homes v e home a known track valid place found
    · refine ⟨fun q lock => others _ ?_, fun i _ => others _ (by simp), others _ (by simp),
        others _ (by simp), fun _ _ _ _ _ => rfl⟩
      rintro same
      exact free (MachineReg.pool.inj same ▸ lock)
  | scratch plain =>
    obtain ⟨m', ran, mem, others⟩ : ∃ m', m.execAll A.data is = some m' ∧ _ :=
      scratch_run m plain encodable
    exact ⟨m', ran, agrees.scratch mem others⟩
  | @fetch v e i home free known valid place =>
    obtain ⟨s, a, _, _, _, found⟩ := suits.home known place
    refine ⟨_, load_run m (address?_of_address agrees.sp found), ?_⟩
    exact agrees.scratch (Machine.mem_write ..) fun q other => Machine.read_write_ne (other i free) _
  | @pass x i bound =>
    have inside := Nat.lt_of_lt_of_le bound slots
    obtain ⟨a, address, ran, agrees'⟩ := agrees.store_outgoing suits inside x
    have writable : (Slot.outgoing i).isWritable limits.outgoing = true := by
      simpa [Slot.isWritable] using bound
    exact ⟨_, ran, agrees', suits.untouched (outgoing_mem inside) address writable m _⟩
  | @evict v e r free known valid =>
    refine ⟨m, rfl, agrees.weaken (fun w f after => ?_) global, .refl _ m⟩
    obtain ⟨found, live⟩ := after
    rw [Store.get?_unbind] at found
    split at found
    · rename_i same
      subst same
      rw [known.1, Option.map_some] at found
      cases Option.some.inj found
      exact ⟨e, known, rfl, rfl, fun q member => (KeySet.mem_erase.mp member).1, fun valid => valid⟩
    · exact ⟨f, ⟨found, live⟩, rfl, rfl, fun _ member => member, fun valid => valid⟩
  | warn => exact ⟨m, rfl, agrees, .refl _ m⟩

/-- Moves take the machine from agreement to agreement. -/
theorem Moves.run (moves : Moves site limits b is c) (suits : Suits A site b)
    (slots : limits.outgoing ≤ A.outgoing) (encodable : ∀ x ∈ is, x.isEncodable = true)
    (agrees : Agrees A tracked b.store env m) :
    ∃ m', m.execAll A.data is = some m' ∧ Agrees A tracked c.store env m' ∧ Untouched A limits m m' := by
  induction moves with
  | refl => exact ⟨m, rfl, agrees, .refl _ m⟩
  | step before move ih =>
    obtain ⟨m₁, first, middle, fixed⟩ := ih fun x member => encodable x (by simp [member])
    obtain ⟨m₂, second, agrees, fixed'⟩ :=
      move.run (before.suits suits) slots (fun x member => encodable x (by simp [member])) middle
    exact ⟨m₂, Machine.execAll_trans first second, agrees, fixed.trans fixed'⟩

end ThreeAddress.Codegen
