import ThreeAddress.Proofs.Execution

/-! Entry and exit of procedures on the machine. The prologue brings the machine into agreement
with the first descriptors of the procedure, and the epilogue gives the caller's registers back. -/
namespace ThreeAddress

/-- The register in which an argument of the name arrives. -/
def Symbol.argument? (f : Symbol) (name : String) : Option MachineReg :=
  (f.paramIndex? name).bind MachineReg.argument?

theorem nodup_of_repeatedName? {seen names : List String} (none : repeatedName? seen names = none) :
    names.Nodup ∧ ∀ n ∈ names, n ∉ seen := by
  induction names generalizing seen with
  | nil => simp
  | cons name names ih =>
    simp only [repeatedName?] at none
    split at none
    · contradiction
    · rename_i fresh
      obtain ⟨nodup, apart⟩ := ih none
      refine ⟨List.nodup_cons.mpr ⟨fun member => apart name member (by simp), nodup⟩, fun n member => ?_⟩
      rcases List.mem_cons.mp member with rfl | member
      · exact fresh
      · exact fun inside => apart n member (by simp [inside])

/-- A table that is made by adding symbols has no two declarations of one name in a function. -/
theorem Scope.nodup_of_insertAll {t table : Scope} {symbols : List Symbol}
    (built : t.insertAll symbols = .ok table)
    (before : ∀ f ∈ t.symbols, ((f.params ++ f.locals).map Decl.name).Nodup) :
    ∀ f ∈ table.symbols, ((f.params ++ f.locals).map Decl.name).Nodup := by
  induction symbols generalizing t with
  | nil =>
    cases Except.ok.inj built
    exact before
  | cons s symbols ih =>
    obtain ⟨next, inserted, rest⟩ := Codegen.except_bind_ok.mp built
    refine ih rest ?_
    unfold Scope.insert at inserted
    split at inserted
    · simp [inContext, fail] at inserted
    · split at inserted
      · simp [inContext, fail] at inserted
      · rename_i fresh
        cases Except.ok.inj inserted
        intro f member
        rcases List.mem_append.mp member with member | member
        · exact before f member
        · rw [List.mem_singleton.mp member]
          exact (nodup_of_repeatedName? fresh).1

theorem find?_of_nodup {α : Type} {key : α → String} {xs : List α} {x : α}
    (nodup : (xs.map key).Nodup) (member : x ∈ xs) : xs.find? (key · = key x) = some x := by
  induction xs with
  | nil => simp at member
  | cons y xs ih =>
    obtain ⟨fresh, nodup⟩ := List.nodup_cons.mp nodup
    rcases List.mem_cons.mp member with rfl | member
    · simp
    · have other : key y ≠ key x := fun same => fresh (same ▸ List.mem_map_of_mem member)
      simpa [other] using ih nodup member

theorem map_snd_zip_sublist {α β : Type} (xs : List α) (ys : List β) :
    ((xs.zip ys).map Prod.snd).Sublist ys := by
  induction xs generalizing ys with
  | nil => simp
  | cons x xs ih =>
    cases ys with
    | nil => simp
    | cons y ys => exact (ih ys).cons_cons y

namespace Codegen

open Asm (Line Mem)
open Descriptor (Store Var Entry)

/-! Stores and loads of slots -/

variable {A : Activation} {m m' : Machine}

/-- Registers are stored to different words of the procedure. -/
theorem stores_run {pairs : List (MachineReg × Slot)} (separate : A.Separate)
    (inside : ∀ p ∈ pairs, p.2 ∈ A.slots) (nodup : (pairs.map Prod.snd).Nodup)
    (sp : m.read .sp = A.sp) :
    ∃ m', m.execAll A.data (pairs.map fun p => .sw p.1 (p.2.word A.function A.layout)) = some m' ∧
      (∀ q, m'.read q = m.read q) ∧
      (∀ p ∈ pairs, ∀ a, A.slot p.2 = some a → m'.mem a = m.read p.1) ∧
      ∀ s ∈ A.slots, s ∉ pairs.map Prod.snd → ∀ a, A.slot s = some a → m'.mem a = m.mem a := by
  induction pairs generalizing m with
  | nil => exact ⟨m, rfl, fun _ => rfl, by simp, fun _ _ _ _ _ => rfl⟩
  | cons p pairs ih =>
    obtain ⟨fresh, nodup⟩ := List.nodup_cons.mp nodup
    have member := inside p (by simp)
    obtain ⟨a, address⟩ := Option.isSome_iff_exists.mp (separate.addressable _ member)
    obtain ⟨m', ran, regs, stored, others⟩ := ih (m := m.store a (m.read p.1))
      (fun q inner => inside q (by simp [inner])) nodup (by simpa using sp)
    refine ⟨m', ?_, fun q => (regs q).trans (by simp), fun q inner x at_ => ?_, fun s used apart x at_ => ?_⟩
    · have first : m.exec A.data (.sw p.1 (p.2.word A.function A.layout)) =
          some (m.store a (m.read p.1)) := by
        simp [Machine.exec, address?_of_address sp address]
      simp only [List.map_cons, Machine.execAll, first]
      exact ran
    · rcases List.mem_cons.mp inner with rfl | inner
      · cases Option.some.inj (address.symm.trans at_)
        rw [others q.2 member fresh a address, Machine.mem_store, if_pos rfl]
      · rw [stored q inner x at_, Machine.read_store]
    · simp only [List.map_cons, List.mem_cons, not_or] at apart
      rw [others s used apart.2 x at_, Machine.mem_store, if_neg]
      rintro rfl
      exact apart.1 (separate.apart s used p.2 member (at_.trans address.symm))

/-- Registers are loaded from words of the procedure. -/
theorem loads_run (options : Options) {pairs : List (MachineReg × Slot)} (separate : A.Separate)
    (inside : ∀ p ∈ pairs, p.2 ∈ A.slots) (nodup : (pairs.map Prod.fst).Nodup)
    (plain : ∀ p ∈ pairs, p.1 ≠ .zero ∧ p.1 ≠ .sp) (sp : m.read .sp = A.sp) :
    ∃ m', m.execAll A.data
        (pairs.flatMap fun p => loadInstrs options p.1 (p.2.word A.function A.layout)) = some m' ∧
      m'.mem = m.mem ∧ (∀ p ∈ pairs, ∀ a, A.slot p.2 = some a → m'.read p.1 = m.mem a) ∧
      ∀ q, q ∉ pairs.map Prod.fst → m'.read q = m.read q := by
  induction pairs generalizing m with
  | nil => exact ⟨m, rfl, rfl, by simp, fun _ _ => rfl⟩
  | cons p pairs ih =>
    obtain ⟨fresh, nodup⟩ := List.nodup_cons.mp nodup
    obtain ⟨real, other⟩ := plain p (by simp)
    obtain ⟨a, address⟩ := Option.isSome_iff_exists.mp (separate.addressable _ (inside p (by simp)))
    have keeps : (m.write p.1 (m.mem a)).read .sp = A.sp :=
      (Machine.read_write_ne (Ne.symm other) _).trans sp
    obtain ⟨m', ran, mem, loaded, others⟩ := ih (m := m.write p.1 (m.mem a))
      (fun q inner => inside q (by simp [inner])) nodup (fun q inner => plain q (by simp [inner])) keeps
    refine ⟨m', ?_, mem, fun q inner x at_ => ?_, fun q apart => ?_⟩
    · rw [List.flatMap_cons]
      exact Machine.execAll_trans (load_run m (address?_of_address sp address)) ran
    · rcases List.mem_cons.mp inner with rfl | inner
      · cases Option.some.inj (address.symm.trans at_)
        rw [others q.1 fresh, Machine.read_write, if_pos ⟨rfl, real⟩]
      · exact loaded q inner x at_
    · simp only [List.map_cons, List.mem_cons, not_or] at apart
      rw [others q apart.2, Machine.read_write_ne apart.1]

/-! What a procedure stores at its entry -/

/-- The saved registers with the words that keep them. -/
def savedPairs (l : Frame.Layout) : List (MachineReg × Slot) :=
  (Reg.savedRegs.take l.savedCount.toInt.toNat).zipIdx.map fun (r, k) => (.pool r, .saved k)

def returnPairs (l : Frame.Layout) : List (MachineReg × Slot) :=
  if l.leaf then [] else [(.ra, .returnAddress)]

/-- The argument registers with the words of their parameters. -/
def argumentPairs (f : Symbol) : List (MachineReg × Slot) :=
  (MachineReg.argumentRegs.zip f.params).map fun (r, d) => (r, .declared d.name)

theorem saveSlots_eq (f : Symbol) (l : Frame.Layout) :
    saveSlots l = (savedPairs l).map fun p => (p.1, p.2.word f l) := by
  simp [saveSlots, savedPairs, Slot.word, Function.comp_def]

theorem returnSlots_eq (f : Symbol) (l : Frame.Layout) :
    returnSlots l = (returnPairs l).map fun p => (p.1, p.2.word f l) := by
  unfold returnSlots returnPairs
  split <;> simp [Slot.word]

theorem word_declared {f : Symbol} {l : Frame.Layout} {x : Decl × Int64}
    (names : ((f.params ++ f.locals).map Decl.name).Nodup) (member : x ∈ scalarPlaces l f) :
    (Slot.declared x.1.name).word f l = frameWord x.2 := by
  have sublist : (scalarDecls f).Sublist (f.params ++ f.locals) :=
    List.Sublist.append (List.Sublist.refl _) List.filter_sublist
  have nodup : ((scalarPlaces l f).reverse.map (·.1.name)).Nodup := by
    have plain := names.sublist (sublist.map Decl.name)
    rw [← map_scalarPlaces l f, List.map_map] at plain
    rw [List.map_reverse]
    exact List.pairwise_reverse.mpr (plain.imp Ne.symm)
  have found := find?_of_nodup nodup (List.mem_reverse.mpr member)
  simp only [Slot.word, found]

theorem argumentSlots_eq {f : Symbol} (l : Frame.Layout)
    (names : ((f.params ++ f.locals).map Decl.name).Nodup) :
    (MachineReg.argumentRegs.take f.params.length).zipIdx.map
        (fun (r, i) => (r, frameWord (l.paramOffset (Int64.ofNat i)))) =
      (argumentPairs f).map fun p => (p.1, p.2.word f l) := by
  apply List.ext_getElem?
  intro i
  by_cases bound : i < f.params.length
  · have placed : (f.params[i], l.paramOffset (Int64.ofNat i)) ∈ scalarPlaces l f := by
      refine List.mem_append_left _ (List.mem_map.mpr ⟨(f.params[i], i), ?_, rfl⟩)
      exact List.mk_mem_zipIdx_iff_getElem?.mpr (List.getElem?_eq_getElem bound)
    have word := word_declared names placed
    simp only [argumentPairs, List.getElem?_map, List.getElem?_zipIdx, List.getElem?_take, bound, if_true,
      List.zip, List.getElem?_zipWith, List.getElem?_eq_getElem bound]
    cases MachineReg.argumentRegs[i]? with
    | none => rfl
    | some r => simp [word]
  · simp only [argumentPairs, List.getElem?_map, List.getElem?_zipIdx, List.getElem?_take, bound, if_false,
      List.zip, List.getElem?_zipWith, List.getElem?_eq_none (Nat.le_of_not_lt bound)]
    cases MachineReg.argumentRegs[i]? <;> rfl

theorem prologue_eq {f : Symbol} (l : Frame.Layout)
    (names : ((f.params ++ f.locals).map Decl.name).Nodup) :
    prologue l f.params.length = adjustStack l (-l.bytes) ++
      (returnPairs l ++ savedPairs l ++ argumentPairs f).map fun p => .sw p.1 (p.2.word f l) := by
  unfold prologue
  dsimp only
  rw [argumentSlots_eq l names, saveSlots_eq f l, returnSlots_eq f l, ← List.map_append,
    ← List.map_append, List.map_map]
  rfl

theorem epilogue_eq (options : Options) (f : Symbol) (l : Frame.Layout) :
    epilogue options l =
      ((savedPairs l ++ returnPairs l).flatMap fun p => loadInstrs options p.1 (p.2.word f l)) ++
        adjustStack l l.bytes ++ jumpInstrs options (.jr .ra) := by
  unfold epilogue
  rw [saveSlots_eq f l, returnSlots_eq f l, ← List.map_append, List.flatMap_map]

/-- The size of the frame is an immediate, and so is its negation. -/
def Activation.Fits (A : Activation) : Prop :=
  (Machine.immediate? A.layout.bytes.toInt).isSome = true ∧
    (Machine.immediate? (-A.layout.bytes).toInt).isSome = true

theorem immediate?_eq_some {n : Int} (some : (Machine.immediate? n).isSome = true) :
    Machine.immediate? n = .some (BitVec.ofInt 32 n) := by
  unfold Machine.immediate? at *
  split
  · rfl
  · rename_i out
    rw [if_neg out] at some
    contradiction

theorem adjust_run {data : Data} {l : Frame.Layout} {n : Int64} (m : Machine)
    (some : (Machine.immediate? n.toInt).isSome = true) (none : l.totalWords = 0 → n = 0) :
    ∃ m', m.execAll data (adjustStack l n) = .some m' ∧ m'.mem = m.mem ∧
      m'.read .sp = m.read .sp + BitVec.ofInt 32 n.toInt ∧ ∀ q, q ≠ .sp → m'.read q = m.read q := by
  unfold adjustStack
  split
  · rename_i empty
    refine ⟨m, rfl, rfl, ?_, fun _ _ => rfl⟩
    rw [none empty]
    simp
  · refine ⟨m.write .sp (m.read .sp + BitVec.ofInt 32 n.toInt), ?_, rfl, ?_, fun q other => ?_⟩
    · exact Machine.execAll_one (by simp [Machine.exec, immediate?_eq_some some, Asm.ImmOp.eval])
    · simp [Machine.read_write]
    · exact Machine.read_write_ne other _

theorem bytes_of_empty {l : Frame.Layout} (empty : l.totalWords = 0) : l.bytes = 0 := by
  rw [Frame.Layout.bytes, empty]
  rfl

/-- The negated size takes back what the size adds. -/
theorem Activation.Fits.neg (fits : A.Fits) :
    BitVec.ofInt 32 (-A.layout.bytes).toInt = -BitVec.ofInt 32 A.layout.bytes.toInt := by
  have range : -2 ^ 31 ≤ A.layout.bytes.toInt ∧ A.layout.bytes.toInt < 2 ^ 31 := by
    have some := fits.1
    unfold Machine.immediate? at some
    split at some
    · assumption
    · contradiction
  have opposite : (-A.layout.bytes).toInt = -A.layout.bytes.toInt := by
    rw [Int64.toInt_neg]
    exact Int.bmod_eq_of_le (by omega) (by omega)
  rw [opposite, BitVec.ofInt_neg]

/-- A procedure is called: the machine has its arguments and memory, the environment gives them to
the names, and the stack pointer is still the caller's. -/
structure Activation.Enters (A : Activation) (m : Machine) (env : Env) : Prop where
  sp : A.sp = m.read .sp - BitVec.ofInt 32 A.layout.bytes.toInt
  frame : ∀ name a, A.place name = .frame name → A.slot (.declared name) = some a →
    env (.frame name) = (A.function.argument? name).elim (m.mem a) m.read
  globals : ∀ name a, isGlobalScalar A.table name = true → A.slot (.global name) = some a →
    env (.global name) = m.mem a

/-- The frame keeps what the registers held in another machine. -/
def Activation.Keeps (A : Activation) (m₀ m : Machine) : Prop :=
  ∀ p ∈ savedPairs A.layout ++ returnPairs A.layout, ∀ a, A.slot p.2 = some a → m.mem a = m₀.read p.1

theorem mem_argumentPairs {f : Symbol} {name : String} {r : MachineReg}
    (arrives : f.argument? name = some r) : (r, .declared name) ∈ argumentPairs f := by
  obtain ⟨i, index, register⟩ := Option.bind_eq_some_iff.mp arrives
  obtain ⟨bound, same, _⟩ := List.findIdx?_eq_some_iff_getElem.mp index
  refine List.mem_map.mpr ⟨(r, f.params[i]), ?_, ?_⟩
  · refine List.mem_of_getElem? (i := i) (List.getElem?_zip_eq_some.mpr ⟨register, ?_⟩)
    exact List.getElem?_eq_getElem bound
  · simp only [decide_eq_true_eq] at same
    simp only [same]

theorem argument?_isSome {f : Symbol} {name : String} {r : MachineReg}
    (member : (r, .declared name) ∈ argumentPairs f) : (f.argument? name).isSome = true := by
  obtain ⟨⟨q, d⟩, zipped, same⟩ := List.mem_map.mp member
  cases same
  obtain ⟨i, found⟩ := List.mem_iff_getElem?.mp zipped
  obtain ⟨register, parameter⟩ := List.getElem?_zip_eq_some.mp found
  obtain ⟨bound, rfl⟩ := List.getElem?_eq_some_iff.mp parameter
  obtain ⟨few, _⟩ := List.getElem?_eq_some_iff.mp register
  cases index : f.paramIndex? f.params[i].name with
  | none =>
    have absent := List.findIdx?_eq_none_iff.mp index f.params[i] (List.getElem_mem bound)
    simp at absent
  | some j =>
    -- the first parameter of the name comes no later
    obtain ⟨_, _, first⟩ := List.findIdx?_eq_some_iff_getElem.mp index
    have early : j ≤ i := by
      refine Nat.le_of_not_lt fun later => ?_
      have wrong := first i later
      simp at wrong
    have inside : j < MachineReg.argumentRegs.length := Nat.lt_of_le_of_lt early few
    simp [Symbol.argument?, index, MachineReg.argument?, inside]

/-- What the prologue stores. -/
def entryPairs (f : Symbol) (l : Frame.Layout) : List (MachineReg × Slot) :=
  returnPairs l ++ savedPairs l ++ argumentPairs f

theorem mem_returnPairs {l : Frame.Layout} {p : MachineReg × Slot} :
    p ∈ returnPairs l ↔ l.leaf = false ∧ p = (.ra, .returnAddress) := by
  unfold returnPairs
  split <;> simp [*]

theorem savedPairs_cases {l : Frame.Layout} {p : MachineReg × Slot} (member : p ∈ savedPairs l) :
    ∃ r k, p = (.pool r, .saved k) ∧ k < (saveSlots l).length := by
  obtain ⟨⟨r, k⟩, inside, rfl⟩ := List.mem_map.mp member
  have found := List.mk_mem_zipIdx_iff_getElem?.mp inside
  have less := (List.getElem?_eq_some_iff.mp found).1
  exact ⟨r, k, rfl, by simpa [saveSlots] using less⟩

theorem argumentPairs_cases {f : Symbol} {p : MachineReg × Slot} (member : p ∈ argumentPairs f) :
    ∃ i d, p = (.arg i, .declared d.name) ∧ d ∈ f.params := by
  obtain ⟨⟨r, d⟩, zipped, rfl⟩ := List.mem_map.mp member
  obtain ⟨register, parameter⟩ := List.of_mem_zip zipped
  have argument : ∀ q ∈ MachineReg.argumentRegs, ∃ i, q = .arg i := by
    simp [MachineReg.argumentRegs]
  obtain ⟨i, rfl⟩ := argument r register
  exact ⟨i, d, rfl, parameter⟩

theorem entryPairs_cases {f : Symbol} {l : Frame.Layout} {p : MachineReg × Slot}
    (member : p ∈ entryPairs f l) :
    l.leaf = false ∧ p = (.ra, .returnAddress) ∨
      (∃ r k, p = (.pool r, .saved k) ∧ k < (saveSlots l).length) ∨
      ∃ i d, p = (.arg i, .declared d.name) ∧ d ∈ f.params := by
  simp only [entryPairs, List.mem_append] at member
  rcases member with (member | member) | member
  · exact .inl (mem_returnPairs.mp member)
  · exact .inr (.inl (savedPairs_cases member))
  · exact .inr (.inr (argumentPairs_cases member))

theorem entryPairs_mem {p : MachineReg × Slot} (member : p ∈ entryPairs A.function A.layout) :
    p.2 ∈ A.slots := by
  rcases entryPairs_cases member with ⟨calls, rfl⟩ | ⟨r, k, rfl, bound⟩ | ⟨i, d, rfl, parameter⟩
  · simp [Activation.slots, returnSlots, calls]
  · simp [Activation.slots, bound]
  · simp only [Activation.slots, List.append_assoc, List.mem_append]
    exact .inl (List.mem_map.mpr ⟨d, List.mem_append_left _ parameter, rfl⟩)

theorem savedPairs_nodup (l : Frame.Layout) :
    ((savedPairs l).map Prod.fst).Nodup ∧ ((savedPairs l).map Prod.snd).Nodup := by
  have registers : (savedPairs l).map Prod.fst =
      (Reg.savedRegs.take l.savedCount.toInt.toNat).map MachineReg.pool := by
    rw [← List.zipIdx_map_fst 0 (Reg.savedRegs.take l.savedCount.toInt.toNat), List.map_map]
    simp only [savedPairs, List.map_map]
    rfl
  have words : (savedPairs l).map Prod.snd =
      ((Reg.savedRegs.take l.savedCount.toInt.toNat).zipIdx.map Prod.snd).map Slot.saved := by
    simp only [savedPairs, List.map_map]
    rfl
  constructor
  · have saved : Reg.savedRegs.Nodup := by decide
    rw [registers]
    exact List.Pairwise.map MachineReg.pool (fun q r other same => other (MachineReg.pool.inj same))
      (saved.sublist (List.take_sublist _ _))
  · rw [words, List.zipIdx_map_snd]
    exact List.Pairwise.map Slot.saved (fun j k other same => other (Slot.saved.inj same))
      (List.nodup_range' 1)

theorem argumentPairs_nodup {f : Symbol} (names : ((f.params ++ f.locals).map Decl.name).Nodup) :
    ((argumentPairs f).map Prod.snd).Nodup := by
  have words : (argumentPairs f).map Prod.snd =
      (((MachineReg.argumentRegs.zip f.params).map Prod.snd).map Decl.name).map Slot.declared := by
    simp only [argumentPairs, List.map_map]
    rfl
  rw [List.map_append] at names
  have params := (List.nodup_append.mp names).1
  have plain := params.sublist ((map_snd_zip_sublist MachineReg.argumentRegs f.params).map Decl.name)
  rw [words]
  exact List.Pairwise.map Slot.declared (fun x y other same => other (Slot.declared.inj same)) plain

theorem entryPairs_nodup {f : Symbol} (l : Frame.Layout)
    (names : ((f.params ++ f.locals).map Decl.name).Nodup) : ((entryPairs f l).map Prod.snd).Nodup := by
  have single : ((returnPairs l).map Prod.snd).Nodup := by
    unfold returnPairs
    split <;> simp
  rw [entryPairs, List.map_append, List.map_append]
  refine List.nodup_append.mpr ⟨List.nodup_append.mpr ⟨single, (savedPairs_nodup l).2, ?_⟩,
    argumentPairs_nodup names, ?_⟩
  · intro s left t right
    obtain ⟨p, first, rfl⟩ := List.mem_map.mp left
    obtain ⟨q, second, rfl⟩ := List.mem_map.mp right
    obtain ⟨_, rfl⟩ := mem_returnPairs.mp first
    obtain ⟨r, k, rfl, _⟩ := savedPairs_cases second
    simp
  · intro s left t right
    obtain ⟨q, second, rfl⟩ := List.mem_map.mp right
    obtain ⟨i, d, rfl, _⟩ := argumentPairs_cases second
    rcases List.mem_append.mp left with left | left
    · obtain ⟨p, first, rfl⟩ := List.mem_map.mp left
      obtain ⟨_, rfl⟩ := mem_returnPairs.mp first
      simp
    · obtain ⟨p, first, rfl⟩ := List.mem_map.mp left
      obtain ⟨r, k, rfl, _⟩ := savedPairs_cases first
      simp

theorem start_suits (options : Options) (site : Site) (out : Output) (separate : A.Separate)
    (table : A.table = site.table) : Suits A site (Body.start options out A.function A.layout) :=
  ⟨table, rfl, rfl, Nat.zero_le _, (start_fresh options out A.function A.layout).sound,
    start_housed options site.table out A.function A.layout, separate⟩

/-- Where every register is empty and every variable valid in its home, agreement is a matter of
the words of the names. -/
theorem agrees_of_fresh {tracked : Place → Prop} {env : Env} {site : Site} {b : Body}
    (suits : Suits A site b) (fresh : Fresh b.store) (owners : b.spare.owners = [])
    (sp : m.read .sp = A.sp)
    (frame : ∀ name a, A.place name = .frame name → A.slot (.declared name) = some a →
      m.mem a = env (.frame name))
    (global : ∀ name a, isGlobalScalar A.table name = true → A.slot (.global name) = some a →
      m.mem a = env (.global name)) : Agrees A tracked b.store env m := by
  refine ⟨sp, ?_, ?_, fun name a _ scalar _ address => global name a scalar address⟩
  · intro v e r known _ listed
    exact absurd ((fresh.sound.listed r v).mpr ⟨e, known.1, listed⟩) (fresh.empty r v)
  · intro v e h a known _ _ place address
    obtain ⟨s, a', slot, _, at_, found⟩ := suits.home known place
    cases Option.some.inj (address.symm.trans found)
    cases slot with
    | declared declared =>
      rw [show A.place e.name = .frame e.name from declared]
      exact frame e.name a declared at_
    | global scalar =>
      rw [show A.place e.name = .global e.name from scalar]
      exact global e.name a (isGlobalScalar_of_place scalar) at_
    | spare _ owner => simp [owners] at owner

/-- The prologue makes the machine agree with the descriptors at the start of the procedure. -/
theorem prologue_run {tracked : Place → Prop} {env : Env} (options : Options) (out : Output)
    (separate : A.Separate) (fits : A.Fits) (enters : A.Enters m env)
    (names : ((A.function.params ++ A.function.locals).map Decl.name).Nodup) :
    ∃ m', m.execAll A.data (prologue A.layout A.function.params.length) = some m' ∧
      Agrees A tracked (Body.start options out A.function A.layout).store env m' ∧
      m'.read .ra = m.read .ra ∧ A.Keeps m m' := by
  obtain ⟨m₁, moved, mem, sp, others⟩ : ∃ m₁, m.execAll A.data (adjustStack A.layout (-A.layout.bytes)) =
      some m₁ ∧ _ := adjust_run m fits.2 fun empty => by rw [bytes_of_empty empty]; rfl
  have sp₁ : m₁.read .sp = A.sp := by
    rw [sp, fits.neg, enters.sp, BitVec.sub_eq_add_neg]
  obtain ⟨m', stores, regs, stored, kept⟩ :=
    stores_run separate (fun p => entryPairs_mem) (entryPairs_nodup A.layout names) sp₁
  have value (p : MachineReg × Slot) (a : Word) (member : p ∈ entryPairs A.function A.layout)
      (address : A.slot p.2 = some a) : m'.mem a = m.read p.1 := by
    rw [stored p member a address]
    refine others p.1 ?_
    rcases entryPairs_cases member with ⟨_, rfl⟩ | ⟨r, k, rfl, _⟩ | ⟨i, d, rfl, _⟩ <;> simp
  have unchanged (s : Slot) (a : Word) (member : s ∈ A.slots)
      (apart : ∀ p ∈ entryPairs A.function A.layout, p.2 ≠ s) (address : A.slot s = some a) :
      m'.mem a = m.mem a := by
    rw [kept s member ?_ a address, mem]
    intro inside
    obtain ⟨p, inner, same⟩ := List.mem_map.mp inside
    exact apart p inner same
  refine ⟨m', ?_, ?_, ?_, ?_⟩
  · rw [prologue_eq A.layout names]
    exact Machine.execAll_trans moved stores
  · refine agrees_of_fresh (start_suits options ⟨options, A.table, [], 0, []⟩ out separate rfl)
      (start_fresh options out A.function A.layout) rfl ((regs .sp).trans sp₁) ?_ ?_
    · intro name a place address
      have slot : HasSlot A.table A.function [] name (.declared name) := .declared place
      rw [enters.frame name a place address]
      cases arrives : A.function.argument? name with
      | some r =>
        refine value (r, .declared name) a ?_ address
        exact List.mem_append_right _ (mem_argumentPairs arrives)
      | none =>
        refine unchanged _ a (slot.mem (Nat.zero_le _)) (fun p member same => ?_) address
        obtain ⟨r, s⟩ := p
        cases same
        simp only [entryPairs, List.mem_append] at member
        rcases member with (member | member) | member
        · simp [mem_returnPairs] at member
        · obtain ⟨_, _, wrong, _⟩ := savedPairs_cases member
          simp at wrong
        · have some := argument?_isSome member
          rw [arrives] at some
          contradiction
    · intro name a scalar address
      rw [enters.globals name a scalar address]
      refine unchanged _ a (global_mem scalar) (fun p member => ?_) address
      rcases entryPairs_cases member with ⟨_, rfl⟩ | ⟨r, k, rfl, _⟩ | ⟨i, d, rfl, _⟩ <;> simp
  · rw [regs, others _ (by simp)]
  · intro p member a address
    refine value p a (List.mem_append_left _ ?_) address
    rw [List.mem_append] at member ⊢
    exact member.symm

/-- The epilogue gives the caller its stack pointer and the registers that the frame kept. -/
theorem epilogue_run {m₀ : Machine} (options : Options) (separate : A.Separate) (fits : A.Fits)
    (sp : m.read .sp = A.sp) (ra : m.read .ra = m₀.read .ra) (keeps : A.Keeps m₀ m) :
    ∃ is m', epilogue options A.layout = is ++ jumpInstrs options (.jr .ra) ∧
      m.execAll A.data is = some m' ∧ m'.mem = m.mem ∧
      m'.read .sp = A.sp + BitVec.ofInt 32 A.layout.bytes.toInt ∧ m'.read .ra = m₀.read .ra ∧
      (∀ i, m'.read (.arg i) = m.read (.arg i)) ∧
      ∀ p ∈ savedPairs A.layout, m'.read p.1 = m₀.read p.1 := by
  have inside (p : MachineReg × Slot) (member : p ∈ savedPairs A.layout ++ returnPairs A.layout) :
      p.2 ∈ A.slots ∧ ((∃ r, p.1 = .pool r) ∨ p.1 = .ra) := by
    have entry : p ∈ entryPairs A.function A.layout := by
      simp only [entryPairs, List.mem_append] at member ⊢
      exact .inl member.symm
    refine ⟨entryPairs_mem entry, ?_⟩
    rcases List.mem_append.mp member with member | member
    · obtain ⟨r, k, rfl, _⟩ := savedPairs_cases member
      exact .inl ⟨r, rfl⟩
    · obtain ⟨_, rfl⟩ := mem_returnPairs.mp member
      exact .inr rfl
  have nodup : ((savedPairs A.layout ++ returnPairs A.layout).map Prod.fst).Nodup := by
    rw [List.map_append]
    refine List.nodup_append.mpr ⟨(savedPairs_nodup A.layout).1, ?_, ?_⟩
    · unfold returnPairs
      split <;> simp
    · intro q left r right
      obtain ⟨p, first, rfl⟩ := List.mem_map.mp left
      obtain ⟨p', second, rfl⟩ := List.mem_map.mp right
      obtain ⟨_, _, rfl, _⟩ := savedPairs_cases first
      obtain ⟨_, rfl⟩ := mem_returnPairs.mp second
      simp
  have plain (p : MachineReg × Slot) (member : p ∈ savedPairs A.layout ++ returnPairs A.layout) :
      p.1 ≠ .zero ∧ p.1 ≠ .sp := by
    rcases (inside p member).2 with ⟨r, same⟩ | same <;> simp [same]
  obtain ⟨m₁, loads, mem, loaded, others⟩ :=
    loads_run options separate (fun p member => (inside p member).1) nodup plain sp
  obtain ⟨m', moved, mem', sp', others'⟩ : ∃ m', m₁.execAll A.data (adjustStack A.layout A.layout.bytes) =
      some m' ∧ _ := adjust_run m₁ fits.1 bytes_of_empty
  have restored (p : MachineReg × Slot) (member : p ∈ savedPairs A.layout ++ returnPairs A.layout) :
      m'.read p.1 = m₀.read p.1 := by
    obtain ⟨a, address⟩ := Option.isSome_iff_exists.mp (separate.addressable _ (inside p member).1)
    rw [others' p.1 (plain p member).2, loaded p member a address, keeps p member a address]
  have untouched (q : MachineReg) (apart : ∀ p ∈ savedPairs A.layout ++ returnPairs A.layout, p.1 ≠ q) :
      m₁.read q = m.read q := by
    refine others q fun member => ?_
    obtain ⟨p, inner, same⟩ := List.mem_map.mp member
    exact apart p inner same
  refine ⟨_, m', epilogue_eq options A.function A.layout, Machine.execAll_trans loads moved,
    mem'.trans mem, ?_, ?_, fun i => ?_, fun p member => restored p (List.mem_append_left _ member)⟩
  · rw [sp', untouched .sp fun p member => (plain p member).2, sp]
  · cases leaf : A.layout.leaf with
    | false => exact restored (.ra, .returnAddress) (List.mem_append_right _ (mem_returnPairs.mpr ⟨leaf, rfl⟩))
    | true =>
      rw [others' .ra (by simp), untouched .ra ?_, ra]
      intro p member
      rcases List.mem_append.mp member with member | member
      · obtain ⟨_, _, rfl, _⟩ := savedPairs_cases member
        simp
      · simp [mem_returnPairs, leaf] at member
  · rw [others' _ (by simp), untouched]
    intro p member
    rcases (inside p member).2 with ⟨r, same⟩ | same <;> simp [same]

end Codegen

end ThreeAddress
