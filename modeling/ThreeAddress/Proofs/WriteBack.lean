import ThreeAddress.Proofs.Positions

/-! What is in registers and what is in memory behind each instruction. Where control may leave the
block everything is in memory; behind a call only temporaries and the result are in registers; and
where every instruction flushes, no variable with a home is in a register. -/
namespace ThreeAddress

theorem KeySet.mem_foldl_erase {α : Type} [DecidableEq α] {s : KeySet α} {ks : List α} {k : α} :
    k ∈ ks.foldl KeySet.erase s ↔ k ∈ s ∧ k ∉ ks := by
  induction ks generalizing s with
  | nil => simp
  | cons l ks ih => simp [ih, and_assoc]

theorem KeySet.foldl_erase_self {α : Type} [DecidableEq α] (s : KeySet α) :
    s.toList.foldl KeySet.erase s = .empty := by
  have none : ∀ k, k ∉ s.toList.foldl KeySet.erase s := by simp [mem_foldl_erase]
  have keys : (s.toList.foldl KeySet.erase s).keys = [] := List.isEmpty_iff.mp (isEmpty_iff.mpr none)
  exact congrArg KeySet.mk keys

theorem Descriptor.Entry.dirty_iff {Home : Type} {e : Descriptor.Entry Home} :
    e.dirty = true ↔ (e.home.isSome = true ∧ e.homeValid = false) ∧ ∃ r, r ∈ e.regs := by
  simp only [dirty, Bool.and_eq_true, Bool.not_eq_true', KeySet.isEmpty_eq_false_iff]

namespace Descriptor.Store

/-- Variables are listed in the order of creation. -/
theorem live_ascending {Home : Type} (s : Store Home) : s.live.Pairwise (· < ·) := by
  have positions : s.entries.zipIdx.Pairwise fun x y => x.2 < y.2 := by
    have increasing : (List.range' 0 s.entries.length).Pairwise (· < ·) := List.pairwise_lt_range'
    rw [← List.zipIdx_map_snd] at increasing
    exact List.pairwise_map.mp increasing
  refine List.pairwise_filterMap.mpr (positions.imp ?_)
  intro x y before v left w right
  dsimp only at left right
  split at left
  · contradiction
  · split at right
    · contradiction
    · cases Option.some.inj left
      cases Option.some.inj right
      exact before

end Descriptor.Store

namespace Codegen

open Asm (Line Mem)
open Descriptor (Store Var Entry)

variable {site : Site} {b c : Body}

/-! Stores of a flush -/

/-- One store for each variable of the list whose register copy is newer than its home, from a
register that holds the variable to its home. -/
inductive WritesBack (s : Store Mem) : List Var → List Asm.Instr → Prop
  | nil : WritesBack s [] []
  | clean {v : Var} {e : Entry Mem} {vs : List Var} {is : List Asm.Instr} :
      s.get? v = some e → e.dirty = false → WritesBack s vs is → WritesBack s (v :: vs) is
  | dirty {v : Var} {e : Entry Mem} {r : Reg} {home : Mem} {vs : List Var} {is : List Asm.Instr} :
      s.get? v = some e → e.dirty = true → v ∈ s.held r → e.home = some home → WritesBack s vs is →
      WritesBack s (v :: vs) (.sw (.pool r) home :: is)

theorem writeBackAll_writes {s : Store Mem} {vs : List Var} (sound : s.Sound) (distinct : vs.Nodup)
    (same : ∀ v ∈ vs, b.store.get? v = s.get? v) (ran : vs.forM writeBackOne b = .ok ((), c)) :
    ∃ is, WritesBack s vs is ∧ c.out = b.out.append is := by
  induction vs generalizing b with
  | nil =>
    obtain rfl := forM_nil_ok.mp ran
    exact ⟨[], .nil, rfl⟩
  | cons v vs ih =>
    obtain ⟨d, first, rest⟩ := forM_cons_ok.mp ran
    obtain ⟨fresh, distinct⟩ := List.nodup_cons.mp distinct
    have same' (w : Var) (member : w ∈ vs) := same w (List.mem_cons_of_mem v member)
    obtain ⟨e, entry, ⟨clean, rfl⟩ | ⟨r, home, dirty, inside, place, rfl⟩⟩ := writeBackOne_cases first
    · obtain ⟨is, writes, out⟩ := ih distinct same' rest
      exact ⟨is, .clean (same v List.mem_cons_self ▸ entry) clean writes, out⟩
    · have others (w : Var) (member : w ∈ vs) : (b.store.markStored v).get? w = s.get? w := by
        have other : w ≠ v := fun equal => fresh (equal ▸ member)
        simp [Store.markStored, other, same' w member]
      obtain ⟨is, writes, out⟩ := ih distinct others rest
      have known := same v List.mem_cons_self ▸ entry
      have held := (sound.listed r v).mpr ⟨e, known, inside⟩
      exact ⟨_, .dirty known dirty held place writes, out⟩

theorem writeBack_writes (sound : b.store.Sound) (ran : writeBack b = .ok ((), c)) :
    ∃ is, WritesBack b.store b.store.live is ∧ c.out = b.out.append is := by
  simp only [writeBack, bind_ok, get_ok] at ran
  obtain ⟨_, _, ⟨rfl, rfl⟩, ran⟩ := ran
  have distinct : b.store.live.Nodup := b.store.live_ascending.imp Nat.ne_of_lt
  exact writeBackAll_writes sound distinct (fun _ _ => rfl) ran

/-- Only a variable with a home is written back. -/
theorem writeBackAll_homeless {vs : List Var} {v : Var} {e : Entry Mem} (homeless : e.home = none)
    (entry : b.store.get? v = some e) (ran : vs.forM writeBackOne b = .ok ((), c)) :
    c.store.get? v = some e := by
  induction vs generalizing b with
  | nil =>
    obtain rfl := forM_nil_ok.mp ran
    exact entry
  | cons w vs ih =>
    obtain ⟨d, first, rest⟩ := forM_cons_ok.mp ran
    obtain ⟨f, found, ⟨_, rfl⟩ | ⟨r, home, _, _, place, rfl⟩⟩ := writeBackOne_cases first
    · exact ih entry rest
    · apply ih _ rest
      have other : v ≠ w := by
        rintro rfl
        cases Option.some.inj (entry.symm.trans found)
        simp [homeless] at place
      simp [Store.markStored, other, entry]

/-! Ends of blocks -/

/-- Everything is in memory. -/
structure InMemory (s : Store Mem) : Prop where
  empty : ∀ r v, v ∉ s.held r
  housed : ∀ v e, s.Has v e → e.home.isSome = true ∧ e.homeValid = true

theorem Flushed.inMemory {is : List Asm.Instr} (flushed : Flushed site b is c)
    (consistent : Consistent b.store) : InMemory c.store := by
  have after := flushed.consistent consistent
  refine ⟨flushed.empty, ?_⟩
  intro v e known
  rcases after.kept v e known (by simp) with valid | ⟨r, inside⟩
  · exact ⟨after.sound.housed v e known.1 valid, valid⟩
  · exact absurd ((after.sound.listed r v).mpr ⟨e, known.1, inside⟩) (flushed.empty r v)

theorem forM_eq_of_still {α : Type} {f : α → Step Unit} {xs : List α}
    (still : ∀ x ∈ xs, f x b = .ok ((), b)) : xs.forM f b = .ok ((), b) := by
  induction xs with
  | nil => rfl
  | cons x xs ih =>
    obtain ⟨here, others⟩ := List.forall_mem_cons.mp still
    exact forM_cons_ok.mpr ⟨b, here, ih others⟩

/-- Where everything is in memory a flush does nothing. -/
theorem InMemory.flush (inMemory : InMemory b.store) (sound : b.store.Sound) : flush b = .ok ((), b) := by
  have wrote : writeBack b = .ok ((), b) := by
    refine bind_ok.mpr ⟨b, b, get_ok.mpr ⟨rfl, rfl⟩, forM_eq_of_still ?_⟩
    intro v member
    obtain ⟨e, known⟩ := Store.mem_live.mp member
    obtain ⟨_, valid⟩ := inMemory.housed v e known
    refine bind_ok.mpr ⟨e, b, entryOf_ok.mpr ⟨known.1, rfl⟩, ?_⟩
    simp only [valid, if_true]
    cases e.home <;> cases e.register? <;> rfl
  have cleared (rs : List Reg) : rs.foldl Store.clearRegister b.store = b.store := by
    induction rs with
    | nil => rfl
    | cons r rs ih =>
      rcases KeySet.cases_of_size (sound.single r) with empty | ⟨v, only⟩
      · rw [List.foldl_cons, Store.clearRegister_of_empty empty, ih]
      · exact absurd (by simp [only]) (inMemory.empty r v)
  refine bind_ok.mpr ⟨(), b, wrote, modifyStore_ok.mpr ?_⟩
  rw [Store.clearAll, cleared]

end Codegen

/-- An instruction where control may leave the block. -/
def Instr.endsBlock : Instr → Bool
  | .branch _ _ _ => true
  | .goto _ => true
  | .label _ => true
  | .ret _ => true
  | _ => false

theorem Instr.isStraight_of_stays (x : Instr) (stays : x.endsBlock = false)
    (other : ∀ function res, x ≠ .call function res) (real : x ≠ .nop) : x.isStraight = true := by
  cases x with
  | call function res => exact absurd rfl (other function res)
  | nop => exact absurd rfl real
  | branch | goto | label | ret => cases stays
  | _ => rfl

namespace Codegen

open Asm (Line Mem)
open Descriptor (Store Var Entry)

variable {site : Site} {b c : Body}

/-- What an instruction where control may leave the block does before it flushes. -/
def readFirst (site : Site) : Instr → Step Unit
  | .branch cond _ _ => do
    let _ ← operand site cond {} .scratchLeft
    pure ()
  | .ret x => copyResult site x
  | _ => pure ()

/-- An instruction where control may leave the block flushes: from state `d`, when it has read what it
needs, to state `e`. Its stores are those of the dirty variables, in the order of creation. -/
structure BlockEnd (site : Site) (x : Instr) (b d e c : Body) (js : List Asm.Instr) : Prop where
  reads : readFirst site x { b with reserved := [], returned := false } = .ok ((), d)
  flushes : flush d = .ok ((), e)
  order : d.store.live.Pairwise (· < ·)
  all : ∀ v f, d.store.get? v = some f → f.dirty = true → v ∈ d.store.live
  stores : WritesBack d.store d.store.live js
  lines : e.out.lines.toList = d.out.lines.toList ++ js.map Line.instr
  behind : ∃ ls, c.out.lines.toList = e.out.lines.toList ++ ls
  store : c.store = e.store
  inMemory : InMemory c.store
  again : flush c = .ok ((), c)

theorem blockEnd_of_flush {x : Instr} {d e : Body} (consistent : Consistent d.store)
    (reads : readFirst site x { b with reserved := [], returned := false } = .ok ((), d))
    (flushes : flush d = .ok ((), e)) (behind : ∃ ls, c.out.lines.toList = e.out.lines.toList ++ ls)
    (store : c.store = e.store) : ∃ js, BlockEnd site x b d e c js := by
  obtain ⟨_, flushed⟩ : ∃ is, Flushed site d is e := flush_flushed consistent.sound flushes
  have inMemory := flushed.inMemory consistent
  have after := flushed.consistent consistent
  obtain ⟨_, d₁, wrote, cleared⟩ := bind_ok.mp flushes
  obtain rfl := modifyStore_ok.mp cleared
  obtain ⟨js, stores, out⟩ := writeBack_writes consistent.sound wrote
  refine ⟨js, reads, flushes, d.store.live_ascending, ?_, stores, ?_, behind, store, ?_, ?_⟩
  · intro v f entry dirty
    obtain ⟨_, r, inside⟩ := Entry.dirty_iff.mp dirty
    exact Store.mem_live.mpr ⟨f, consistent.sound.known_of_reg entry inside⟩
  · rw [← Output.lines_append, ← out]
  · rw [store]
    exact inMemory
  · apply InMemory.flush
    · rw [store]
      exact inMemory
    · rw [store]
      exact after.sound

theorem lower_blockEnd {x : Instr} (ends : x.endsBlock = true) (consistent : Consistent b.store)
    (ran : lower site x { b with reserved := [], returned := false } = .ok ((), c)) :
    ∃ d e js, BlockEnd site x b d e c js := by
  cases x with
  | branch cond ifTrue target =>
    simp only [lower, branch, bind_ok, emitAll_ok] at ran
    obtain ⟨y, d, first, _, e, flushes, rfl⟩ := ran
    obtain ⟨is, located⟩ := operand_located (b := { b with reserved := [], returned := false }) consistent.sound first
    refine ⟨d, e, blockEnd_of_flush (located.moves.consistent rfl consistent) ?_ flushes
      ⟨_, Output.lines_append _ _⟩ rfl⟩
    exact bind_ok.mpr ⟨y, d, first, pure_ok.mpr ⟨rfl, rfl⟩⟩
  | goto target =>
    simp only [lower, jump, bind_ok, emitAll_ok] at ran
    obtain ⟨_, e, flushes, rfl⟩ := ran
    exact ⟨_, e, blockEnd_of_flush (by exact consistent) rfl flushes ⟨_, Output.lines_append _ _⟩ rfl⟩
  | label l =>
    simp only [lower, emit, bind_ok, modify_ok] at ran
    obtain ⟨_, e, flushes, rfl⟩ := ran
    exact ⟨_, e, blockEnd_of_flush (by exact consistent) rfl flushes ⟨[.label l.name], by simp [Output.push]⟩ rfl⟩
  | ret x =>
    obtain ⟨d, copies, rest⟩ := ret_steps ran
    obtain ⟨is, returned⟩ := copyResult_returned (by exact consistent.sound) copies
    simp only [bind_ok, get_ok, emitAll_ok, modify_ok] at rest
    obtain ⟨_, e, flushes, _, _, ⟨rfl, rfl⟩, _, _, rfl, rfl⟩ := rest
    exact ⟨d, e, blockEnd_of_flush (returned.moves.consistent rfl consistent) copies flushes
      ⟨_, Output.lines_append _ _⟩ rfl⟩
  | _ => cases ends

/-! Calls -/

theorem Spills.fewer {needs : Needs} {r : Reg} {is : List Asm.Instr} (spills : Spills needs b r is c)
    (sound : b.store.Sound) : ∀ q w, w ∈ c.store.held q → w ∈ b.store.held q := by
  intro q w member
  rw [spills.held sound] at member
  split at member
  · exact absurd member (KeySet.not_mem_empty w)
  · exact member

/-- Finding a register puts nothing into one. -/
theorem acquire_fewer {name : String} {needs : Needs} {r : Reg} (sound : b.store.Sound)
    (ran : acquire site name needs b = .ok (r, c)) : ∀ q w, w ∈ c.store.held q → w ∈ b.store.held q := by
  have searched {o : Option Reg} {d : Body} (residence : residence? site name b = .ok (o, d)) :
      d.store.Sound ∧ ∀ q, d.store.held q = b.store.held q := by
    obtain ⟨moves, _, held, _⟩ : Moves site .still b [] d ∧ _ := residence?_moves sound residence
    exact ⟨moves.sound sound, held⟩
  cases acquire_acquires ran with
  | resident residence => exact fun q w member => (searched residence).2 q ▸ member
  | free residence => exact fun q w member => (searched residence).2 q ▸ member
  | seized residence chosen =>
    obtain ⟨sound', held⟩ := searched residence
    obtain ⟨_, _, is, spills⟩ := seize_ok sound' chosen
    exact fun q w member => held q ▸ spills.fewer sound' q w member

theorem Body.assign_result {r : Reg} {name : String} (sound : b.store.Sound) (owned : Owned b r name) :
    ∃ v e, (b.assign r name).store.Has v e ∧ e.name = name ∧ e.regs = .single r := by
  obtain ⟨e, known, same⟩ := Store.intern_has b.store name
  refine ⟨(b.store.intern name).1, { e with regs := .single r, homeValid := false }, ⟨?_, known.2⟩, same, rfl⟩
  rw [Body.assign, Store.get?_commit (owned.intern sound), if_pos rfl, known.1]
  rfl

/-- What a call leaves in registers: temporaries without a home in saved registers, and the result in
one register. -/
structure OnlyKept (res : Option String) (s : Store Mem) : Prop where
  others : ∀ r v, v ∈ s.held r →
    (r ∈ Reg.savedRegs ∧ ∃ e, s.Has v e ∧ e.home = none) ∨ ∃ name, res = some name ∧ s.lookup name = some v
  result : ∀ name, res = some name → ∃ v r, s.lookup name = some v ∧ ∀ q, v ∈ s.held q ↔ q = r

theorem answerCall_onlyKept {res : Option String} (sound : b.store.Sound)
    (before : ∀ r v, v ∈ b.store.held r → r ∈ Reg.savedRegs ∧ ∃ e, b.store.Has v e ∧ e.home = none)
    (ran : answerCall site res b = .ok ((), c)) : OnlyKept res c.store := by
  cases res with
  | none =>
    obtain ⟨_, rfl⟩ := pure_ok.mp ran
    constructor
    · intro r v held
      exact .inl (before r v held)
    · intro name same
      cases same
  | some res =>
    simp only [answerCall, bind_ok, within_ok, emitInstr_ok] at ran
    obtain ⟨r, d, taking, _, _, rfl, ran⟩ := ran
    obtain ⟨⟨is, moves⟩, taken⟩ := acquire_moves sound taking
    have fewer := acquire_fewer sound taking
    have sound₁ := moves.sound sound
    have assigned := commit_assigned sound₁ (taken.ready sound₁) (by simp [isResult]) ran
    have sound₂ := assigned.sound sound₁
    cases assigned with
    | @intro d' _ _ resolves held ready _ =>
    have sound' : d'.store.Sound := resolves.sound sound₁
    constructor
    · intro q v inside
      obtain ⟨e, known, listed⟩ := sound₂.known_of_held inside
      rcases Body.assign_has sound' ready.owned known with ⟨rfl, _⟩ | ⟨_, stays, _⟩
      · exact .inr ⟨_, rfl, sound₂.lookup_eq known⟩
      · have held₁ : v ∈ d.store.held q := held q ▸ (sound'.listed q v).mpr ⟨e, stays.1, listed⟩
        obtain ⟨saved, f, has, homeless⟩ := before q v (fewer q v held₁)
        obtain ⟨g, entry, _, home⟩ := moves.entry_name sound has.1
        obtain ⟨g', entry', _, home'⟩ := resolves.entry_name (a := { d with out := d.out.append _ }) sound₁ entry
        cases Option.some.inj (entry'.symm.trans stays.1)
        exact .inl ⟨saved, e, known, home'.trans (home.trans homeless)⟩
    · intro name same
      cases same
      obtain ⟨v, e, known, rfl, only⟩ := Body.assign_result sound' ready.owned
      refine ⟨v, r, sound₂.lookup_eq known, fun q => ?_⟩
      simp [sound₂.listed q v, known.1, only]

theorem call_onlyKept {function : String} {res : Option String} (consistent : Consistent b.store)
    (ran : call site function res b = .ok ((), c)) : OnlyKept res c.store := by
  obtain ⟨_, _, b₁, b₂, b₃, b₄, _, _, _, passes, wrote, keeps, forgets, answers⟩ := call_steps ran
  obtain ⟨_, _, _, _, _, _, sound₃, _, settled₃, _⟩ :=
    prepare_ok (b := { b with pending := [] }) consistent passes wrote keeps
  obtain ⟨moves, forgotten⟩ : Moves site {} _ [] b₄ ∧ _ := forgetAll_ok (b := { b₃ with
    out := b₃.out.append (jumpInstrs site.options (.jal function)) }) sound₃ settled₃ forgets
  have sound₄ := moves.sound sound₃
  apply answerCall_onlyKept sound₄ _ answers
  intro r v held
  obtain ⟨e, known, _⟩ := sound₄.known_of_held held
  obtain ⟨kept, homeless⟩ := forgotten.left r (List.mem_finRange r) v e held known.1
  exact ⟨savedRegs_of_not_temporary r kept, e, known, homeless⟩

/-! Where every instruction flushes -/

/-- The entry of a variable whose register copies are dropped if it has a home. -/
def evictedEntry (e : Entry Mem) : Entry Mem := if e.home.isSome then { e with regs := .empty } else e

theorem get?_unbindAll (s : Store Mem) (v w : Var) (rs : List Reg) :
    (rs.foldl (fun s r => s.unbind r v) s).get? w =
      if w = v then (s.get? v).map fun e => { e with regs := rs.foldl KeySet.erase e.regs } else s.get? w := by
  induction rs generalizing s with
  | nil =>
    split
    · rename_i same
      simp [same]
    · rfl
  | cons r rs ih =>
    rw [List.foldl_cons, ih]
    by_cases same : w = v
    · simp [same, Function.comp_def]
    · simp [same]

theorem evictOne_get? {v : Var} (ran : evictOne v b = .ok ((), c)) (w : Var) :
    c.store.get? w = if w = v then (b.store.get? v).map evictedEntry else b.store.get? w := by
  simp only [evictOne, bind_ok, entryOf_ok] at ran
  obtain ⟨e, _, ⟨entry, rfl⟩, ran⟩ := ran
  split at ran
  · rename_i homed
    obtain rfl := modifyStore_ok.mp ran
    rw [get?_unbindAll, entry, Option.map_some, Option.map_some, KeySet.foldl_erase_self, evictedEntry,
      if_pos homed]
  · rename_i homeless
    obtain ⟨_, rfl⟩ := pure_ok.mp ran
    split
    · rename_i same
      rw [same, entry, Option.map_some, evictedEntry, if_neg homeless]
    · rfl

theorem evictedEntry_evictedEntry (e : Entry Mem) : evictedEntry (evictedEntry e) = evictedEntry e := by
  unfold evictedEntry
  split <;> simp_all

theorem evictAll_get? {vs : List Var} (ran : vs.forM evictOne b = .ok ((), c)) (w : Var) :
    c.store.get? w = if w ∈ vs then (b.store.get? w).map evictedEntry else b.store.get? w := by
  induction vs generalizing b with
  | nil =>
    obtain rfl := forM_nil_ok.mp ran
    simp
  | cons v vs ih =>
    obtain ⟨d, first, rest⟩ := forM_cons_ok.mp ran
    have twice : evictedEntry ∘ evictedEntry = evictedEntry := funext evictedEntry_evictedEntry
    rw [ih rest, evictOne_get? first]
    by_cases same : w = v <;> simp [same, twice]

/-- What the flush behind an instruction does with the state `d` that the instruction leaves. -/
structure FlushedEach (d c : Body) : Prop where
  stores : ∃ js, WritesBack d.store d.store.live js ∧
    c.out.lines.toList = d.out.lines.toList ++ js.map Line.instr
  housed : ∀ v e, c.store.Has v e → e.home.isSome = true → e.homeValid = true ∧ ∀ r, v ∉ c.store.held r
  kept : ∀ v e, d.store.Has v e → e.home = none → c.store.Has v e

theorem flushedEach_of_steps (site : Site) {d e : Body} (consistent : Consistent d.store)
    (wrote : writeBack d = .ok ((), e)) (evicted : evictHomed e = .ok ((), c)) : FlushedEach d c := by
  obtain ⟨⟨is, moves, _⟩, _, clean⟩ : (∃ is, Moves site {} d is e ∧ _) ∧ _ := writeBack_moves wrote
  have consistent₁ := moves.consistent rfl consistent
  have evicts : Moves site {} e [] c := evictHomed_moves consistent₁.sound clean evicted
  have sound := evicts.sound consistent₁.sound
  obtain ⟨js, writes, out⟩ := writeBack_writes consistent.sound wrote
  simp only [evictHomed, bind_ok, get_ok] at evicted
  obtain ⟨_, _, ⟨rfl, rfl⟩, evicted⟩ := evicted
  have entries := evictAll_get? evicted
  constructor
  · refine ⟨js, writes, ?_⟩
    rw [evicts.lines, out, Output.lines_append]
    simp
  · intro v f known homed
    have after := known.1
    rw [entries] at after
    split at after
    · obtain ⟨g, before, rfl⟩ := Option.map_eq_some_iff.mp after
      have place : g.home.isSome = true := by
        unfold evictedEntry at homed
        split at homed
        · assumption
        · exact homed
      rw [evictedEntry, if_pos place] at known ⊢
      refine ⟨clean.settled consistent₁.kept v g ⟨before, known.2⟩ place, ?_⟩
      intro r held
      obtain ⟨_, found, inside⟩ := (sound.listed r v).mp held
      cases Option.some.inj (known.1.symm.trans found)
      exact KeySet.not_mem_empty r inside
    · rename_i missing
      exact absurd (Store.mem_live.mpr ⟨f, after, known.2⟩) missing
  · intro v f known homeless
    simp only [writeBack, bind_ok, get_ok] at wrote
    obtain ⟨_, _, ⟨rfl, rfl⟩, wrote⟩ := wrote
    have still : evictedEntry f = f := by simp [evictedEntry, homeless]
    refine ⟨?_, known.2⟩
    rw [entries, writeBackAll_homeless homeless known.1 wrote, Option.map_some, still, ite_self]

theorem lower_flushedEach {x : Instr} (straight : x.isStraight = true) (each : site.options.flushEach = true)
    (consistent : Consistent b.store) (ran : lower site x b = .ok ((), c)) :
    ∃ d is, Effect site b x.assigned? is d ∧ flushBehind site d = .ok ((), c) ∧ FlushedEach d c := by
  obtain ⟨d, is, effect, rest⟩ := lower_steps straight consistent.sound ran
  refine ⟨d, is, effect, rest, ?_⟩
  rw [flushBehind, if_pos each] at rest
  obtain ⟨_, e, wrote, evicted⟩ := bind_ok.mp rest
  exact flushedEach_of_steps site (effect.consistent consistent) wrote evicted

/-! Every instruction -/

section Runs

variable {options : Options} {table : Scope} {code : List Quad} {instrs : List Instr} {n : Nat} {x : Instr}

/-- What is in memory behind an instruction of a procedure: everything where control may leave the
block; behind a call, all but what the call keeps; and every variable with a home behind the others, if
each flushes. A `nop` does nothing. -/
theorem stateAt_writes_back (decoded : decodeFrom 0 code = .ok instrs) (found : instrs[n]? = some x)
    (reached : stateAt options table code n = .ok (.inside b))
    (next : stateAt options table code (n + 1) = .ok (.inside c)) :
    (x.endsBlock = true → ∃ d e js, BlockEnd (siteAt options table code n) x b d e c js) ∧
    (∀ function res, x = .call function res → OnlyKept res c.store) ∧
    (options.flushEach = true → x.endsBlock = false → (∀ function res, x ≠ .call function res) → x ≠ .nop →
      ∃ d is, Effect (siteAt options table code n) { b with reserved := [], returned := false } x.assigned? is d ∧
        flushBehind (siteAt options table code n) d = .ok ((), c) ∧ FlushedEach d c) ∧
    (x = .nop → c = b) := by
  obtain ⟨_, reached', steps⟩ := (stateAt_succ decoded found).mp next
  cases Except.ok.inj (reached.symm.trans reached')
  have consistent : Consistent b.store := stateAt_consistent reached
  cases step_stepped steps with
  | nop => simp [Instr.endsBlock]
  | @lower _ _ _ real plain lowers =>
    refine ⟨?_, ?_, ?_, fun same => absurd same real⟩
    · intro ends
      exact lower_blockEnd ends consistent lowers
    · rintro function res rfl
      exact call_onlyKept (by exact consistent) lowers
    · intro each stays other _
      exact lower_flushedEach (x.isStraight_of_stays stays other real) each (by exact consistent) lowers

def mixedTable : Scope :=
  ⟨[{ name := "x" }, { name := "y" }, { name := "h", kind := .function }, { name := "main", kind := .function }]⟩

/-- Register copies of `x` come from calls, `t` is kept over the first one in a saved register. -/
def mixedCode : List Quad :=
  Quad.numberedFrom 0 [
    { op := "label", arg1 := "func_main" },
    { op := "+", arg1 := "y", arg2 := "1", res := "t" },
    { op := "call", arg1 := "h", res := "x" },
    { op := "nop" },
    { op := "=", arg1 := "t", res := "y" },
    { op := "call", arg1 := "h", res := "x" },
    { op := "goto", res := "out" },
    { op := "label", arg1 := "out" },
    { op := "return", arg1 := "x" },
    { op := "label", arg1 := "end_main" }]

def mixedInstrs : List Instr :=
  [.label ⟨"func_main", .entry "main"⟩, .binary .add (.variable "y") (.literal 1) "t", .call "h" (some "x"), .nop,
    .copy "t" "y", .call "h" (some "x"), .goto "out", .label ⟨"out", .plain⟩, .ret (some (.variable "x")),
    .label ⟨"end_main", .exit "main"⟩]

theorem decode_mixed : decodeFrom 0 mixedCode = .ok mixedInstrs :=
  eq_ok_of_toOption (by decide +kernel)

/-- Some variable has its value in a register only, though it has a home. -/
def holdsDirty (b : Body) : Bool := b.store.live.any fun v => (b.store.get? v).any (·.dirty)

theorem stateAt_writes_back_mixed :
    (∃ b c, stateAt { flushEach := true } mixedTable mixedCode 6 = .ok (.inside b) ∧ holdsDirty b = true ∧
      stateAt { flushEach := true } mixedTable mixedCode 7 = .ok (.inside c) ∧
      ∃ d e js, BlockEnd (siteAt { flushEach := true } mixedTable mixedCode 6) (.goto "out") b d e c js) ∧
    (∃ c, stateAt { flushEach := true } mixedTable mixedCode 3 = .ok (.inside c) ∧
      c.store.isFree 7 = false ∧ OnlyKept (some "x") c.store) ∧
    ∃ b c, stateAt { flushEach := true } mixedTable mixedCode 4 = .ok (.inside b) ∧ holdsDirty b = true ∧
      stateAt { flushEach := true } mixedTable mixedCode 5 = .ok (.inside c) ∧
      ∃ d is, Effect (siteAt { flushEach := true } mixedTable mixedCode 4)
        { b with reserved := [], returned := false } (some "y") is d ∧
        flushBehind (siteAt { flushEach := true } mixedTable mixedCode 4) d = .ok ((), c) ∧ FlushedEach d c := by
  refine ⟨?_, ?_, ?_⟩
  · obtain ⟨b, reached, dirty⟩ := exists_of_insideWith
      (show insideWith holdsDirty (stateAt { flushEach := true } mixedTable mixedCode 6) = true by decide +kernel)
    obtain ⟨c, next⟩ := exists_of_isInside
      (show isInside (stateAt { flushEach := true } mixedTable mixedCode 7) = true by decide +kernel)
    exact ⟨b, c, reached, dirty, next, (stateAt_writes_back decode_mixed rfl reached next).1 rfl⟩
  · obtain ⟨b, reached⟩ := exists_of_isInside
      (show isInside (stateAt { flushEach := true } mixedTable mixedCode 2) = true by decide +kernel)
    obtain ⟨c, next, kept⟩ := exists_of_insideWith
      (show insideWith (fun c => !c.store.isFree 7) (stateAt { flushEach := true } mixedTable mixedCode 3) = true by
        decide +kernel)
    exact ⟨c, next, by simpa using kept, (stateAt_writes_back decode_mixed rfl reached next).2.1 "h" (some "x") rfl⟩
  · obtain ⟨b, reached, dirty⟩ := exists_of_insideWith
      (show insideWith holdsDirty (stateAt { flushEach := true } mixedTable mixedCode 4) = true by decide +kernel)
    obtain ⟨c, next⟩ := exists_of_isInside
      (show isInside (stateAt { flushEach := true } mixedTable mixedCode 5) = true by decide +kernel)
    have found : mixedInstrs[4]? = some (.copy "t" "y") := rfl
    exact ⟨b, c, reached, dirty, next,
      (stateAt_writes_back decode_mixed found reached next).2.2.1 rfl rfl (by simp) (by simp)⟩

/-- What a call leaves in a register stays there behind a `nop`, also if each instruction flushes. -/
theorem nop_leaves_dirty :
    decodeFrom 0 mixedCode = .ok mixedInstrs ∧ mixedInstrs[3]? = some .nop ∧
    (∃ b, stateAt { flushEach := true } mixedTable mixedCode 3 = .ok (.inside b)) ∧
    ∃ c, stateAt { flushEach := true } mixedTable mixedCode 4 = .ok (.inside c) ∧
      ∃ v e, c.store.Has v e ∧ e.home.isSome = true ∧ e.homeValid = false ∧ ∃ r, v ∈ c.store.held r := by
  refine ⟨decode_mixed, rfl, exists_of_isInside (by decide +kernel), ?_⟩
  obtain ⟨c, reached, dirty⟩ := exists_of_insideWith
    (show insideWith holdsDirty (stateAt { flushEach := true } mixedTable mixedCode 4) = true by decide +kernel)
  obtain ⟨v, _, dirty⟩ := List.any_eq_true.mp dirty
  obtain ⟨e, entry, dirty⟩ := (Option.any_eq_true _ _).mp dirty
  obtain ⟨⟨homed, stale⟩, r, inside⟩ := Entry.dirty_iff.mp dirty
  have sound := (stateAt_consistent reached).sound
  refine ⟨c, reached, v, e, sound.known_of_reg entry inside, homed, stale, r, ?_⟩
  exact (sound.listed r v).mpr ⟨e, entry, inside⟩

end Runs

end Codegen

end ThreeAddress
