import ThreeAddress.Proofs.Lowering

/-! Calls. Arguments are passed by moves, temporaries are kept one register at a time, and what
the callee may change is forgotten. -/
namespace ThreeAddress.Codegen

open Asm (Line Mem)
open Descriptor (Store Var Entry)

variable {site : Site} {limits : Limits} {b c : Body}

/-! Arguments -/

/-- The word of the frame that passes the argument at a position. -/
def outgoingWord (l : Frame.Layout) (i : Nat) : Mem := frameWord (l.outgoingOffset (Int64.ofNat i))

/-- How an argument is passed: in its register if it has one, else from its register or through
the address register to its outgoing slot. -/
inductive Passed (site : Site) (b : Body) (i : Nat) : Operand → List Asm.Instr → Body → Prop
  | register {c : Body} {j : Fin 8} {x : Operand} {is : List Asm.Instr} :
      j.val = i → i < 4 → Copied site j b x is c → Passed site b i x is c
  | resident {c : Body} {name : String} {r : Reg} :
      4 ≤ i → Moves site .still b [] c → Resides c r name →
      Passed site b i (.variable name) [.sw (.pool r) (outgoingWord b.layout i)]
        { c with out := c.out.append [.sw (.pool r) (outgoingWord b.layout i)] }
  | slot {c d : Body} {x : Operand} {is : List Asm.Instr} :
      4 ≤ i → Moves site .still b [] c → Copied site 7 c x is d →
      Passed site b i x (is ++ [.sw (.arg 7) (outgoingWord b.layout i)])
        { d with out := d.out.append [.sw (.arg 7) (outgoingWord b.layout i)] }

theorem argument?_cases (i : Nat) :
    (∃ j : Fin 8, j.val = i ∧ i < 4 ∧ MachineReg.argument? i = some (.arg j)) ∨
      (4 ≤ i ∧ MachineReg.argument? i = none) := by
  match i with
  | 0 => exact .inl ⟨0, rfl, by omega, rfl⟩
  | 1 => exact .inl ⟨1, rfl, by omega, rfl⟩
  | 2 => exact .inl ⟨2, rfl, by omega, rfl⟩
  | 3 => exact .inl ⟨3, rfl, by omega, rfl⟩
  | n + 4 => exact .inr ⟨by omega, rfl⟩

theorem passArgument_passed {i : Nat} {x : Operand} (sound : b.store.Sound)
    (ran : passArgument site i x b = .ok ((), c)) :
    (∃ is, Passed site b i x is c) ∧ c.reserved = b.reserved := by
  unfold passArgument at ran
  rcases argument?_cases i with ⟨j, same, few, passing⟩ | ⟨many, passing⟩
  · simp only [passing] at ran
    obtain ⟨⟨is, copied⟩, reserved⟩ := copyTo_copied sound ran
    exact ⟨⟨is, .register same few copied⟩, reserved⟩
  · simp only [passing, bind_ok, get_ok] at ran
    obtain ⟨_, _, ⟨rfl, rfl⟩, ran⟩ := ran
    cases x with
    | literal n =>
      simp only [bind_ok, pure_ok] at ran
      obtain ⟨_, _, ⟨rfl, rfl⟩, ran⟩ := ran
      simp only [bind_ok, emitInstr_ok] at ran
      obtain ⟨_, d, copies, rfl⟩ := ran
      obtain ⟨⟨is, copied⟩, reserved⟩ : (∃ is, Copied site 7 b (.literal n) is d) ∧ _ :=
        copyTo_copied sound copies
      exact ⟨⟨_, .slot many (.refl b) copied⟩, reserved⟩
    | «variable» name =>
      simp only [bind_ok] at ran
      obtain ⟨o, d, residence, ran⟩ := ran
      obtain ⟨moves, reserved, _, inside, _⟩ : Moves site .still b [] d ∧ _ :=
        residence?_moves sound residence
      cases o with
      | some r =>
        obtain rfl := emitInstr_ok.mp ran
        exact ⟨⟨_, .resident many moves (inside r rfl)⟩, reserved⟩
      | none =>
        simp only [bind_ok, emitInstr_ok] at ran
        obtain ⟨_, e, copies, rfl⟩ := ran
        obtain ⟨⟨is, copied⟩, reserved'⟩ : (∃ is, Copied site 7 d (.variable name) is e) ∧ _ :=
          copyTo_copied (moves.sound sound) copies
        exact ⟨⟨_, .slot many moves copied⟩, reserved'.trans reserved⟩

/-- The limits of passing arguments to a number of slots. -/
def passing (slots : Nat) : Limits := { locked := Reg.all, free := (List.finRange 8).filter fun j => j.val < 4 || j.val = 7, outgoing := slots }

theorem Passed.moves {i n : Nat} {x : Operand} {is : List Asm.Instr} (passed : Passed site b i x is c)
    (bound : i < n) : Moves site (passing n) b is c := by
  have wider {free : List (Fin 8)} {a c : Body} {is : List Asm.Instr}
      (moves : Moves site ⟨Reg.all, none, free, 0⟩ a is c) (few : ∀ j ∈ free, j ∈ [0, 1, 2, 3, 7]) :
      Moves site (passing n) a is c :=
    moves.mono ⟨fun _ member => member, .inl rfl, few, Nat.zero_le _⟩
  have pass {a : Body} (same : a.layout = b.layout) (x : MachineReg) :
      Move site (passing n) a [.sw x (outgoingWord b.layout i)]
        { a with out := a.out.append [.sw x (outgoingWord b.layout i)] } := by
    rw [← same]
    exact .pass bound
  cases passed with
  | register same few copied =>
    rename_i j
    refine wider copied.moves ?_
    intro k member
    simp only [List.mem_singleton] at member
    have cases : k = 0 ∨ k = 1 ∨ k = 2 ∨ k = 3 := by omega
    rcases cases with rfl | rfl | rfl | rfl <;> simp
  | resident many moves resides =>
    exact (wider moves (by simp)).trans (.one (pass moves.sameProcedure.layout _))
  | slot many moves copied =>
    have copies := wider copied.moves (by simp)
    refine ((wider moves (by simp)).trans copies).trans (.one (pass ?_ _))
    exact copies.sameProcedure.layout.trans moves.sameProcedure.layout

/-- The arguments from a position on, passed one after the other. -/
inductive PassedAll (site : Site) : Nat → List Operand → Body → List Asm.Instr → Body → Prop
  | nil (i : Nat) (b : Body) : PassedAll site i [] b [] b
  | cons {i : Nat} {x : Operand} {xs : List Operand} {b c d : Body} {is js : List Asm.Instr} :
      Passed site b i x is d → PassedAll site (i + 1) xs d js c →
      PassedAll site i (x :: xs) b (is ++ js) c

theorem passArguments_passed {i : Nat} {xs : List Operand} (sound : b.store.Sound)
    (ran : passArguments site i xs b = .ok ((), c)) :
    (∃ is, PassedAll site i xs b is c) ∧ c.reserved = b.reserved := by
  induction xs generalizing i b with
  | nil =>
    obtain ⟨_, rfl⟩ := pure_ok.mp ran
    exact ⟨⟨[], .nil i b⟩, rfl⟩
  | cons x xs ih =>
    simp only [passArguments, bind_ok, within_ok] at ran
    obtain ⟨_, d, first, rest⟩ := ran
    obtain ⟨⟨is, passed⟩, reserved⟩ := passArgument_passed sound first
    have moves := passed.moves (Nat.lt_succ_self i)
    obtain ⟨⟨js, others⟩, reserved'⟩ := ih (moves.sound sound) rest
    exact ⟨⟨_, .cons passed others⟩, reserved'.trans reserved⟩

theorem PassedAll.moves {i n : Nat} {xs : List Operand} {is : List Asm.Instr}
    (passed : PassedAll site i xs b is c) (bound : i + xs.length ≤ n) :
    Moves site (passing n) b is c := by
  induction passed with
  | nil i b => exact .refl b
  | cons first _ ih =>
    simp only [List.length_cons] at bound
    exact (first.moves (by omega)).trans (ih (by omega))

/-! Temporaries -/

/-- The spare word at a position. -/
def spareWord (b : Body) (i : Nat) : Mem :=
  frameWord (b.layout.localOffset (b.spare.first + Int64.ofNat i))

/-- How a spare word is found for a name: one whose owner is not needed any more, which is then
forgotten, else a new one. -/
inductive Spared (site : Site) (b : Body) (name : String) : Nat → Body → Prop
  | reuse {i : Nat} {owner : String} {v : Var} :
      b.spare.owners[i]? = some owner → laterUse site b owner = false →
      b.store.lookup owner = some v →
      Spared site b name i { b with
        store := b.store.drop v, spare := { b.spare with owners := b.spare.owners.set i name } }
  | stale {i : Nat} {owner : String} :
      b.spare.owners[i]? = some owner → laterUse site b owner = false →
      b.store.lookup owner = none →
      Spared site b name i { b with spare := { b.spare with owners := b.spare.owners.set i name } }
  | new :
      (∀ owner ∈ b.spare.owners, laterUse site b owner = true) →
      b.spare.first + Int64.ofNat b.spare.owners.length < b.spare.limit →
      Spared site b name b.spare.owners.length
        { b with spare := { b.spare with owners := b.spare.owners ++ [name] } }

theorem spareWord?_spared {name : String} {o : Option Mem}
    (ran : spareWord? site name b = .ok (o, c)) :
    (o = none ∧ b = c) ∨ ∃ i, o = some (spareWord b i) ∧ Spared site b name i c := by
  simp only [spareWord?, bind_ok, get_ok] at ran
  obtain ⟨_, _, ⟨rfl, rfl⟩, ran⟩ := ran
  cases search : b.spare.owners.findIdx? fun owner => !laterUse site b owner with
  | some i =>
    obtain ⟨bound, unused, _⟩ := List.findIdx?_eq_some_iff_getElem.mp search
    have owner := List.getElem?_eq_getElem bound
    simp only [Bool.not_eq_true'] at unused
    simp only [search, owner, Option.bind_some] at ran
    cases known : b.store.lookup b.spare.owners[i] with
    | some v =>
      simp only [known, bind_ok, modifyStore_ok, modify_ok, pure_ok] at ran
      obtain ⟨_, _, rfl, _, _, rfl, rfl, rfl⟩ := ran
      exact .inr ⟨i, rfl, .reuse owner unused known⟩
    | none =>
      simp only [known, bind_ok, modify_ok, pure_ok] at ran
      obtain ⟨_, _, rfl, rfl, rfl⟩ := ran
      exact .inr ⟨i, rfl, .stale owner unused known⟩
  | none =>
    simp only [search] at ran
    split at ran
    · rename_i room
      simp only [bind_ok, modify_ok, pure_ok] at ran
      obtain ⟨_, _, rfl, rfl, rfl⟩ := ran
      refine .inr ⟨_, rfl, .new ?_ room⟩
      intro owner member
      have := List.findIdx?_eq_none_iff.mp search owner member
      simpa using this
    · obtain ⟨rfl, rfl⟩ := pure_ok.mp ran
      exact .inl ⟨rfl, rfl⟩

/-- What is done for the variable in a register that the call may change: nothing if it has a home
or is not needed, else it gets a saved register or a spare word. -/
inductive Keep (site : Site) (r : Reg) (b : Body) : List Asm.Instr → Body → Prop
  | skip :
      (∀ v e, v ∈ b.store.held r → b.store.get? v = some e →
        e.home.isSome = true ∨ laterUse site b e.name = false) →
      Keep site r b [] b
  | register {v : Var} {e : Entry Mem} {s : Reg} :
      v ∈ b.store.held r → b.store.Has v e → e.home = none → laterUse site b e.name = true →
      s ∈ Reg.savedRegs → b.store.isUsable s = true → (∀ w, w ∉ b.store.held s) → s ∉ b.reserved →
      Keep site r b [.mv (.pool s) (.pool r)] { b with
        out := b.out.append [.mv (.pool s) (.pool r)]
        store := b.store.bind s v
        reserved := s :: b.reserved }
  | word {v : Var} {e : Entry Mem} {i : Nat} {c : Body} :
      v ∈ b.store.held r → b.store.Has v e → e.home = none → laterUse site b e.name = true →
      Spared site b e.name i c →
      Keep site r b [.sw (.pool r) (spareWord b i)] { c with
        out := c.out.append [.sw (.pool r) (spareWord b i)]
        store := (c.store.declare e.name (some (spareWord b i))).2 }

theorem freeSaved?_eq_some {s : Reg} (found : freeSaved? b = some s) :
    s ∈ Reg.savedRegs ∧ b.store.isUsable s = true ∧ (∀ w, w ∉ b.store.held s) ∧ s ∉ b.reserved := by
  have free := List.find?_some found
  simp only [Bool.and_eq_true, Bool.not_eq_true', List.contains_eq_mem, decide_eq_false_iff_not, Store.isFree,
    KeySet.isEmpty_iff] at free
  exact ⟨List.mem_of_find?_eq_some found, free.1.1, free.1.2, free.2⟩

theorem keep_ok {r : Reg} (sound : b.store.Sound) (ran : keep site r b = .ok ((), c)) :
    ∃ is, Keep site r b is c := by
  simp only [keep, bind_ok, get_ok] at ran
  obtain ⟨_, _, ⟨rfl, rfl⟩, ran⟩ := ran
  cases holder : b.store.holder? r with
  | none =>
    simp only [holder] at ran
    obtain ⟨_, rfl⟩ := pure_ok.mp ran
    have empty := KeySet.first?_eq_none_iff.mp holder
    exact ⟨[], .skip fun v _ held => absurd held (empty v)⟩
  | some v =>
    have held := KeySet.mem_of_first? holder
    simp only [holder, bind_ok, entryOf_ok, get_ok] at ran
    obtain ⟨e, _, ⟨entry, rfl⟩, _, _, ⟨rfl, rfl⟩, ran⟩ := ran
    obtain ⟨f, known, _⟩ := sound.known_of_held held
    cases Option.some.inj (entry.symm.trans known.1)
    split at ran
    · rename_i unneeded
      obtain ⟨_, rfl⟩ := pure_ok.mp ran
      refine ⟨[], .skip fun w f member found => ?_⟩
      cases sound.eq_of_held held member
      cases Option.some.inj (entry.symm.trans found)
      simpa using unneeded
    · rename_i needed
      simp only [Bool.or_eq_true, Bool.not_eq_true', not_or, Bool.not_eq_true,
        Option.isSome_eq_false_iff, Option.isNone_iff_eq_none, Bool.not_eq_false] at needed
      simp only [bind_ok, get_ok] at ran
      obtain ⟨_, _, ⟨rfl, rfl⟩, ran⟩ := ran
      cases free : freeSaved? b with
      | some s =>
        obtain ⟨saved, usable, empty, unreserved⟩ := freeSaved?_eq_some free
        simp only [free, bind_ok, emitInstr_ok, modifyStore_ok, reserve_ok] at ran
        obtain ⟨_, _, rfl, _, _, rfl, rfl⟩ := ran
        exact ⟨_, .register held known needed.1 needed.2 saved usable empty unreserved⟩
      | none =>
        simp only [free, bind_ok] at ran
        obtain ⟨o, d, spared, ran⟩ := ran
        rcases spareWord?_spared spared with ⟨rfl, rfl⟩ | ⟨i, rfl, found⟩
        · exact (failWith_ok.mp ran).elim
        · simp only [bind_ok, emitInstr_ok, modifyStore_ok] at ran
          obtain ⟨_, _, rfl, rfl⟩ := ran
          exact ⟨_, .word held known needed.1 needed.2 found⟩

/-! Invariants of keeping temporaries -/

/-- Every variable with a home is valid there. -/
def Settled (s : Store Mem) : Prop :=
  ∀ v e, s.Has v e → e.home.isSome = true → e.homeValid = true

/-- While the registers of the list wait, each of them is the only location of its variable, and
no variable is in two registers that a call may change, nor in two that it keeps. -/
structure Keeping (rs : List Reg) (s : Store Mem) : Prop where
  waiting : ∀ r ∈ rs, ∀ v e, s.get? v = some e → r ∈ e.regs → ∀ q, q ∈ e.regs → q = r
  temporary : ∀ v e q r, s.get? v = some e → q ∈ e.regs → r ∈ e.regs →
    q.isTemporary = r.isTemporary → q = r

theorem Spared.sound {name : String} {i : Nat} (spared : Spared site b name i c)
    (sound : b.store.Sound) : c.store.Sound := by
  cases spared with
  | reuse owner unused known =>
    obtain ⟨e, has, _⟩ := Store.lookup_spec known
    exact sound.drop has.1
  | stale => exact sound
  | new => exact sound

/-- Finding a spare word forgets nothing but its owner. -/
theorem Spared.has {name : String} {i : Nat} {v : Var} {e : Entry Mem}
    (spared : Spared site b name i c) (known : c.store.Has v e) : b.store.Has v e := by
  cases spared with
  | reuse owner unused found =>
    obtain ⟨entry, live⟩ := known
    rw [Store.get?_drop] at entry
    split at entry
    · obtain ⟨f, _, rfl⟩ := Option.map_eq_some_iff.mp entry
      simp at live
    · exact ⟨entry, live⟩
  | stale => exact known
  | new => exact known

/-- Whatever is not the displaced owner stays known. -/
theorem Spared.stays {name : String} {i : Nat} {v : Var} {e : Entry Mem}
    (spared : Spared site b name i c) (known : b.store.Has v e)
    (other : laterUse site b e.name = true ∨ e.name ∉ b.spare.owners) : c.store.Has v e := by
  cases spared with
  | @reuse i owner w found unused lookup =>
    refine ⟨?_, known.2⟩
    rw [Store.get?_drop, if_neg]
    · exact known.1
    · rintro rfl
      obtain ⟨f, has, same⟩ := Store.lookup_spec lookup
      cases Option.some.inj (known.1.symm.trans has.1)
      rcases other with later | outside
      · simp [same, unused] at later
      · exact outside (same ▸ List.mem_of_getElem? found)
  | stale => exact known
  | new => exact known

theorem Keep.sound {r : Reg} {is : List Asm.Instr} (keep : Keep site r b is c)
    (sound : b.store.Sound) : c.store.Sound := by
  cases keep with
  | skip => exact sound
  | register held known homeless later saved usable empty =>
    exact sound.bind known (fun w member => absurd member (empty w)) usable
  | word held known homeless later spared => exact (spared.sound sound).declare _ _

/-- The entries after a register was seen to are those before it, with a further register or a
home for the variable in it. -/
theorem Keep.entry {r : Reg} {is : List Asm.Instr} {w : Var} {f : Entry Mem}
    (keep : Keep site r b is c) (sound : b.store.Sound) (after : c.store.Has w f) :
    b.store.Has w f ∨
    ∃ e, b.store.Has w e ∧ r ∈ e.regs ∧ e.home = none ∧ laterUse site b e.name = true ∧
      ((∃ s ∈ Reg.savedRegs, (∀ u, u ∉ b.store.held s) ∧ f = { e with regs := e.regs.insert s }) ∨
        ∃ i, f = { e with home := some (spareWord b i), homeValid := true }) := by
  have listed {v : Var} {e : Entry Mem} (held : v ∈ b.store.held r) (known : b.store.Has v e) :
      r ∈ e.regs := by
    obtain ⟨g, found, inside⟩ := (sound.listed r v).mp held
    cases Option.some.inj (known.1.symm.trans found)
    exact inside
  cases keep with
  | skip => exact .inl after
  | @register v e s held known homeless later saved usable empty =>
    obtain ⟨entry, live⟩ := after
    rw [Store.get?_bind (fun u member => absurd member (empty u))] at entry
    split at entry
    · rename_i same
      subst same
      rw [known.1, Option.map_some] at entry
      cases Option.some.inj entry
      exact .inr ⟨e, known, listed held known, homeless, later, .inl ⟨s, saved, empty, rfl⟩⟩
    · exact .inl ⟨entry, live⟩
  | @word v e i d held known homeless later spared =>
    have stays := spared.stays known (.inl later)
    obtain ⟨entry, live⟩ := after
    rw [Store.declare_of_known ((spared.sound sound).lookup_eq stays), Store.get?_modifyEntry] at entry
    split at entry
    · rename_i same
      subst same
      rw [stays.1, Option.map_some] at entry
      cases Option.some.inj entry
      exact .inr ⟨e, known, listed held known, homeless, later, .inr ⟨i, rfl⟩⟩
    · exact .inl (spared.has ⟨entry, live⟩)

theorem Keep.kept {r : Reg} {is : List Asm.Instr} (keep : Keep site r b is c)
    (sound : b.store.Sound) (kept : Kept b.store none) : Kept c.store none := by
  intro v f after _
  rcases keep.entry sound after with before | ⟨e, before, inside, _, _, ⟨s, _, _, rfl⟩ | ⟨i, rfl⟩⟩
  · exact kept v f before (by simp)
  · exact .inr ⟨r, by simp [inside]⟩
  · exact .inl rfl

theorem Keep.settled {r : Reg} {is : List Asm.Instr} (keep : Keep site r b is c)
    (sound : b.store.Sound) (settled : Settled b.store) : Settled c.store := by
  intro v f after homed
  rcases keep.entry sound after with before | ⟨e, before, inside, homeless, _, ⟨s, _, _, rfl⟩ | ⟨i, rfl⟩⟩
  · exact settled v f before homed
  · simp [homeless] at homed
  · rfl

theorem isTemporary_of_saved : ∀ s ∈ Reg.savedRegs, s.isTemporary = false := by decide

theorem savedRegs_of_not_temporary : ∀ r : Reg, r.isTemporary = false → r ∈ Reg.savedRegs := by decide

theorem Keep.keeping {r : Reg} {rs : List Reg} {is : List Asm.Instr} (keep : Keep site r b is c)
    (sound : b.store.Sound) (temporary : ∀ q ∈ r :: rs, q.isTemporary = true) (fresh : r ∉ rs)
    (keeping : Keeping (r :: rs) b.store) : Keeping rs c.store := by
  have sound' := keep.sound sound
  constructor
  · intro p member v f entry inside q listed
    have waits := keeping.waiting p (by simp [member]) v
    rcases keep.entry sound (sound'.known_of_reg entry inside) with
      before | ⟨e, before, held, homeless, _, ⟨s, saved, empty, rfl⟩ | ⟨i, rfl⟩⟩
    · exact waits f before.1 inside q listed
    · rcases KeySet.mem_insert.mp inside with rfl | inside
      · have wrong := temporary p (by simp [member])
        rw [isTemporary_of_saved p saved] at wrong
        contradiction
      · -- the variable in `r` waits in no other register
        have same := keeping.waiting r (by simp) v e before.1 held p inside
        exact absurd (same ▸ member) fresh
    · exact waits e before.1 inside q listed
  · intro v f p q entry left right same
    rcases keep.entry sound (sound'.known_of_reg entry left) with
      before | ⟨e, before, held, homeless, _, ⟨s, saved, empty, rfl⟩ | ⟨i, rfl⟩⟩
    · exact keeping.temporary v f p q before.1 left right same
    · have only := keeping.waiting r (by simp) v e before.1 held
      have one := temporary r (by simp)
      have two := isTemporary_of_saved s saved
      rcases KeySet.mem_insert.mp left with rfl | old <;>
        rcases KeySet.mem_insert.mp right with rfl | old'
      · rfl
      · rw [only q old', one, two] at same
        contradiction
      · rw [only p old, one, two] at same
        contradiction
      · rw [only p old, only q old']
    · exact keeping.temporary v e p q before.1 left right same

/-- The registers of a list, seen to one after the other. -/
inductive KeepAll (site : Site) : List Reg → Body → List Asm.Instr → Body → Prop
  | nil (b : Body) : KeepAll site [] b [] b
  | cons {r : Reg} {rs : List Reg} {b c d : Body} {is js : List Asm.Instr} :
      Keep site r b is d → KeepAll site rs d js c → KeepAll site (r :: rs) b (is ++ js) c

theorem keepAll_ok {rs : List Reg} (sound : b.store.Sound)
    (ran : rs.forM (keep site) b = .ok ((), c)) : ∃ is, KeepAll site rs b is c := by
  induction rs generalizing b with
  | nil =>
    obtain rfl := forM_nil_ok.mp ran
    exact ⟨[], .nil b⟩
  | cons r rs ih =>
    obtain ⟨d, first, rest⟩ := forM_cons_ok.mp ran
    obtain ⟨is, keep⟩ := keep_ok sound first
    obtain ⟨js, others⟩ := ih (keep.sound sound) rest
    exact ⟨_, .cons keep others⟩

theorem KeepAll.invariants {rs : List Reg} {is : List Asm.Instr} (keeps : KeepAll site rs b is c)
    (sound : b.store.Sound) (kept : Kept b.store none) (settled : Settled b.store)
    (temporary : ∀ q ∈ rs, q.isTemporary = true) (distinct : rs.Nodup) (keeping : Keeping rs b.store) :
    c.store.Sound ∧ Kept c.store none ∧ Settled c.store ∧ Keeping [] c.store := by
  induction keeps with
  | nil b => exact ⟨sound, kept, settled, keeping⟩
  | cons keep _ ih =>
    obtain ⟨fresh, distinct⟩ := List.nodup_cons.mp distinct
    exact ih (keep.sound sound) (keep.kept sound kept) (keep.settled sound settled)
      (fun q member => temporary q (by simp [member])) distinct
      (keep.keeping sound temporary fresh keeping)

/-- A call does not lose the variable: it has a home or is in a register that a callee keeps. -/
def Secured (e : Entry Mem) : Prop := e.home.isSome = true ∨ ∃ s ∈ Reg.savedRegs, s ∈ e.regs

theorem Keep.pending {r : Reg} {is : List Asm.Instr} (keep : Keep site r b is c) :
    c.pending = b.pending := by
  cases keep with
  | skip => rfl
  | register => rfl
  | word _ _ _ _ spared => cases spared <;> rfl

theorem Keep.retains {r : Reg} {is : List Asm.Instr} {v : Var} {e : Entry Mem}
    (keep : Keep site r b is c) (sound : b.store.Sound) (known : b.store.Has v e)
    (later : laterUse site b e.name = true) :
    ∃ f, c.store.Has v f ∧ f.name = e.name ∧ (∀ q, q ∈ e.regs → q ∈ f.regs) ∧
      (Secured e ∨ r ∈ e.regs → Secured f) := by
  have waits (w : Var) (held : w ∈ b.store.held r) (other : v ≠ w) (listed : r ∈ e.regs) : False :=
    other (sound.eq_of_held ((sound.listed r v).mpr ⟨e, known.1, listed⟩) held)
  cases keep with
  | skip unneeded =>
    refine ⟨e, known, rfl, fun _ listed => listed, fun cases => ?_⟩
    rcases cases with secured | listed
    · exact secured
    · refine .inl ((unneeded v e ((sound.listed r v).mpr ⟨e, known.1, listed⟩) known.1).resolve_right ?_)
      simp [later]
  | @register w g s held has homeless _ saved usable empty =>
    have own : ∀ u, u ∈ b.store.held s → u = w := fun u member => absurd member (empty u)
    have entry := Store.get?_bind own v
    by_cases same : v = w
    · subst same
      cases Option.some.inj (known.1.symm.trans has.1)
      rw [if_pos rfl, known.1, Option.map_some] at entry
      exact ⟨_, ⟨entry, known.2⟩, rfl, fun q listed => by simp [listed],
        fun _ => .inr ⟨s, saved, by simp⟩⟩
    · rw [if_neg same] at entry
      refine ⟨e, ⟨entry.trans known.1, known.2⟩, rfl, fun _ listed => listed, fun cases => ?_⟩
      exact cases.resolve_right fun listed => waits w held same listed
  | @word w g i d held has homeless needed spared =>
    have stays := spared.stays known (.inl later)
    have entry := Store.declare_of_known ((spared.sound sound).lookup_eq (spared.stays has (.inl needed)))
      (some (spareWord b i))
    by_cases same : v = w
    · subst same
      cases Option.some.inj (known.1.symm.trans has.1)
      refine ⟨{ e with home := some (spareWord b i), homeValid := true }, ⟨?_, known.2⟩, rfl,
        fun _ listed => listed, fun _ => .inl rfl⟩
      rw [entry, Store.get?_modifyEntry, if_pos rfl, stays.1]
      rfl
    · refine ⟨e, ⟨?_, known.2⟩, rfl, fun _ listed => listed, fun cases => ?_⟩
      · rw [entry, Store.get?_modifyEntry, if_neg same]
        exact stays.1
      · exact cases.resolve_right fun listed => waits w held same listed

/-- A variable that is needed later is secured when the registers have been seen to. -/
theorem KeepAll.secures {rs : List Reg} {is : List Asm.Instr} {v : Var} {e : Entry Mem}
    (keeps : KeepAll site rs b is c) (sound : b.store.Sound) (known : b.store.Has v e)
    (later : laterUse site b e.name = true) (waits : Secured e ∨ ∃ r ∈ rs, r ∈ e.regs) :
    ∃ f, c.store.Has v f ∧ f.name = e.name ∧ Secured f := by
  induction keeps generalizing e with
  | nil b => exact ⟨e, known, rfl, waits.resolve_right (by simp)⟩
  | @cons r rs b c d is js keep others ih =>
    obtain ⟨f, stays, name, more, secured⟩ := keep.retains sound known later
    have later' : laterUse site d f.name = true := by
      rw [name, laterUse, keep.pending]
      exact later
    have waits' : Secured f ∨ ∃ r ∈ rs, r ∈ f.regs := by
      rcases waits with safe | ⟨q, member, listed⟩
      · exact .inl (secured (.inl safe))
      · rcases List.mem_cons.mp member with rfl | member
        · exact .inl (secured (.inr listed))
        · exact .inr ⟨q, member, more q listed⟩
    obtain ⟨g, after, same, safe⟩ := ih (keep.sound sound) stays later' waits'
    exact ⟨g, after, same.trans name, safe⟩

/-! Forgetting -/

theorem Move.settled {a b : Body} {is : List Asm.Instr} (move : Move site limits a is b)
    (sound : a.store.Sound) (settled : Settled a.store) : Settled b.store := by
  intro v f known homed
  rcases move.entry_before sound known.1 with ⟨e, before, change⟩ | ⟨_, _, _, valid, _⟩
  · have valid := settled v e ⟨before, change.known known.2⟩ (change.home ▸ homed)
    exact (change.homeValid valid).resolve_right (by simp [known.2])
  · exact valid

/-- What a call leaves of the registers: nothing new is in one, and one of the list holds at most
a variable without a home that a callee keeps. -/
structure Forgotten (rs : List Reg) (b c : Body) : Prop where
  settled : Settled c.store
  reserved : c.reserved = b.reserved
  fewer : ∀ q w, w ∈ c.store.held q → w ∈ b.store.held q
  left : ∀ r ∈ rs, ∀ w e, w ∈ c.store.held r → c.store.get? w = some e →
    r.isTemporary = false ∧ e.home = none
  retained : ∀ v e, b.store.Has v e → Secured e → ∃ f, c.store.Has v f ∧ f.name = e.name ∧ Secured f

/-- A register is emptied if a call changes it or what it holds has a home, and else stays as it is. -/
theorem forget_cases {r : Reg} (sound : b.store.Sound) (ran : forget r b = .ok ((), c)) :
    (c = { b with store := b.store.clearRegister r } ∧
      ∀ v e, v ∈ b.store.held r → b.store.get? v = some e → r.isTemporary = true ∨ e.home.isSome = true) ∨
    (c = b ∧ ∀ v e, v ∈ b.store.held r → b.store.get? v = some e → r.isTemporary = false ∧ e.home = none) := by
  simp only [forget, bind_ok, get_ok] at ran
  obtain ⟨_, _, ⟨rfl, rfl⟩, ran⟩ := ran
  cases holder : b.store.holder? r with
  | none =>
    simp only [holder, bind_ok, pure_ok] at ran
    obtain ⟨_, _, ⟨rfl, rfl⟩, ran⟩ := ran
    have empty := KeySet.first?_eq_none_iff.mp holder
    split at ran
    · exact .inl ⟨(modifyStore_ok.mp ran).symm, fun v _ held => absurd held (empty v)⟩
    · exact .inr ⟨(pure_ok.mp ran).2.symm, fun v _ held => absurd held (empty v)⟩
  | some v =>
    simp only [holder, bind_ok, entryOf_ok, pure_ok] at ran
    obtain ⟨e, _, ⟨entry, rfl⟩, _, _, ⟨rfl, rfl⟩, ran⟩ := ran
    have only {w : Var} {f : Entry Mem} (held : w ∈ b.store.held r) (found : b.store.get? w = some f) : f = e := by
      cases sound.eq_of_held held (KeySet.mem_of_first? holder)
      exact Option.some.inj (found.symm.trans entry)
    split at ran
    · rename_i changes
      refine .inl ⟨(modifyStore_ok.mp ran).symm, fun w f held found => ?_⟩
      rw [only held found]
      simpa using changes
    · rename_i stays
      refine .inr ⟨(pure_ok.mp ran).2.symm, fun w f held found => ?_⟩
      rw [only held found]
      simpa using stays

/-- A variable without a home is in a saved register, and that one is not emptied. -/
theorem Secured.clear {r : Reg} {v : Var} {e : Entry Mem} (secured : Secured e) (sound : b.store.Sound)
    (known : b.store.Has v e)
    (changes : v ∈ b.store.held r → r.isTemporary = true ∨ e.home.isSome = true) :
    ∃ f, (b.store.clearRegister r).Has v f ∧ f.name = e.name ∧ Secured f := by
  have elsewhere (homeless : ¬ e.home.isSome = true) : ∃ s ∈ Reg.savedRegs, s ∈ e.regs ∧ s ≠ r := by
    obtain ⟨s, saved, listed⟩ := secured.resolve_left homeless
    refine ⟨s, saved, listed, ?_⟩
    rintro rfl
    have temporary := (changes ((sound.listed s v).mpr ⟨e, known.1, listed⟩)).resolve_right homeless
    rw [isTemporary_of_saved s saved] at temporary
    contradiction
  obtain ⟨f, after, name, home, more⟩ := clear_retains sound known fun _ => by
    by_cases homed : e.home.isSome = true
    · exact .inl homed
    · obtain ⟨s, _, listed, other⟩ := elsewhere homed
      exact .inr ⟨s, KeySet.mem_erase.mpr ⟨listed, other⟩⟩
  refine ⟨f, after, name, ?_⟩
  by_cases homed : e.home.isSome = true
  · exact .inl (home ▸ homed)
  · obtain ⟨s, saved, listed, other⟩ := elsewhere homed
    exact .inr ⟨s, saved, more s listed other⟩

theorem forget_ok {r : Reg} (sound : b.store.Sound) (settled : Settled b.store)
    (ran : forget r b = .ok ((), c)) : Moves site {} b [] c ∧ Forgotten [r] b c := by
  rcases forget_cases sound ran with ⟨rfl, changes⟩ | ⟨rfl, stays⟩
  · have clear : Move site {} b [] { b with store := b.store.clearRegister r } := by
      refine .clear (by simp) fun v e held entry homed _ => ?_
      obtain ⟨f, known, _⟩ := sound.known_of_held held
      cases Option.some.inj (entry.symm.trans known.1)
      simp [Entry.hasCopyBeside, settled v e known homed]
    refine ⟨.one clear, clear.settled sound settled, rfl, fun q w held => ?_, ?_, fun v e known secured => ?_⟩
    · dsimp only at held
      rw [Store.held_clearRegister (sound.single r)] at held
      split at held
      · exact absurd held (KeySet.not_mem_empty w)
      · exact held
    · intro q member w e held
      rw [List.mem_singleton.mp member] at held
      simp [Store.held_clearRegister (sound.single r)] at held
    · exact secured.clear sound known fun held => changes v e held known.1
  · refine ⟨.refl c, settled, rfl, fun _ _ held => held, ?_, fun v e known safe => ⟨e, known, rfl, safe⟩⟩
    intro q member w f held found
    rw [List.mem_singleton.mp member] at held ⊢
    exact stays w f held found

theorem forgetAll_ok {rs : List Reg} (sound : b.store.Sound) (settled : Settled b.store)
    (ran : rs.forM forget b = .ok ((), c)) : Moves site {} b [] c ∧ Forgotten rs b c := by
  induction rs generalizing b with
  | nil =>
    obtain rfl := forM_nil_ok.mp ran
    exact ⟨.refl b, settled, rfl, fun _ _ held => held, by simp, fun v e known safe => ⟨e, known, rfl, safe⟩⟩
  | cons r rs ih =>
    obtain ⟨d, first, rest⟩ := forM_cons_ok.mp ran
    obtain ⟨moves, one⟩ : Moves site {} b [] d ∧ _ := forget_ok sound settled first
    have sound' := moves.sound sound
    obtain ⟨others, all⟩ := ih sound' one.settled rest
    refine ⟨moves.trans others, all.settled, all.reserved.trans one.reserved, ?_, ?_, ?_⟩
    · exact fun q w held => one.fewer q w (all.fewer q w held)
    · intro q member w f held found
      rcases List.mem_cons.mp member with rfl | member
      · have before := all.fewer q w held
        obtain ⟨e, known, _⟩ := sound'.known_of_held before
        obtain ⟨g, after, _, home⟩ := others.entry_name sound' known.1
        cases Option.some.inj (found.symm.trans after)
        rw [home]
        exact one.left q (by simp) w e before known.1
      · exact all.left q member w f held found
    · intro v e known safe
      obtain ⟨f, stays, name, safe⟩ := one.retained v e known safe
      obtain ⟨g, after, same, safe⟩ := all.retained v f stays safe
      exact ⟨g, after, same.trans name, safe⟩

/-! The whole call -/

/-- What becomes of the callee's result. -/
inductive Answered (site : Site) (b : Body) : Option String → List Asm.Instr → Body → Prop
  | nothing : Answered site b none [] b
  | result {c d : Body} {res : String} {r : Reg} {is : List Asm.Instr} :
      Moves site ⟨b.reserved, some res, [], 0⟩ b is c →
      Assigned site res c r [.mv (.pool r) .result] d →
      Answered site b (some res) (is ++ [.mv (.pool r) .result]) d

/-- A call up to its jump. -/
def prepareCall (site : Site) (args : List Operand) : Step Unit := do
  passArguments site 0 args
  writeBack
  Reg.temporaries.forM (keep site)

/-- A call behind its jump, when what the function may have changed is forgotten. -/
def answerCall (site : Site) : Option String → Step Unit
  | none => pure ()
  | some res => do
    let r ← within .result (acquire site res ⟨none, some res⟩)
    emitInstr (.mv (.pool r) .result)
    commit site r res

/-- The parts of a call: arguments are passed, variables are written back, temporaries are kept;
the function is called; what it may have changed is forgotten, and its result is assigned. -/
structure Called (site : Site) (function : String) (res : Option String) (b : Body) (c : Body)
    (is js ks ls : List Asm.Instr) (b₁ b₂ b₃ b₄ : Body) : Prop where
  planned : ∃ l, Frame.find site.frames function = .ok l
  arity : ∃ f, site.table.lookup function = some f ∧ b.pending.length = f.params.length
  passes : passArguments site 0 b.pending { b with pending := [] } = .ok ((), b₁)
  passed : PassedAll site 0 b.pending { b with pending := [] } is b₁
  wrote : Moves site .still b₁ js b₂
  stores : ∀ x ∈ js, isStore x = true
  clean : Clean b₂
  kept : KeepAll site Reg.temporaries b₂ ks b₃
  prepared : prepareCall site b.pending { b with pending := [] } = .ok ((), b₃)
  forgets : Moves site {} { b₃ with
    out := b₃.out.append (jumpInstrs site.options (.jal function)) } [] b₄
  forgotten : Forgotten Reg.all { b₃ with
    out := b₃.out.append (jumpInstrs site.options (.jal function)) } b₄
  answered : Answered site b₄ res ls c
  retained : ∀ v e, b₄.store.Has v e → laterUse site b₄ e.name = true → res ≠ some e.name →
    ∃ f, c.store.Has v f ∧ f.name = e.name

theorem Clean.settled (clean : Clean b) (kept : Kept b.store none) : Settled b.store := by
  intro v e known homed
  rcases kept v e known (by simp) with valid | ⟨r, listed⟩
  · exact valid
  · exact clean.homeValid known homed listed

theorem keeping_of_alone {s : Store Mem} (alone : Alone s) (rs : List Reg) : Keeping rs s :=
  ⟨fun r _ v e entry inside q listed => alone v e q r entry listed inside,
    fun v e q r entry left right _ => alone v e q r entry left right⟩

theorem Forgotten.alone (forgotten : Forgotten Reg.all b c) (sound : b.store.Sound)
    (sound' : c.store.Sound) (keeping : Keeping [] b.store) : Alone c.store := by
  intro v f q r entry left right
  have before {p : Reg} (inside : p ∈ f.regs) :
      p.isTemporary = false ∧ ∃ e, b.store.get? v = some e ∧ p ∈ e.regs := by
    have held := (sound'.listed p v).mpr ⟨f, entry, inside⟩
    exact ⟨(forgotten.left p (List.mem_finRange p) v f held entry).1,
      (sound.listed p v).mp (forgotten.fewer p v held)⟩
  obtain ⟨saved, e, found, listed⟩ := before left
  obtain ⟨saved', e', found', listed'⟩ := before right
  cases Option.some.inj (found.symm.trans found')
  exact keeping.temporary v e q r found listed listed' (saved.trans saved'.symm)

theorem temporaries_isTemporary : ∀ r ∈ Reg.temporaries, r.isTemporary = true := by decide

theorem answer_ok {res : Option String} (sound : b.store.Sound) (kept : Kept b.store none)
    (ran : answerCall site res b = .ok ((), c)) :
    (∃ is, Answered site b res is c) ∧ ∀ v e, b.store.Has v e → laterUse site b e.name = true →
      res ≠ some e.name → ∃ f, c.store.Has v f ∧ f.name = e.name := by
  cases res with
  | none =>
    obtain ⟨_, rfl⟩ := pure_ok.mp ran
    exact ⟨⟨[], .nothing⟩, fun v e known _ _ => ⟨e, known, rfl⟩⟩
  | some res =>
    simp only [answerCall, bind_ok, within_ok, emitInstr_ok] at ran
    obtain ⟨r, d, taking, _, _, rfl, ran⟩ := ran
    obtain ⟨⟨is, moves⟩, taken⟩ := acquire_moves sound taking
    have sound' := moves.sound sound
    have assigned := commit_assigned sound' (taken.ready sound') (by simp [isResult]) ran
    refine ⟨⟨_, .result moves assigned⟩, fun v e known later other => ?_⟩
    have located {s : Store Mem} {f : Entry Mem} (sound : s.Sound) (known : s.Has v f)
        (copy : f.homeValid = true ∨ ∃ r, r ∈ f.regs) : f.home.isSome = true ∨ ∃ q, q ∈ f.regs :=
      copy.imp_left (sound.housed v f known.1)
    obtain ⟨f, stays, name⟩ := acquire_retains sound taking known
      (located sound known (kept v e known (by simp))) later other
    have kept' := moves.kept sound (kept.some res)
    obtain ⟨g, after, same⟩ := assigned.retains sound' stays
      (located sound' stays (kept' v f stays (by rwa [name])))
    exact ⟨g, after, same.trans name⟩

/-- The steps that a call takes. -/
theorem call_steps {function : String} {res : Option String} (ran : call site function res b = .ok ((), c)) :
    ∃ l f b₁ b₂ b₃ b₄, Frame.find site.frames function = .ok l ∧
      site.table.lookup function = some f ∧ b.pending.length = f.params.length ∧
      passArguments site 0 b.pending { b with pending := [] } = .ok ((), b₁) ∧
      writeBack b₁ = .ok ((), b₂) ∧ Reg.temporaries.forM (keep site) b₂ = .ok ((), b₃) ∧
      Reg.all.forM forget { b₃ with out := b₃.out.append (jumpInstrs site.options (.jal function)) } =
        .ok ((), b₄) ∧
      answerCall site res b₄ = .ok ((), c) := by
  simp only [call, bind_ok, liftM_ok] at ran
  obtain ⟨l, _, ⟨found, rfl⟩, ran⟩ := ran
  cases symbol : site.table.lookup function with
  | none =>
    simp only [symbol] at ran
    exact (failWith_ok.mp ran).elim
  | some f =>
    simp only [symbol, bind_ok, get_ok, modify_ok] at ran
    obtain ⟨_, _, ⟨rfl, rfl⟩, _, _, rfl, ran⟩ := ran
    split at ran
    · exact (failWith_ok.mp ran).elim
    · rename_i arity
      simp only [bind_ok, emitAll_ok] at ran
      obtain ⟨_, b₁, passes, _, b₂, wrote, _, b₃, keeps, _, _, rfl, _, b₄, forgets, answers⟩ := ran
      refine ⟨l, f, b₁, b₂, b₃, b₄, found, rfl, by simpa using arity, passes, wrote, keeps, forgets, ?_⟩
      cases res with
      | none => exact answers
      | some res => exact answers

/-- What a call leaves before its jump: every variable with a home is in it, and one without is kept. -/
theorem prepare_ok {args : List Operand} {b₁ b₂ b₃ : Body} (consistent : Consistent b.store)
    (passes : passArguments site 0 args b = .ok ((), b₁)) (wrote : writeBack b₁ = .ok ((), b₂))
    (keeps : Reg.temporaries.forM (keep site) b₂ = .ok ((), b₃)) :
    ∃ is js ks, PassedAll site 0 args b is b₁ ∧
      (Moves site .still b₁ js b₂ ∧ (∀ x ∈ js, isStore x = true) ∧ Clean b₂) ∧
      KeepAll site Reg.temporaries b₂ ks b₃ ∧
      b₃.store.Sound ∧ Kept b₃.store none ∧ Settled b₃.store ∧ Keeping [] b₃.store := by
  obtain ⟨⟨is, passed⟩, _⟩ := passArguments_passed consistent.sound passes
  have consistent₁ := (passed.moves (Nat.le_refl _)).consistent rfl consistent
  obtain ⟨⟨js, moves, stores⟩, _, clean⟩ : (∃ js, Moves site .still b₁ js b₂ ∧ _) ∧ _ :=
    writeBack_moves wrote
  have consistent₂ := moves.consistent rfl consistent₁
  obtain ⟨ks, kept⟩ := keepAll_ok consistent₂.sound keeps
  refine ⟨is, js, ks, passed, ⟨moves, stores, clean⟩, kept, ?_⟩
  exact kept.invariants consistent₂.sound consistent₂.kept (clean.settled consistent₂.kept)
    temporaries_isTemporary (by decide) (keeping_of_alone consistent₂.alone _)

/-- A call that succeeds is made of these parts, and the descriptors are consistent again when the
function has returned. -/
theorem call_ok {function : String} {res : Option String} (consistent : Consistent b.store)
    (ran : call site function res b = .ok ((), c)) :
    ∃ is js ks ls b₁ b₂ b₃ b₄, Called site function res b c is js ks ls b₁ b₂ b₃ b₄ ∧
      Consistent b₄.store := by
  obtain ⟨l, f, b₁, b₂, b₃, b₄, found, symbol, arity, passes, wrote, keeps, forgets, answers⟩ :=
    call_steps ran
  obtain ⟨is, js, ks, passed, ⟨moves, stores, clean⟩, kept, sound₃, kept₃, settled₃, keeping₃⟩ :=
    prepare_ok (b := { b with pending := [] }) consistent passes wrote keeps
  obtain ⟨forgets, forgotten⟩ : Moves site {} _ [] b₄ ∧ _ := forgetAll_ok (b := { b₃ with
    out := b₃.out.append (jumpInstrs site.options (.jal function)) }) sound₃ settled₃ forgets
  have sound₄ := forgets.sound sound₃
  have kept₄ := forgets.kept sound₃ kept₃
  obtain ⟨⟨ls, answered⟩, retained⟩ := answer_ok sound₄ kept₄ answers
  have prepared : prepareCall site b.pending { b with pending := [] } = .ok ((), b₃) :=
    bind_ok.mpr ⟨(), b₁, passes, bind_ok.mpr ⟨(), b₂, wrote, keeps⟩⟩
  refine ⟨is, js, ks, ls, b₁, b₂, b₃, b₄, ?_, ?_⟩
  · exact ⟨⟨l, found⟩, ⟨f, symbol, arity⟩, passes, passed, moves, stores, clean, kept, prepared,
      forgets, forgotten, answered, retained⟩
  · exact ⟨sound₄, forgotten.alone sound₃ sound₄ keeping₃, kept₄⟩

theorem Answered.consistent {res : Option String} {is : List Asm.Instr}
    (answered : Answered site b res is c) (consistent : Consistent b.store) : Consistent c.store := by
  cases answered with
  | nothing => exact consistent
  | result moves assigned =>
    have sound := moves.sound consistent.sound
    exact ⟨assigned.sound sound, assigned.alone sound (moves.alone consistent.sound consistent.alone),
      assigned.kept sound (moves.kept consistent.sound (consistent.kept.some _))⟩

end ThreeAddress.Codegen
