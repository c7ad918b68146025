import ThreeAddress.Proofs.Moves

/-! Register allocation works in moves, and gives registers that hold what was asked for. -/
namespace ThreeAddress.Codegen

open Asm (Line Mem)
open Descriptor (Store Var Entry)

/-! Steps that succeed -/

section Steps

variable {α β : Type} {b c : Body}

theorem bind_ok {x : Step α} {f : α → Step β} {y : β} :
    (x >>= f) b = .ok (y, c) ↔ ∃ a d, x b = .ok (a, d) ∧ f a d = .ok (y, c) := by
  show (x b >>= fun p => f p.1 p.2) = _ ↔ _
  cases x b with
  | error e => simp [bind, Except.bind]
  | ok p =>
    obtain ⟨a, d⟩ := p
    constructor
    · exact fun ran => ⟨a, d, rfl, ran⟩
    · rintro ⟨_, _, same, ran⟩
      cases Except.ok.inj same
      exact ran

theorem pure_ok {x y : α} : (pure x : Step α) b = .ok (y, c) ↔ x = y ∧ b = c := by
  show Except.ok (x, b) = _ ↔ _
  simp

theorem get_ok {a : Body} : (get : Step Body) b = .ok (a, c) ↔ b = a ∧ b = c := by
  show Except.ok (b, b) = _ ↔ _
  simp

theorem modify_ok {f : Body → Body} {u : Unit} : (modify f : Step Unit) b = .ok (u, c) ↔ f b = c := by
  show Except.ok ((), f b) = _ ↔ _
  simp

theorem modifyStore_ok {f : Store Mem → Store Mem} {u : Unit} :
    modifyStore f b = .ok (u, c) ↔ { b with store := f b.store } = c := modify_ok

theorem reserve_ok {r : Reg} {u : Unit} :
    reserve r b = .ok (u, c) ↔ { b with reserved := r :: b.reserved } = c := modify_ok

theorem failWith_ok {cause : Cause} {y : α} : failWith cause b = .ok (y, c) ↔ False := by
  simp [failWith, fail]

theorem within_ok {x : Step α} {context : Context} {y : α} :
    within context x b = .ok (y, c) ↔ x b = .ok (y, c) := by
  unfold within
  cases x b with
  | error e => simp [inContext]
  | ok p => rfl

theorem liftM_ok {x : Except Error α} {y : α} :
    (liftM x : Step α) b = .ok (y, c) ↔ x = .ok y ∧ b = c := by
  show (x >>= fun a => Except.ok (a, b)) = _ ↔ _
  cases x with
  | error e => simp [bind, Except.bind]
  | ok a => simp [bind, Except.bind]

theorem emitInstr_ok {i : Asm.Instr} {u : Unit} :
    emitInstr i b = .ok (u, c) ↔ { b with out := b.out.append [i] } = c := modify_ok

theorem emitAll_ok {is : List Asm.Instr} {u : Unit} :
    emitAll is b = .ok (u, c) ↔ { b with out := b.out.append is } = c := by
  induction is generalizing b with
  | nil => exact pure_ok.trans (by simp)
  | cons i is ih =>
    have step : emitAll (i :: is) = emitInstr i >>= fun _ => emitAll is := rfl
    rw [step, bind_ok]
    simp only [emitInstr_ok, ih]
    constructor
    · rintro ⟨_, d, rfl, rfl⟩
      rfl
    · rintro rfl
      exact ⟨(), _, rfl, rfl⟩

theorem entryOf_ok {v : Var} {e : Entry Mem} :
    entryOf v b = .ok (e, c) ↔ b.store.get? v = some e ∧ b = c := by
  simp only [entryOf, bind_ok, get_ok]
  constructor
  · rintro ⟨a, d, ⟨rfl, rfl⟩, h⟩
    cases found : b.store.get? v with
    | some f =>
      simp only [found, pure_ok] at h
      exact ⟨h.1 ▸ rfl, h.2⟩
    | none => simp only [found, failWith_ok] at h
  · rintro ⟨found, rfl⟩
    exact ⟨b, b, ⟨rfl, rfl⟩, by simp [found, pure_ok]⟩

theorem forM_cons_ok {x : α} {xs : List α} {f : α → Step Unit} {u : Unit} :
    (x :: xs).forM f b = .ok (u, c) ↔ ∃ d, f x b = .ok ((), d) ∧ xs.forM f d = .ok (u, c) := by
  have step : (x :: xs).forM f = f x >>= fun _ => xs.forM f := rfl
  rw [step, bind_ok]
  exact ⟨fun ⟨_, d, first, rest⟩ => ⟨d, first, rest⟩, fun ⟨d, first, rest⟩ => ⟨(), d, first, rest⟩⟩

theorem forM_nil_ok {f : α → Step Unit} {u : Unit} : ([] : List α).forM f b = .ok (u, c) ↔ b = c :=
  pure_ok.trans (by simp)

/-- A step that only looks at the state, for each element of a list. -/
theorem mapM_of_reads {x : α → Step β} {xs : List α} {ys : List β}
    (reads : ∀ a d y e, x a d = .ok (y, e) → e = d) (ran : xs.mapM x b = .ok (ys, c)) :
    c = b ∧ ∀ y ∈ ys, ∃ a ∈ xs, x a b = .ok (y, b) := by
  induction xs generalizing ys b with
  | nil =>
    obtain ⟨rfl, rfl⟩ := pure_ok.mp (by simpa using ran)
    exact ⟨rfl, by simp⟩
  | cons a xs ih =>
    simp only [List.mapM_cons, bind_ok, pure_ok] at ran
    obtain ⟨y, d, first, zs, e, rest, rfl, rfl⟩ := ran
    obtain rfl := reads _ _ _ _ first
    obtain ⟨rfl, all⟩ := ih rest
    refine ⟨rfl, ?_⟩
    intro z member
    rcases List.mem_cons.mp member with rfl | member
    · exact ⟨a, by simp, first⟩
    · obtain ⟨a', within, ran⟩ := all z member
      exact ⟨a', by simp [within], ran⟩

end Steps

variable {site : Site} {limits : Limits} {b c : Body}

/-- Looking a name up mentions a global scalar at most. -/
theorem resolve?_moves {name : String} {o : Option Var} (sound : b.store.Sound)
    (ran : resolve? site name b = .ok (o, c)) :
    Moves site limits b [] c ∧ c.store.lookup name = o ∧ c.reserved = b.reserved ∧
      (∀ r, c.store.held r = b.store.held r) ∧
      (o = none → ∀ x, site.table.lookup name = some x → x.isScalar = false) := by
  simp only [resolve?, bind_ok, get_ok] at ran
  obtain ⟨_, _, ⟨rfl, rfl⟩, ran⟩ := ran
  cases known : b.store.lookup name with
  | some v =>
    simp only [known, pure_ok] at ran
    obtain ⟨rfl, rfl⟩ := ran
    exact ⟨.refl b, known, rfl, fun _ => rfl, by simp⟩
  | none =>
    cases symbol : site.table.lookup name with
    | none =>
      simp only [known, symbol, pure_ok] at ran
      obtain ⟨rfl, rfl⟩ := ran
      exact ⟨.refl b, known, rfl, fun _ => rfl, by simp⟩
    | some x =>
      simp only [known, symbol] at ran
      split at ran
      · rename_i scalar
        simp only [bind_ok, get_ok, modifyStore_ok, pure_ok] at ran
        obtain ⟨_, _, ⟨rfl, rfl⟩, _, _, rfl, rfl, rfl⟩ := ran
        have new := Store.declare_of_new known (some (Mem.global name))
        have entry := new.2 (b.store.declare name (some (.global name))).1
        rw [if_pos new.1] at entry
        refine ⟨.one (.mention known symbol scalar), ?_, rfl, fun r => ?_, by simp⟩
        · exact (sound.declare name _).lookup_eq ⟨entry, rfl⟩
        · exact Store.held_declare _ _ _
      · rename_i array
        obtain ⟨rfl, rfl⟩ := pure_ok.mp ran
        refine ⟨.refl b, known, rfl, fun _ => rfl, fun _ y found => ?_⟩
        cases Option.some.inj found
        simpa using array

theorem heldEntries_ok {r : Reg} {es : List (Var × Entry Mem)}
    (ran : heldEntries r b = .ok (es, c)) :
    b = c ∧ (b.store.held r = .empty → es = []) ∧
      ∀ v, b.store.held r = .single v → ∃ e, b.store.get? v = some e ∧ es = [(v, e)] := by
  simp only [heldEntries, bind_ok, get_ok] at ran
  obtain ⟨_, _, ⟨rfl, rfl⟩, ran⟩ := ran
  refine ⟨?_, ?_, ?_⟩
  · refine ((mapM_of_reads ?_ ran).1).symm
    intro v d y e step
    simp only [bind_ok, entryOf_ok, pure_ok] at step
    obtain ⟨_, _, ⟨_, rfl⟩, _, rfl⟩ := step
    rfl
  · intro empty
    rw [empty] at ran
    exact (pure_ok.mp ran).1.symm
  · intro v only
    rw [only] at ran
    simp only [KeySet.single, KeySet.toList, List.mapM_cons, List.mapM_nil, bind_ok, entryOf_ok,
      pure_ok] at ran
    obtain ⟨_, _, ⟨e, _, ⟨found, rfl⟩, rfl, rfl⟩, _, _, ⟨rfl, rfl⟩, rfl, rfl⟩ := ran
    exact ⟨e, found, rfl⟩

theorem spillCost_reads {needs : Needs} {r : Reg} {cost : Option Nat}
    (ran : spillCost site needs r b = .ok (cost, c)) : b = c := by
  simp only [spillCost, bind_ok, get_ok, pure_ok] at ran
  obtain ⟨_, _, held, _, _, ⟨rfl, rfl⟩, _, rfl⟩ := ran
  exact (heldEntries_ok held).1

/-- What emptying a register leaves behind. -/
structure Emptied (b c : Body) (r : Reg) : Prop where
  empty : ∀ w, w ∉ c.store.held r
  reserved : c.reserved = b.reserved
  fewer : ∀ q name, Resides c q name → Resides b q name

theorem clear_emptied (sound : b.store.Sound) (r : Reg) :
    Emptied b { b with store := b.store.clearRegister r } r := by
  refine ⟨?_, rfl, ?_⟩
  · intro w
    simp [Store.held_clearRegister (sound.single r)]
  · rintro q name ⟨v, f, after, listed, rfl⟩
    rcases sound.entry_cleared after with before | ⟨e, known, _, rfl⟩
    · exact ⟨v, f, before, listed, rfl⟩
    · exact ⟨v, e, known.1, (Entry.mem_without.mp listed).1, (Entry.name_without e r).symm⟩

theorem storeTo_ok {r : Reg} {v : Var} {home : Mem} {u : Unit} :
    storeTo r v home b = .ok (u, c) ↔
      { b with out := b.out.append [.sw (.pool r) home], store := b.store.markStored v } = c := by
  simp only [storeTo, bind_ok, emitInstr_ok, modifyStore_ok]
  constructor
  · rintro ⟨_, _, rfl, rfl⟩
    rfl
  · rintro rfl
    exact ⟨(), _, rfl, rfl⟩

theorem Needs.res_of_overwrites {needs : Needs} {name : String} (overwrites : needs.overwrites name = true) :
    needs.res = some name := by
  simp only [Needs.overwrites, Bool.and_eq_true, decide_eq_true_eq] at overwrites
  exact overwrites.1

/-- A register is emptied. Its variable is stored first if it would lose its last copy, has a home for it and
is not about to be overwritten. -/
inductive Spills (needs : Needs) (b : Body) (r : Reg) : List Asm.Instr → Body → Prop
  | drop :
      (∀ v e, v ∈ b.store.held r → b.store.get? v = some e →
        needs.overwrites e.name = true ∨ e.home = none ∨ e.hasCopyBeside r = true) →
      Spills needs b r [] { b with store := b.store.clearRegister r }
  | store {v : Var} {e : Entry Mem} {home : Mem} :
      v ∈ b.store.held r → b.store.get? v = some e → e.home = some home → needs.overwrites e.name = false →
      e.hasCopyBeside r = false →
      Spills needs b r [.sw (.pool r) home]
        { b with out := b.out.append [.sw (.pool r) home], store := (b.store.markStored v).clearRegister r }

theorem spill_spills {needs : Needs} {r : Reg} (sound : b.store.Sound) (ran : spill needs r b = .ok ((), c)) :
    ∃ is, Spills needs b r is c := by
  simp only [spill, bind_ok, modifyStore_ok] at ran
  obtain ⟨es, _, held, _, d, each, rfl⟩ := ran
  obtain ⟨rfl, vacant, one⟩ := heldEntries_ok held
  rcases KeySet.cases_of_size (sound.single r) with empty | ⟨v, only⟩
  · obtain rfl := vacant empty
    obtain rfl := forM_nil_ok.mp each
    exact ⟨[], .drop fun v e member => by simp [empty] at member⟩
  · obtain ⟨e, found, rfl⟩ := one v only
    obtain ⟨d', stored, rest⟩ := forM_cons_ok.mp each
    obtain rfl := forM_nil_ok.mp rest
    -- a variable that is overwritten, has no home or is valid elsewhere is dropped without a store
    have unsaved (same : b = d')
        (kept : needs.overwrites e.name = true ∨ e.home = none ∨ e.hasCopyBeside r = true) :
        ∃ is, Spills needs b r is { d' with store := d'.store.clearRegister r } := by
      subst same
      refine ⟨[], .drop fun w f held entry => ?_⟩
      rw [only, KeySet.mem_single] at held
      subst held
      cases Option.some.inj (found.symm.trans entry)
      exact kept
    dsimp only at stored
    cases place : e.home with
    | none =>
      simp only [place] at stored
      exact unsaved (pure_ok.mp stored).2 (.inr (.inl place))
    | some home =>
      simp only [place] at stored
      split at stored
      · rename_i needed
        simp only [Bool.and_eq_true, Bool.not_eq_true'] at needed
        obtain rfl := storeTo_ok.mp stored
        exact ⟨_, .store (by simp [only]) found place needed.1.1 needed.2⟩
      · rename_i unneeded
        refine unsaved (pure_ok.mp stored).2 ?_
        simp only [Bool.and_eq_true, Bool.not_eq_true', Entry.hasCopyBeside] at unneeded ⊢
        grind

/-- A variable that has a home or another register survives when a register is emptied. -/
theorem clear_retains {r : Reg} {v : Var} {e : Entry Mem} (sound : b.store.Sound)
    (known : b.store.Has v e)
    (safe : v ∈ b.store.held r → e.home.isSome = true ∨ ∃ q, q ∈ e.regs.erase r) :
    ∃ f, (b.store.clearRegister r).Has v f ∧ f.name = e.name ∧ f.home = e.home ∧
      ∀ q, q ∈ e.regs → q ≠ r → q ∈ f.regs := by
  have entry := sound.get?_clearRegister r v
  rw [known.1] at entry
  by_cases held : v ∈ b.store.held r
  · rw [if_pos held] at entry
    refine ⟨e.without r, ⟨entry, Bool.eq_false_iff.mpr fun gone => ?_⟩, e.name_without r, e.home_without r,
      fun q listed other => Entry.mem_without.mpr ⟨listed, other⟩⟩
    rcases Entry.forgotten_without.mp gone with forgotten | ⟨none, last⟩
    · simp [known.2] at forgotten
    · rcases safe held with homed | ⟨q, listed⟩
      · simp [none] at homed
      · obtain ⟨inside, other⟩ := KeySet.mem_erase.mp listed
        exact other (last q inside)
  · rw [if_neg held] at entry
    exact ⟨e, ⟨entry, known.2⟩, rfl, rfl, fun _ listed _ => listed⟩

namespace Spills

variable {needs : Needs} {r : Reg} {is : List Asm.Instr}

theorem moves (spills : Spills needs b r is c) (sound : b.store.Sound) (free : r ∉ limits.locked)
    (loses : ∀ name, needs.overwrites name = true → limits.lost = some name) : Moves site limits b is c := by
  cases spills with
  | drop unsaved =>
    refine .one (.clear free fun v e held entry homed wanted => ?_)
    rcases unsaved v e held entry with overwrites | homeless | beside
    · exact absurd (loses e.name overwrites) wanted
    · simp [homeless] at homed
    · exact beside
  | @store v e home held entry place =>
    obtain ⟨f, known, listed⟩ := sound.known_of_held held
    cases Option.some.inj (entry.symm.trans known.1)
    have save : Move site limits b [.sw (.pool r) home] _ := .save entry listed place
    refine (Moves.one save).trans (.one (.clear free fun w f inside after _ _ => ?_))
    cases sound.eq_of_held held inside
    cases Option.some.inj (known.markStored.1.symm.trans after)
    simp [Entry.hasCopyBeside, Entry.markStored, place]

theorem held (spills : Spills needs b r is c) (sound : b.store.Sound) (q : Reg) :
    c.store.held q = if q = r then .empty else b.store.held q := by
  cases spills with
  | drop => exact Store.held_clearRegister (sound.single r) q
  | store _ entry => exact Store.held_clearRegister ((sound.markStored entry).single r) q

theorem emptied (spills : Spills needs b r is c) (sound : b.store.Sound) : Emptied b c r := by
  cases spills with
  | drop => exact clear_emptied sound r
  | @store v e home held entry =>
    have emptied := clear_emptied (b := { b with
      out := b.out.append [.sw (.pool r) home], store := b.store.markStored v }) (sound.markStored entry) r
    refine ⟨emptied.empty, rfl, fun q name after => ?_⟩
    obtain ⟨w, g, before, listed, same⟩ := emptied.fewer q name after
    rw [Store.get?_markStored] at before
    split at before
    · rename_i var
      rw [entry, Option.map_some] at before
      cases Option.some.inj before
      exact ⟨w, e, var ▸ entry, listed, same⟩
    · exact ⟨w, g, before, listed, same⟩

theorem retains {v : Var} {e : Entry Mem} (spills : Spills needs b r is c) (sound : b.store.Sound)
    (known : b.store.Has v e) (safe : v ∈ b.store.held r → e.home.isSome = true ∨ ∃ q, q ∈ e.regs.erase r) :
    ∃ f, c.store.Has v f ∧ f.name = e.name := by
  cases spills with
  | drop =>
    obtain ⟨f, after, named, _⟩ := clear_retains sound known safe
    exact ⟨f, after, named⟩
  | @store w g home held entry =>
    have sound' := sound.markStored entry
    by_cases same : v = w
    · subst same
      obtain ⟨f, after, named, _⟩ := clear_retains (b := { b with store := b.store.markStored v }) sound'
        known.markStored safe
      exact ⟨f, after, named⟩
    · have stays : (b.store.markStored w).Has v e :=
        ⟨by rw [Store.get?_markStored, if_neg same, known.1], known.2⟩
      obtain ⟨f, after, named, _⟩ := clear_retains (b := { b with store := b.store.markStored w }) sound'
        stays safe
      exact ⟨f, after, named⟩

end Spills

theorem cheapest?_mem {xs : List (Reg × Option Nat)} {x : Reg × Option Nat}
    (found : cheapest? xs = some x) : x ∈ xs := by
  induction xs generalizing x with
  | nil => simp [cheapest?] at found
  | cons y ys ih =>
    unfold cheapest? at found
    split at found
    · cases Option.some.inj found
      simp
    · rename_i z rest
      split at found
      · cases Option.some.inj found
        exact List.mem_cons_of_mem _ (ih rest)
      · cases Option.some.inj found
        simp

/-- The register that is taken is a candidate that can be emptied, and it is. -/
theorem seize_ok {name : String} {needs : Needs} {r : Reg} (sound : b.store.Sound)
    (ran : seize site name needs b = .ok (r, c)) :
    r ∈ candidates b ∧ (∃ n, spillCost site needs r b = .ok (some n, b)) ∧ ∃ is, Spills needs b r is c := by
  simp only [seize, bind_ok, get_ok] at ran
  obtain ⟨_, _, ⟨rfl, rfl⟩, costs, d, measured, ran⟩ := ran
  have reads : ∀ (q : Reg) d y e, (do pure (q, ← spillCost site needs q) : Step _) d = .ok (y, e) →
      e = d ∧ y.1 = q ∧ spillCost site needs q d = .ok (y.2, d) := by
    intro q d y e step
    simp only [bind_ok, pure_ok] at step
    obtain ⟨_, _, cost, rfl, rfl⟩ := step
    cases spillCost_reads cost
    exact ⟨rfl, rfl, cost⟩
  obtain ⟨rfl, members⟩ := mapM_of_reads (fun q d y e step => (reads q d y e step).1) measured
  cases chosen : cheapest? costs with
  | none => simp only [chosen, failWith_ok] at ran
  | some best =>
    obtain ⟨q, cost⟩ := best
    cases cost with
    | none => simp only [chosen, failWith_ok] at ran
    | some n =>
      simp only [chosen, bind_ok, pure_ok] at ran
      obtain ⟨_, _, spilled, rfl, rfl⟩ := ran
      obtain ⟨_, candidate, step⟩ := members _ (cheapest?_mem chosen)
      obtain ⟨_, rfl, cost⟩ := reads _ _ _ _ step
      exact ⟨candidate, ⟨n, cost⟩, spill_spills sound spilled⟩

theorem seize_moves {name : String} {needs : Needs} {r : Reg} (sound : b.store.Sound)
    (ran : seize site name needs b = .ok (r, c)) :
    (∃ is, Moves site ⟨b.reserved, needs.res, [], 0⟩ b is c) ∧ Emptied b c r ∧
      b.store.isUsable r = true ∧ r ∉ b.reserved := by
  obtain ⟨candidate, _, is, spills⟩ := seize_ok sound ran
  simp only [candidates, List.mem_filter, Bool.and_eq_true, decide_eq_true_eq] at candidate
  have moves : Moves site ⟨b.reserved, needs.res, [], 0⟩ b is c :=
    spills.moves sound candidate.2.2 fun _ => Needs.res_of_overwrites
  exact ⟨⟨is, moves⟩, spills.emptied sound, candidate.2.1, candidate.2.2⟩

/-- A register that can be emptied holds nothing that would be lost. -/
theorem spillCost_safe {needs : Needs} {r : Reg} {n : Nat} {v : Var} {e : Entry Mem}
    (sound : b.store.Sound) (ran : spillCost site needs r b = .ok (some n, c)) (known : b.store.Has v e)
    (later : laterUse site b e.name = true) (other : needs.res ≠ some e.name)
    (held : v ∈ b.store.held r) : e.home.isSome = true ∨ ∃ q, q ∈ e.regs.erase r := by
  simp only [spillCost, bind_ok, get_ok, pure_ok] at ran
  obtain ⟨es, _, entries, _, _, ⟨rfl, rfl⟩, cost, rfl⟩ := ran
  obtain ⟨rfl, _, one⟩ := heldEntries_ok entries
  obtain ⟨f, found, rfl⟩ := one v (sound.held_eq_single held)
  cases Option.some.inj (known.1.symm.trans found)
  obtain ⟨costs, priced, _⟩ := Option.map_eq_some_iff.mp cost
  have priced : (entryCost (laterUse site b) needs r e).isSome = true := by
    cases price : entryCost (laterUse site b) needs r e with
    | some _ => rfl
    | none => simp [price] at priced
  simp only [entryCost, Needs.overwrites, later, other, decide_false, Bool.false_and, Bool.false_eq_true,
    if_false, Bool.not_true, Bool.and_false] at priced
  split at priced
  · rename_i beside
    rcases Entry.hasCopyBeside_iff.mp beside with valid | listed
    · exact .inl (sound.housed v e known.1 valid)
    · exact .inr listed
  · split at priced
    · exact .inl ‹_›
    · contradiction

theorem seize_retains {name : String} {needs : Needs} {r : Reg} {v : Var} {e : Entry Mem}
    (sound : b.store.Sound) (ran : seize site name needs b = .ok (r, c)) (known : b.store.Has v e)
    (later : laterUse site b e.name = true) (other : needs.res ≠ some e.name) :
    ∃ f, c.store.Has v f ∧ f.name = e.name := by
  obtain ⟨_, ⟨n, cost⟩, is, spills⟩ := seize_ok sound ran
  exact spills.retains sound known (spillCost_safe sound cost known later other)

theorem residence?_moves {name : String} {o : Option Reg} (sound : b.store.Sound)
    (ran : residence? site name b = .ok (o, c)) :
    Moves site limits b [] c ∧ c.reserved = b.reserved ∧
      (∀ r, c.store.held r = b.store.held r) ∧ (∀ r, o = some r → Resides c r name) ∧
      (o = none → ∀ q, ¬ Resides c q name) := by
  simp only [residence?, bind_ok] at ran
  obtain ⟨found, d, resolved, ran⟩ := ran
  obtain ⟨moves, lookup, reserved, held, _⟩ : Moves site limits b [] d ∧ _ :=
    resolve?_moves sound resolved
  cases found with
  | none =>
    simp only [pure_ok] at ran
    obtain ⟨rfl, rfl⟩ := ran
    refine ⟨moves, reserved, held, by simp, fun _ q resides => ?_⟩
    have known := resides.lookup (moves.sound sound)
    simp [lookup] at known
  | some v =>
    simp only [bind_ok, entryOf_ok, pure_ok] at ran
    obtain ⟨e, _, ⟨entry, rfl⟩, rfl, rfl⟩ := ran
    refine ⟨moves, reserved, held, ?_, ?_⟩
    · intro r first
      exact ⟨v, e, entry, KeySet.mem_of_first? first, (Store.has_of_lookup lookup entry).2⟩
    · rintro none q ⟨w, f, found, listed, rfl⟩
      have has := (moves.sound sound).known_of_reg found listed
      cases Option.some.inj (lookup.symm.trans ((moves.sound sound).lookup_eq has))
      cases Option.some.inj (entry.symm.trans found)
      exact KeySet.first?_eq_none_iff.mp none q listed

/-- What a register taken for a name is like: the name is in it, or nothing is in it and the
name is in no register. -/
structure Taken (b c : Body) (r : Reg) (name : String) : Prop where
  reserved : r ∈ c.reserved
  usable : c.store.isUsable r = true
  place : Resides c r name ∨
    (r ∉ b.reserved ∧ (∀ w, w ∉ c.store.held r) ∧ ∀ q, ¬ Resides c q name)

/-- How a register is found for a name: the name is in it, or nothing is, or it is emptied. -/
inductive Acquires (site : Site) (name : String) (needs : Needs) (b : Body) (r : Reg) : Body → Prop
  | resident {d : Body} :
      residence? site name b = .ok (some r, d) →
      Acquires site name needs b r { d with reserved := r :: d.reserved }
  | free {d : Body} :
      residence? site name b = .ok (none, d) → freeRegister? d = some r →
      Acquires site name needs b r { d with reserved := r :: d.reserved }
  | seized {d d' : Body} :
      residence? site name b = .ok (none, d) → seize site name needs d = .ok (r, d') →
      Acquires site name needs b r { d' with reserved := r :: d'.reserved }

theorem acquire_acquires {name : String} {needs : Needs} {r : Reg} (ran : acquire site name needs b = .ok (r, c)) :
    Acquires site name needs b r c := by
  simp only [acquire, bind_ok] at ran
  obtain ⟨o, d, residence, ran⟩ := ran
  cases o with
  | some p =>
    simp only [bind_ok, pure_ok, reserve_ok] at ran
    obtain ⟨_, _, ⟨rfl, rfl⟩, _, _, rfl, rfl, rfl⟩ := ran
    exact .resident residence
  | none =>
    simp only [bind_ok, get_ok] at ran
    obtain ⟨_, _, ⟨rfl, rfl⟩, ran⟩ := ran
    cases free : freeRegister? d with
    | some p =>
      simp only [free, bind_ok, pure_ok, reserve_ok] at ran
      obtain ⟨_, _, ⟨rfl, rfl⟩, _, _, rfl, rfl, rfl⟩ := ran
      exact .free residence free
    | none =>
      simp only [free, bind_ok, pure_ok, reserve_ok] at ran
      obtain ⟨q, _, chosen, _, _, rfl, rfl, rfl⟩ := ran
      exact .seized residence chosen

theorem acquire_moves {name : String} {needs : Needs} {r : Reg} (sound : b.store.Sound)
    (ran : acquire site name needs b = .ok (r, c)) :
    (∃ is, Moves site ⟨b.reserved, needs.res, [], 0⟩ b is c) ∧ Taken b c r name := by
  have searched {o : Option Reg} {d : Body} (residence : residence? site name b = .ok (o, d)) :
      Moves site ⟨b.reserved, needs.res, [], 0⟩ b [] d ∧ _ := residence?_moves sound residence
  cases acquire_acquires ran with
  | resident residence =>
    obtain ⟨moves, reserved, held, inside, outside⟩ := searched residence
    have resides := inside r rfl
    refine ⟨⟨_, moves.trans (.one (.reserve r))⟩, by simp, ?_, .inl resides⟩
    obtain ⟨v, e, entry, listed, _⟩ := resides
    have before := moves.sound sound
    exact before.usable r v ((before.listed r v).mpr ⟨e, entry, listed⟩)
  | free residence free =>
    obtain ⟨moves, reserved, held, inside, outside⟩ := searched residence
    have candidate := List.mem_of_find?_eq_some free
    have empty := List.find?_some free
    simp only [candidates, List.mem_filter, Bool.and_eq_true, decide_eq_true_eq] at candidate
    refine ⟨⟨_, moves.trans (.one (.reserve r))⟩, by simp, candidate.2.1, .inr ⟨?_, ?_, ?_⟩⟩
    · rw [← reserved]
      exact candidate.2.2
    · exact KeySet.isEmpty_iff.mp empty
    · exact outside rfl
  | seized residence chosen =>
    obtain ⟨moves, reserved, held, inside, outside⟩ := searched residence
    have before := moves.sound sound
    obtain ⟨⟨is, seized⟩, emptied, usable, unreserved⟩ := seize_moves before chosen
    rw [reserved] at seized unreserved
    refine ⟨⟨_, (moves.trans seized).trans (.one (.reserve r))⟩, by simp, ?_, .inr ⟨?_, ?_, ?_⟩⟩
    · exact (seized.isUsable before r).trans usable
    · exact unreserved
    · exact emptied.empty
    · exact fun p resides => outside rfl p (emptied.fewer p name resides)

/-- A variable that is needed later is still known when a register has been found for another one. -/
theorem acquire_retains {name : String} {needs : Needs} {r : Reg} {v : Var} {e : Entry Mem}
    (sound : b.store.Sound) (ran : acquire site name needs b = .ok (r, c)) (known : b.store.Has v e)
    (located : e.home.isSome = true ∨ ∃ q, q ∈ e.regs) (later : laterUse site b e.name = true)
    (other : needs.res ≠ some e.name) : ∃ f, c.store.Has v f ∧ f.name = e.name := by
  have searched {o : Option Reg} {d : Body} (residence : residence? site name b = .ok (o, d)) :
      Moves site .still b [] d ∧ ∃ f, d.store.Has v f ∧ f.name = e.name := by
    obtain ⟨moves, _⟩ : Moves site .still b [] d ∧ _ := residence?_moves sound residence
    exact ⟨moves, moves.stays mem_regs_all sound known located⟩
  cases acquire_acquires ran with
  | resident residence => exact (searched residence).2
  | free residence => exact (searched residence).2
  | @seized d _ residence chosen =>
    obtain ⟨moves, f, stays, named⟩ := searched residence
    have later' : laterUse site d f.name = true := by
      rw [named, laterUse, moves.sameProcedure.pending]
      exact later
    obtain ⟨g, after, same⟩ := seize_retains (moves.sound sound) chosen stays later' (named ▸ other)
    exact ⟨g, after, same.trans named⟩

theorem Taken.owned {name : String} {r : Reg} (taken : Taken b c r name) (sound : c.store.Sound) :
    Owned c r name := by
  rcases taken.place with resides | ⟨_, empty, _⟩
  · exact resides.owned sound
  · exact fun v _ held => absurd held (empty v)

theorem unresolved_ok {cause : Cause} {u : Unit} :
    unresolved site cause b = .ok (u, c) ↔ site.options.strict = false ∧
      { b with out := b.out.warn { contexts := [.instr site.position], cause := cause } } = c := by
  unfold unresolved
  split
  · rename_i strict
    simp [failWith_ok, strict]
  · rename_i lenient
    rw [modify_ok]
    simp [lenient]

/-- An unresolved reference is a move that leaves a warning. -/
theorem unresolved_moves {cause : Cause} (ran : unresolved site cause b = .ok ((), c)) :
    Moves site limits b [] c ∧ c.store = b.store ∧ c.reserved = b.reserved ∧
      ¬ c.out.warnings.size ≤ b.out.warnings.size := by
  obtain ⟨lenient, rfl⟩ := unresolved_ok.mp ran
  exact ⟨.one (.warn _ lenient), rfl, rfl, by simp [Output.warn]⟩

/-- A register that was taken for a name gets a copy of its variable, or a warning says that there
is none. -/
theorem ensureLoaded_moves {name : String} {r : Reg} {a : Body} (sound : b.store.Sound)
    (taken : Taken a b r name) (ran : ensureLoaded site name r b = .ok ((), c)) :
    (∃ is, Moves site ⟨a.reserved, none, [], 0⟩ b is c) ∧ c.reserved = b.reserved ∧ Owned c r name ∧
      (c.out.warnings.size ≤ b.out.warnings.size → Resides c r name) := by
  simp only [ensureLoaded, bind_ok] at ran
  obtain ⟨o, d, resolved, ran⟩ := ran
  obtain ⟨moves, known, reserved, held, _⟩ : Moves site ⟨a.reserved, none, [], 0⟩ b [] d ∧ _ :=
    resolve?_moves sound resolved
  have after := moves.sound sound
  have owned : Owned d r name := moves.owned_of_held sound (held r) (taken.owned sound)
  have quiet := moves.warnings.1
  cases o with
  | none =>
    obtain ⟨warned, store, rest, loud⟩ := unresolved_moves ran
    refine ⟨⟨_, moves.trans warned⟩, rest.trans reserved, ?_, fun silent => ?_⟩
    · simpa only [Owned, store] using owned
    · exact absurd silent (by omega)
  | some v =>
    simp only [bind_ok, entryOf_ok] at ran
    obtain ⟨e, _, ⟨entry, rfl⟩, ran⟩ := ran
    obtain ⟨has, same⟩ := Store.has_of_lookup known entry
    by_cases inside : r ∈ e.regs
    · rw [if_pos (KeySet.contains_iff.mpr inside)] at ran
      obtain ⟨_, rfl⟩ := pure_ok.mp ran
      exact ⟨⟨_, moves⟩, reserved, owned, fun _ => ⟨v, e, entry, inside, same⟩⟩
    · rw [if_neg (by simpa using inside)] at ran
      rcases taken.place with resides | ⟨unreserved, empty, nowhere⟩
      · obtain ⟨w, f, found, listed, rfl⟩ := (moves.resides_iff sound (held r)).mpr resides
        cases Option.some.inj (known.symm.trans (after.lookup_eq (after.known_of_reg found listed)))
        cases Option.some.inj (entry.symm.trans found)
        exact absurd listed inside
      have nowhere : ∀ q, q ∉ e.regs := fun q listed =>
        nowhere q ((moves.resides_iff sound (held q)).mp ⟨v, e, entry, listed, same⟩)
      have first : e.register? = none := KeySet.first?_eq_none_iff.mpr nowhere
      simp only [first] at ran
      cases place : if e.homeValid = true then e.home else none with
      | some home =>
        have valid : e.homeValid = true ∧ e.home = some home := by
          split at place
          · exact ⟨‹_›, place⟩
          · contradiction
        simp only [place] at ran
        simp only [bind_ok, emitAll_ok, modifyStore_ok] at ran
        obtain ⟨_, _, rfl, rfl⟩ := ran
        have load : Move site ⟨a.reserved, none, [], 0⟩ d _ _ :=
          .load unreserved has valid.1 valid.2 nowhere (by simpa only [held r] using empty)
            ((moves.isUsable sound r).trans taken.usable)
        have resides : Resides { d with
            out := d.out.append (loadInstrs site.options (.pool r) home)
            store := d.store.bind r v } r name := by
          refine ⟨v, { e with regs := e.regs.insert r }, ?_, by simp, same⟩
          show (d.store.bind r v).get? v = _
          rw [Store.get?_bind (fun w member => absurd (held r ▸ member) (empty w)), if_pos rfl, entry]
          rfl
        exact ⟨⟨_, moves.trans (.one load)⟩, reserved, resides.owned (load.sound after), fun _ => resides⟩
      | none =>
        simp only [place] at ran
        obtain ⟨warned, store, rest, loud⟩ := unresolved_moves ran
        refine ⟨⟨_, moves.trans warned⟩, rest.trans reserved, ?_, fun silent => ?_⟩
        · simpa only [Owned, store] using owned
        · exact absurd silent (by omega)

/-- A register that an instruction may write for a name. -/
structure Ready (b : Body) (r : Reg) (name : String) : Prop where
  reserved : r ∈ b.reserved
  usable : b.store.isUsable r = true
  owned : Owned b r name

theorem Taken.ready {name : String} {r : Reg} (taken : Taken b c r name) (sound : c.store.Sound) :
    Ready c r name :=
  ⟨taken.reserved, taken.usable, taken.owned sound⟩

theorem Ready.moves {is : List Asm.Instr} {name : String} {r : Reg} (ready : Ready b r name)
    (sound : b.store.Sound) (moves : Moves site limits b is c) (lock : r ∈ limits.locked) :
    Ready c r name :=
  ⟨moves.reserved r ready.reserved, (moves.isUsable sound r).trans ready.usable,
    moves.owned sound lock ready.owned⟩

theorem loaded_moves {name : String} {needs : Needs} {r : Reg} (sound : b.store.Sound)
    (ran : loaded site name needs b = .ok (r, c)) :
    (∃ is, Moves site ⟨b.reserved, needs.res, [], 0⟩ b is c) ∧ Ready c r name ∧
      (c.out.warnings.size ≤ b.out.warnings.size → Resides c r name) := by
  simp only [loaded, bind_ok, pure_ok] at ran
  obtain ⟨q, d, taken, _, e, filled, rfl, rfl⟩ := ran
  obtain ⟨⟨is, moves⟩, taken⟩ := acquire_moves sound taken
  have middle := moves.sound sound
  obtain ⟨⟨js, fills⟩, reserved, owned, resides⟩ := ensureLoaded_moves middle taken filled
  have quiet := moves.warnings.1
  refine ⟨⟨_, moves.trans (fills.mono ⟨?_, .inl rfl, ?_, Nat.le_refl 0⟩)⟩, ⟨?_, ?_, owned⟩, ?_⟩
  · exact fun _ member => member
  · exact fun _ member => member
  · rw [reserved]
    exact taken.reserved
  · exact (fills.isUsable middle q).trans taken.usable
  · exact fun silent => resides (by omega)

/-- Where the value of an operand is: in no instruction if it is zero, in the scratch register
that the instructions fill if it is another literal, else in a register of its variable. -/
inductive Located (site : Site) (needs : Needs) (scratch : MachineReg) (b : Body) :
    Operand → MachineReg → List Asm.Instr → Body → Prop
  | zero : Located site needs scratch b (.literal 0) .zero [] b
  | literal (n : Int) :
      Located site needs scratch b (.literal n) scratch (immediateInstrs scratch n)
        { b with out := b.out.append (immediateInstrs scratch n) }
  | variable {c : Body} {name : String} {r : Reg} {is : List Asm.Instr} :
      Moves site ⟨b.reserved, needs.res, [], 0⟩ b is c → Ready c r name →
      (c.out.warnings.size ≤ b.out.warnings.size → Resides c r name) →
      Located site needs scratch b (.variable name) (.pool r) is c

theorem operand_located {x : Operand} {needs : Needs} {scratch y : MachineReg} (sound : b.store.Sound)
    (ran : operand site x needs scratch b = .ok (y, c)) :
    ∃ is, Located site needs scratch b x y is c := by
  cases x with
  | literal n =>
    simp only [operand] at ran
    split at ran
    · rename_i zero
      subst zero
      obtain ⟨rfl, rfl⟩ := pure_ok.mp ran
      exact ⟨[], .zero⟩
    · simp only [bind_ok, emitAll_ok, pure_ok] at ran
      obtain ⟨_, _, rfl, rfl, rfl⟩ := ran
      exact ⟨_, .literal n⟩
  | «variable» name =>
    simp only [operand, bind_ok, pure_ok] at ran
    obtain ⟨r, d, filled, rfl, rfl⟩ := ran
    obtain ⟨⟨is, moves⟩, ready, resides⟩ := loaded_moves sound filled
    exact ⟨is, .variable moves ready resides⟩

theorem isScratch_immediate (i : Fin 8) (n : Int) :
    ∀ x ∈ immediateInstrs (.arg i) n, isScratch [i] x = true := by
  unfold immediateInstrs
  split <;> simp [isScratch]

theorem Located.moves {needs : Needs} {i : Fin 8} {x : Operand} {y : MachineReg}
    {is : List Asm.Instr} (located : Located site needs (.arg i) b x y is c) :
    Moves site ⟨b.reserved, needs.res, [i], 0⟩ b is c := by
  cases located with
  | zero => exact .refl b
  | literal n => exact .one (.scratch (isScratch_immediate i n))
  | «variable» moves =>
    exact moves.mono ⟨fun _ member => member, .inr rfl, by simp, Nat.le_refl 0⟩

/-! Results -/

/-- The register becomes the only location of the variable of the name. -/
def Body.assign (b : Body) (r : Reg) (name : String) : Body :=
  { b with store := (b.store.intern name).2.commit r (b.store.intern name).1 }

theorem commit_assigns {r : Reg} {name : String} (sound : b.store.Sound)
    (ran : commit site r name b = .ok ((), c)) :
    ∃ d, Moves site limits b [] d ∧ d.reserved = b.reserved ∧
      (∀ r, d.store.held r = b.store.held r) ∧ c = d.assign r name ∧
      (d.store.lookup name = none →
        ∀ x, site.table.lookup name = some x → x.isScalar = false) := by
  simp only [commit, bind_ok] at ran
  obtain ⟨o, d, resolved, ran⟩ := ran
  obtain ⟨moves, lookup, reserved, held, absent⟩ : Moves site limits b [] d ∧ _ :=
    resolve?_moves sound resolved
  refine ⟨d, moves, reserved, held, ?_, fun none => absent (lookup.symm.trans none)⟩
  cases o with
  | none =>
    obtain rfl := modifyStore_ok.mp ran
    rfl
  | some v =>
    simp only [bind_ok, entryOf_ok, modifyStore_ok] at ran
    obtain ⟨_, _, ⟨_, rfl⟩, rfl⟩ := ran
    simp [Body.assign, Store.intern_fst_of_known lookup]

section Assign

variable {r : Reg} {name : String}

theorem Owned.intern (sound : b.store.Sound) (owned : Owned b r name) :
    ∀ w, w ∈ (b.store.intern name).2.held r → w = (b.store.intern name).1 := by
  intro w member
  rw [Store.held_intern] at member
  obtain ⟨e, known, _⟩ := sound.known_of_held member
  have lookup := sound.lookup_eq known
  rw [owned w e member known.1] at lookup
  rw [Store.intern_fst_of_known lookup]

theorem Body.assign_sound (sound : b.store.Sound) (ready : Ready b r name) :
    (b.assign r name).store.Sound := by
  obtain ⟨e, known, _⟩ := Store.intern_has b.store name
  refine (sound.intern name).commit known (ready.owned.intern sound) ?_
  rw [Store.isUsable_intern]
  exact ready.usable

/-- What an assignment leaves of the entries: the variable of the name is in the register alone,
the others are as before. -/
theorem Body.assign_has {v : Var} {f : Entry Mem} (sound : b.store.Sound) (owned : Owned b r name)
    (after : (b.assign r name).store.Has v f) :
    (f.name = name ∧ f.regs = .single r ∧ f.homeValid = false ∧
      ((∃ e, b.store.Has v e ∧ e.name = name ∧ e.home = f.home) ∨
        (b.store.lookup name = none ∧ f.home = none))) ∨
    (f.name ≠ name ∧ b.store.Has v f ∧ r ∉ f.regs) := by
  obtain ⟨e, known, same⟩ := Store.intern_has b.store name
  have entry := after.1
  rw [Body.assign, Store.get?_commit (owned.intern sound), known.1, Option.map_some] at entry
  split at entry
  · rename_i var
    cases Option.some.inj entry
    refine .inl ⟨same, rfl, rfl, ?_⟩
    cases lookup : b.store.lookup name with
    | some w =>
      rw [Store.intern_fst_of_known lookup] at known var
      exact .inl ⟨e, var ▸ known, same, rfl⟩
    | none =>
      have fresh := known.1
      rw [Store.get?_intern, Store.intern_fst_of_new lookup, if_pos ⟨lookup, rfl⟩] at fresh
      cases Option.some.inj fresh
      exact .inr ⟨rfl, rfl⟩
  · rename_i other
    have before : b.store.Has v f := by
      refine ⟨?_, after.2⟩
      rw [Store.get?_intern] at entry
      split at entry
      · rename_i new
        exact absurd (new.2.trans (Store.intern_fst_of_new new.1).symm) other
      · exact entry
    refine .inr ⟨fun clash => ?_, before, fun inside => ?_⟩
    · have lookup := sound.lookup_eq before
      rw [clash] at lookup
      rw [Store.intern_fst_of_known lookup] at other
      exact other rfl
    · refine other (owned.intern sound v ?_)
      rw [Store.held_intern]
      exact (sound.listed r v).mpr ⟨f, before.1, inside⟩

/-- An assignment forgets nothing and moves no home. -/
theorem Body.assign_stays {v : Var} {e : Entry Mem} (sound : b.store.Sound) (owned : Owned b r name)
    (before : b.store.Has v e) :
    ∃ f, (b.assign r name).store.Has v f ∧ f.name = e.name ∧ f.home = e.home := by
  have known : (b.store.intern name).2.Has v e := Store.has_intern before
  by_cases same : v = (b.store.intern name).1
  · refine ⟨{ e with regs := .single r, homeValid := false }, ⟨?_, known.2⟩, rfl, rfl⟩
    rw [Body.assign, Store.get?_commit (owned.intern sound), if_pos same, ← same, known.1]
    rfl
  · refine ⟨e, ⟨?_, known.2⟩, rfl, rfl⟩
    rw [Body.assign, Store.get?_commit (owned.intern sound), if_neg same]
    exact known.1

theorem Body.assign_alone (sound : b.store.Sound) (ready : Ready b r name)
    (alone : Alone b.store) : Alone (b.assign r name).store := by
  intro v f p q after left right
  have known := (assign_sound sound ready).known_of_reg after left
  rcases assign_has sound ready.owned known with ⟨_, only, _⟩ | ⟨_, before, _⟩
  · rw [only, KeySet.mem_single] at left right
    rw [left, right]
  · exact alone v f p q before.1 left right

theorem Body.assign_kept (sound : b.store.Sound) (owned : Owned b r name)
    (kept : Kept b.store (some name)) : Kept (b.assign r name).store none := by
  intro v f after _
  rcases assign_has sound owned after with ⟨_, only, _⟩ | ⟨other, before, _⟩
  · exact .inr ⟨r, by simp [only]⟩
  · exact kept v f before (by simpa using Ne.symm other)

end Assign

/-! Writing back -/

/-- The states differ by stores of variables to their homes. -/
structure Stored (b c : Body) : Prop where
  held : ∀ r, c.store.held r = b.store.held r
  reserved : c.reserved = b.reserved
  entry : ∀ v f, c.store.get? v = some f →
    ∃ e, b.store.get? v = some e ∧ (f = e ∨ f = e.markStored)

theorem Stored.refl (b : Body) : Stored b b :=
  ⟨fun _ => rfl, rfl, fun _ f found => ⟨f, found, .inl rfl⟩⟩

theorem Stored.trans {a : Body} (first : Stored a b) (second : Stored b c) : Stored a c := by
  refine ⟨fun r => (second.held r).trans (first.held r), second.reserved.trans first.reserved, ?_⟩
  intro v g found
  obtain ⟨f, middle, later⟩ := second.entry v g found
  obtain ⟨e, before, earlier⟩ := first.entry v f middle
  refine ⟨e, before, ?_⟩
  rcases earlier with rfl | rfl <;> rcases later with rfl | rfl
  · exact .inl rfl
  · exact .inr rfl
  · exact .inr rfl
  · exact .inr rfl

theorem Stored.clean {v : Var} {f : Entry Mem} (stored : Stored b c)
    (clean : ∀ e, b.store.get? v = some e → e.dirty = false) (after : c.store.get? v = some f) :
    f.dirty = false := by
  obtain ⟨e, before, rfl | rfl⟩ := stored.entry v f after
  · exact clean f before
  · exact e.dirty_markStored

def isStore : Asm.Instr → Bool
  | .sw _ _ => true
  | _ => false

/-- A variable is stored if its register copy is newer than its home, and left alone otherwise. -/
theorem writeBackOne_cases {v : Var} (ran : writeBackOne v b = .ok ((), c)) :
    ∃ e, b.store.get? v = some e ∧ ((e.dirty = false ∧ c = b) ∨ ∃ r home, e.dirty = true ∧ r ∈ e.regs ∧
      e.home = some home ∧
      c = { b with out := b.out.append [.sw (.pool r) home], store := b.store.markStored v }) := by
  simp only [writeBackOne, bind_ok, entryOf_ok] at ran
  obtain ⟨e, _, ⟨entry, rfl⟩, ran⟩ := ran
  refine ⟨e, entry, ?_⟩
  cases place : e.home with
  | none =>
    simp only [place] at ran
    exact .inl ⟨by simp [Entry.dirty, place], (pure_ok.mp ran).2.symm⟩
  | some home =>
    cases first : e.register? with
    | none =>
      simp only [place, first] at ran
      have empty : e.regs.isEmpty = true := KeySet.isEmpty_iff.mpr (KeySet.first?_eq_none_iff.mp first)
      exact .inl ⟨by simp [Entry.dirty, empty], (pure_ok.mp ran).2.symm⟩
    | some r =>
      have inside := KeySet.mem_of_first? first
      simp only [place, first] at ran
      split at ran
      · rename_i valid
        exact .inl ⟨by simp [Entry.dirty, valid], (pure_ok.mp ran).2.symm⟩
      · rename_i stale
        have occupied : e.regs.isEmpty = false := KeySet.isEmpty_eq_false_iff.mpr ⟨r, inside⟩
        refine .inr ⟨r, home, by simp [Entry.dirty, place, occupied, stale], inside, rfl, ?_⟩
        exact (storeTo_ok.mp ran).symm

theorem writeBackOne_moves {v : Var} (ran : writeBackOne v b = .ok ((), c)) :
    (∃ is, Moves site limits b is c ∧ ∀ x ∈ is, isStore x = true) ∧ Stored b c ∧
      ∀ e, c.store.get? v = some e → e.dirty = false := by
  obtain ⟨e, entry, ⟨clean, rfl⟩ | ⟨r, home, _, inside, place, rfl⟩⟩ := writeBackOne_cases ran
  · refine ⟨⟨[], .refl c, by simp⟩, .refl c, fun f found => ?_⟩
    cases Option.some.inj (entry.symm.trans found)
    exact clean
  · refine ⟨⟨_, .one (.save entry inside place), by simp [isStore]⟩, ⟨fun _ => rfl, rfl, ?_⟩, ?_⟩
    · intro w f found
      simp only [Store.get?_markStored] at found
      split at found
      · rename_i same
        rw [entry, Option.map_some] at found
        exact ⟨e, same ▸ entry, .inr (Option.some.inj found).symm⟩
      · exact ⟨f, found, .inl rfl⟩
    · intro f found
      simp only [Store.get?_markStored, if_pos, entry, Option.map_some] at found
      cases Option.some.inj found
      exact e.dirty_markStored

theorem writeBackAll_moves {vs : List Var} (ran : vs.forM writeBackOne b = .ok ((), c)) :
    (∃ is, Moves site limits b is c ∧ ∀ x ∈ is, isStore x = true) ∧ Stored b c ∧
      ∀ v ∈ vs, ∀ e, c.store.get? v = some e → e.dirty = false := by
  induction vs generalizing b with
  | nil =>
    obtain rfl := forM_nil_ok.mp ran
    exact ⟨⟨[], .refl b, by simp⟩, .refl b, by simp⟩
  | cons v vs ih =>
    obtain ⟨d, first, rest⟩ := forM_cons_ok.mp ran
    obtain ⟨⟨is, moves, stores⟩, stored, clean⟩ := writeBackOne_moves first
    obtain ⟨⟨js, others, stores'⟩, further, all⟩ := ih rest
    refine ⟨⟨_, moves.trans others, ?_⟩, stored.trans further, ?_⟩
    · intro x member
      exact (List.mem_append.mp member).elim (stores x) (stores' x)
    intro w member e found
    rcases List.mem_cons.mp member with rfl | member
    · exact further.clean clean found
    · exact all w member e found

theorem writeBack_moves (ran : writeBack b = .ok ((), c)) :
    (∃ is, Moves site limits b is c ∧ ∀ x ∈ is, isStore x = true) ∧ Stored b c ∧ Clean c := by
  simp only [writeBack, bind_ok, get_ok] at ran
  obtain ⟨_, _, ⟨rfl, rfl⟩, ran⟩ := ran
  obtain ⟨moves, stored, clean⟩ := writeBackAll_moves ran
  refine ⟨moves, stored, fun v f known => ?_⟩
  obtain ⟨e, before, same⟩ := stored.entry v f known.1
  refine clean v (Store.mem_live.mpr ⟨e, before, ?_⟩) f known.1
  rcases same with rfl | rfl
  · exact known.2
  · exact known.2

/-! Emptying registers -/

theorem clearAll_moves (sound : b.store.Sound) (clean : Clean b) (rs : List Reg) :
    Moves site {} b [] { b with store := rs.foldl Store.clearRegister b.store } ∧
      ∀ r w, w ∈ (rs.foldl Store.clearRegister b.store).held r → r ∉ rs ∧ w ∈ b.store.held r := by
  induction rs generalizing b with
  | nil => exact ⟨.refl b, fun r w held => ⟨by simp, held⟩⟩
  | cons r rs ih =>
    have clear : Move site {} b [] { b with store := b.store.clearRegister r } := by
      refine .clear (by simp) ?_
      intro v e held entry homed _
      obtain ⟨f, known, listed⟩ := sound.known_of_held held
      cases Option.some.inj (entry.symm.trans known.1)
      simp [Entry.hasCopyBeside, clean.homeValid known homed listed]
    obtain ⟨moves, rest⟩ := ih (clear.sound sound) (clear.clean sound clean)
    refine ⟨(Moves.one clear).trans moves, fun q w held => ?_⟩
    obtain ⟨outside, held⟩ := rest q w held
    change w ∈ (b.store.clearRegister r).held q at held
    rw [Store.held_clearRegister (sound.single r)] at held
    split at held
    · exact absurd held (KeySet.not_mem_empty w)
    · rename_i other
      exact ⟨by simp [other, outside], held⟩

/-- A flush stores every variable that has a home and empties every register. -/
theorem flush_moves (sound : b.store.Sound) (ran : flush b = .ok ((), c)) :
    (∃ is, Moves site {} b is c ∧ ∀ x ∈ is, isStore x = true) ∧ (∀ r w, w ∉ c.store.held r) ∧
      c.reserved = b.reserved := by
  simp only [flush, Store.clearAll, bind_ok, modifyStore_ok] at ran
  obtain ⟨_, d, wrote, rfl⟩ := ran
  obtain ⟨⟨is, moves, stores⟩, stored, clean⟩ := writeBack_moves wrote
  obtain ⟨clears, empty⟩ := clearAll_moves (moves.sound sound) clean Reg.all
  refine ⟨⟨_, moves.trans clears, by simpa using stores⟩, ?_, stored.reserved⟩
  dsimp only
  exact fun r w held => (empty r w held).1 (List.mem_finRange r)

theorem unbindAll_moves {v : Var} {e : Entry Mem} {rs : List Reg} (known : b.store.Has v e)
    (valid : e.homeValid = true) :
    Moves site {} b [] { b with store := rs.foldl (fun s r => s.unbind r v) b.store } := by
  induction rs generalizing b e with
  | nil => exact .refl b
  | cons r rs ih =>
    have evict : Move site {} b [] { b with store := b.store.unbind r v } :=
      .evict (by simp) known valid
    refine (Moves.one evict).trans (ih (e := { e with regs := e.regs.erase r }) ⟨?_, known.2⟩ valid)
    show (b.store.unbind r v).get? v = _
    simp [known.1]

theorem evictOne_moves {v : Var} {e : Entry Mem} (entry : b.store.get? v = some e)
    (known : e.home.isSome = true → e.forgotten = false) (clean : Clean b)
    (ran : evictOne v b = .ok ((), c)) : Moves site {} b [] c := by
  simp only [evictOne, bind_ok, entryOf_ok] at ran
  obtain ⟨f, _, ⟨found, rfl⟩, ran⟩ := ran
  cases Option.some.inj (entry.symm.trans found)
  split at ran
  · rename_i homed
    obtain rfl := modifyStore_ok.mp ran
    have has : b.store.Has v e := ⟨entry, known homed⟩
    by_cases empty : e.regs.toList = []
    · simp only [empty]
      exact .refl b
    · obtain ⟨r, listed⟩ := List.exists_mem_of_ne_nil _ empty
      exact unbindAll_moves has (clean.homeValid has homed listed)
  · obtain ⟨_, rfl⟩ := pure_ok.mp ran
    exact .refl b

theorem evictAll_moves {vs : List Var} (sound : b.store.Sound) (clean : Clean b)
    (known : ∀ v ∈ vs, ∃ e, b.store.get? v = some e ∧ (e.home.isSome = true → e.forgotten = false))
    (ran : vs.forM evictOne b = .ok ((), c)) : Moves site {} b [] c := by
  induction vs generalizing b with
  | nil =>
    obtain rfl := forM_nil_ok.mp ran
    exact .refl b
  | cons v vs ih =>
    obtain ⟨d, first, rest⟩ := forM_cons_ok.mp ran
    obtain ⟨e, entry, has⟩ := known v (by simp)
    have moves : Moves site {} b [] d := evictOne_moves entry has clean first
    refine moves.trans (ih (moves.sound sound) (moves.clean sound clean) ?_ rest)
    intro w member
    obtain ⟨f, found, stays⟩ := known w (by simp [member])
    obtain ⟨g, after, _, home⟩ := moves.entry_name sound found
    refine ⟨g, after, fun homed => ?_⟩
    rw [home] at homed
    obtain ⟨g', has, _⟩ := moves.homed_stays sound ⟨found, stays homed⟩ homed
    cases Option.some.inj (after.symm.trans has.1)
    exact has.2

theorem evictHomed_moves (sound : b.store.Sound) (clean : Clean b)
    (ran : evictHomed b = .ok ((), c)) : Moves site {} b [] c := by
  simp only [evictHomed, bind_ok, get_ok] at ran
  obtain ⟨_, _, ⟨rfl, rfl⟩, ran⟩ := ran
  refine evictAll_moves sound clean (fun v live => ?_) ran
  obtain ⟨e, known⟩ := Store.mem_live.mp live
  exact ⟨e, known.1, fun _ => known.2⟩

/-! Copies into argument registers -/

/-- How the value of an operand gets into an argument register. -/
inductive Copied (site : Site) (i : Fin 8) (b : Body) : Operand → List Asm.Instr → Body → Prop
  | literal (n : Int) :
      Copied site i b (.literal n) (immediateInstrs (.arg i) n)
        { b with out := b.out.append (immediateInstrs (.arg i) n) }
  | register {c : Body} {name : String} {r : Reg} :
      Moves site .still b [] c → Resides c r name →
      Copied site i b (.variable name) [.mv (.arg i) (.pool r)]
        { c with out := c.out.append [.mv (.arg i) (.pool r)] }
  | home {c : Body} {v : Var} {e : Entry Mem} {home : Mem} :
      Moves site .still b [] c → c.store.Has v e → e.homeValid = true → e.home = some home →
      Copied site i b (.variable e.name) (loadInstrs site.options (.arg i) home)
        { c with out := c.out.append (loadInstrs site.options (.arg i) home) }
  | unresolved {c : Body} {name : String} :
      Moves site .still b [] c → ¬ c.out.warnings.size ≤ b.out.warnings.size →
      Copied site i b (.variable name) [] c

theorem copyTo_copied {i : Fin 8} {x : Operand} (sound : b.store.Sound)
    (ran : copyTo site (.arg i) x b = .ok ((), c)) :
    (∃ is, Copied site i b x is c) ∧ c.reserved = b.reserved := by
  cases x with
  | literal n =>
    obtain rfl := emitAll_ok.mp ran
    exact ⟨⟨_, .literal n⟩, rfl⟩
  | «variable» name =>
    simp only [copyTo, bind_ok] at ran
    obtain ⟨o, d, resolved, ran⟩ := ran
    obtain ⟨moves, known, reserved, _⟩ : Moves site .still b [] d ∧ _ := resolve?_moves sound resolved
    have quiet := moves.warnings.1
    cases o with
    | none =>
      obtain ⟨warned, _, rest, loud⟩ := unresolved_moves ran
      exact ⟨⟨_, .unresolved (moves.trans warned) (by omega)⟩, rest.trans reserved⟩
    | some v =>
      simp only [bind_ok, entryOf_ok] at ran
      obtain ⟨e, _, ⟨entry, rfl⟩, ran⟩ := ran
      obtain ⟨has, rfl⟩ := Store.has_of_lookup known entry
      cases first : e.register? with
      | some r =>
        simp only [first] at ran
        obtain rfl := emitInstr_ok.mp ran
        exact ⟨⟨_, .register moves ⟨v, e, entry, KeySet.mem_of_first? first, rfl⟩⟩, reserved⟩
      | none =>
        cases place : if e.homeValid = true then e.home else none with
        | some home =>
          simp only [first, place] at ran
          obtain rfl := emitAll_ok.mp ran
          split at place
          · exact ⟨⟨_, .home moves has ‹_› place⟩, reserved⟩
          · contradiction
        | none =>
          simp only [first, place] at ran
          obtain ⟨warned, _, rest, loud⟩ := unresolved_moves ran
          exact ⟨⟨_, .unresolved (moves.trans warned) (by omega)⟩, rest.trans reserved⟩

theorem Copied.moves {i : Fin 8} {x : Operand} {is : List Asm.Instr}
    (copied : Copied site i b x is c) : Moves site ⟨Reg.all, none, [i], 0⟩ b is c := by
  have wider {d : Body} (moves : Moves site .still b [] d) : Moves site ⟨Reg.all, none, [i], 0⟩ b [] d :=
    moves.mono ⟨fun _ member => member, .inl rfl, by simp [Limits.still], Nat.le_refl 0⟩
  cases copied with
  | literal n => exact .one (.scratch (isScratch_immediate i n))
  | register moves => exact (wider moves).trans (.one (.scratch (by simp [isScratch])))
  | home moves known valid place =>
    exact (wider moves).trans (.one (.fetch (by simp) known valid place))
  | unresolved moves => exact wider moves

end ThreeAddress.Codegen
