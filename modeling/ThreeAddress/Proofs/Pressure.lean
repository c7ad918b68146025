import Mathlib.Tactic.Choose
import ThreeAddress.Proofs.Faults
import ThreeAddress.Proofs.WriteBack

/-! When the allocator finds a register. It does unless each usable register is in use by the instruction
or holds a temporary that would be lost, so that success depends on these temporaries alone. -/
namespace ThreeAddress.Codegen

open Asm (Line Mem)
open Descriptor (Store Var Entry)

/-- How the search for a value or a register ends: no register may be left, or the value is unknown. -/
inductive Verdict {α : Type} (full known : Prop) (V : α → Body → Prop) : Except Error (α × Body) → Prop
  | success {a : α} {c : Body} : ¬ full → known → V a c → Verdict full known V (.ok (a, c))
  | exhausted {e : Error} :
      full → e.contexts = [] → e.kind = .noRegister → Verdict full known V (.error e)
  | unknown {e : Error} :
      ¬ full → ¬ known → e.contexts = [] → e.kind = .unresolved → Verdict full known V (.error e)

theorem Verdict.bind {α β : Type} {full known more : Prop} {V : α → Body → Prop} {W : β → Body → Prop}
    {x : Step α} {f : α → Step β} {b : Body} (first : Verdict full known V (x b))
    (rest : ∀ a c, V a c → Verdict False more W (f a c)) : Verdict full (known ∧ more) W ((x >>= f) b) := by
  change Verdict full (known ∧ more) W (x b >>= fun p => f p.1 p.2)
  generalize x b = outcome at first ⊢
  cases first with
  | exhausted isFull contexts kind => exact .exhausted isFull contexts kind
  | unknown notFull unknown contexts kind => exact .unknown notFull (fun both => unknown both.1) contexts kind
  | @success a c notFull isKnown after =>
    have behind := rest a c after
    change Verdict full (known ∧ more) W (f a c)
    generalize f a c = outcome at behind ⊢
    cases behind with
    | exhausted isFull => exact isFull.elim
    | unknown _ unknown contexts kind => exact .unknown notFull (fun both => unknown both.2) contexts kind
    | success _ alsoKnown after => exact .success notFull ⟨isKnown, alsoKnown⟩ after

variable {site : Site} {b c : Body} {name : String} {needs : Needs} {r : Reg}

/-! Registers that cannot be taken -/

/-- Emptying the register would lose the variable in it. -/
def Loses (site : Site) (needs : Needs) (b : Body) (r : Reg) : Prop :=
  ∃ v e, v ∈ b.store.held r ∧ b.store.get? v = some e ∧ entryCost (laterUse site b) needs r e = none

/-- The instruction uses the register, or emptying it would lose a variable. -/
def Barred (site : Site) (needs : Needs) (b : Body) (r : Reg) : Prop :=
  r ∈ b.reserved ∨ Loses site needs b r

theorem spillCost_cases (site : Site) (sound : b.store.Sound) (needs : Needs) (r : Reg) :
    ∃ cost, spillCost site needs r b = .ok (cost, b) ∧ (cost = none ↔ Loses site needs b r) := by
  obtain ⟨es, d, held⟩ := heldEntries_runs sound r
  obtain ⟨rfl, none, one⟩ := heldEntries_ok held
  refine ⟨_, bind_ok.mpr ⟨es, b, held, rfl⟩, ?_⟩
  rw [Option.map_eq_none_iff]
  rcases KeySet.cases_of_size (sound.single r) with empty | ⟨v, only⟩
  · rw [none empty]
    simp [Loses, empty]
  · obtain ⟨e, found, rfl⟩ := one v only
    cases price : entryCost (laterUse site b) needs r e with
    | none => simpa [price] using ⟨v, e, by simp [only], found, price⟩
    | some n =>
      have kept : ¬ Loses site needs b r := by
        rintro ⟨w, f, held, entry, lost⟩
        rw [only, KeySet.mem_single] at held
        subst held
        cases Option.some.inj (found.symm.trans entry)
        rw [price] at lost
        cases lost
      simpa [price] using kept

theorem cheapest?_eq_none {xs : List (Reg × Option Nat)} (none : cheapest? xs = none) : xs = [] := by
  cases xs with
  | nil => rfl
  | cons x xs =>
    unfold cheapest? at none
    split at none
    · cases none
    · split at none <;> cases none

/-- The cheapest register would lose a variable only where each one would. -/
theorem cheapest?_lossy {xs : List (Reg × Option Nat)} (lossy : cheapest? xs = some (r, none)) :
    ∀ x ∈ xs, x.2 = none := by
  induction xs generalizing r with
  | nil => cases lossy
  | cons y ys ih =>
    unfold cheapest? at lossy
    split at lossy
    · rename_i rest
      rw [cheapest?_eq_none rest]
      simpa using congrArg Prod.snd (Option.some.inj lossy)
    · rename_i z rest
      split at lossy
      · rename_i less
        rw [Option.some.inj lossy] at less
        simp [cheaper] at less
      · rename_i more
        have first : y.2 = none := congrArg Prod.snd (Option.some.inj lossy)
        rw [first] at more
        obtain ⟨q, cost⟩ := z
        cases cost with
        | some n => simp [cheaper] at more
        | none => exact List.forall_mem_cons.mpr ⟨first, ih rest⟩

/-- Either a register is emptied that may be, or there is none. -/
theorem seize_verdict (site : Site) (sound : b.store.Sound) (name : String) (needs : Needs) :
    Verdict (∀ r ∈ candidates b, Loses site needs b r) True
      (fun r c => r ∈ candidates b ∧ ¬ Loses site needs b r ∧ spill needs r b = .ok ((), c))
      (seize site name needs b) := by
  have costs := spillCost_cases site sound needs
  choose cost reads lossy using costs
  have measured : ((candidates b).mapM fun r => do pure (r, ← spillCost site needs r) : Step _) b =
      .ok ((candidates b).map fun r => (r, cost r), b) :=
    mapM_eq_of_reads fun r _ => bind_ok.mpr ⟨cost r, b, reads r, rfl⟩
  have seizes : seize site name needs b = _ := (bind_of_ok (x := get) rfl).trans (bind_of_ok measured)
  cases found : cheapest? ((candidates b).map fun r => (r, cost r)) with
  | none =>
    have empty := cheapest?_eq_none found
    rw [List.map_eq_nil_iff] at empty
    rw [seizes, found]
    exact .exhausted (by simp [empty]) rfl rfl
  | some best =>
    obtain ⟨r, price⟩ := best
    cases price with
    | none =>
      rw [seizes, found]
      refine .exhausted (fun q member => (lossy q).mp ?_) rfl rfl
      exact cheapest?_lossy found (q, cost q) (List.mem_map_of_mem member)
    | some n =>
      obtain ⟨_, c, spilled⟩ := spill_runs sound needs r
      obtain ⟨q, candidate, same⟩ := List.mem_map.mp (cheapest?_mem found)
      obtain ⟨rfl, priced⟩ := Prod.mk.inj same
      have safe : ¬ Loses site needs b q := fun loses => by
        rw [(lossy q).mpr loses] at priced
        cases priced
      have ran : seize site name needs b = .ok (q, c) := by
        rw [seizes, found]
        exact bind_ok.mpr ⟨(), c, spilled, rfl⟩
      rw [ran]
      exact .success (fun all => safe (all q candidate)) trivial ⟨candidate, safe, spilled⟩

/-! Taking a register -/

/-- Some register holds the variable of the name. -/
def Body.Bears (b : Body) (name : String) : Prop := ∃ r, Resides b r name

/-- The variable that the instruction overwrites without reading it as its other operand. -/
def Needs.lost? (needs : Needs) : Option String := if needs.other = needs.res then none else needs.res

theorem Needs.lost?_cases (needs : Needs) : needs.lost? = none ∨ needs.lost? = needs.res := by
  unfold Needs.lost?
  split
  · exact .inl rfl
  · exact .inr rfl

theorem Needs.lost?_of_overwrites (overwrites : needs.overwrites name = true) : needs.lost? = some name := by
  simp only [Needs.overwrites, Bool.and_eq_true, decide_eq_true_eq] at overwrites
  rw [Needs.lost?, if_neg, overwrites.1]
  rw [overwrites.1]
  exact overwrites.2

/-- No register is left for the name. -/
def Full (site : Site) (name : String) (needs : Needs) (b : Body) : Prop :=
  ¬ b.Bears name ∧ ∀ r, b.store.isUsable r = true → Barred site needs b r

/-- A register was taken, and no other register has changed. -/
structure Takes (site : Site) (needs : Needs) (b : Body) (r : Reg) (c : Body) : Prop where
  moves : ∃ is, Moves site ⟨Reg.all.filter (· ≠ r), needs.lost?, [], 0⟩ b is c
  reserved : c.reserved = r :: b.reserved
  keeps : Barred site needs b r → ∀ n, Resides b r n → Resides c r n

/-- The register that was taken for the name holds its variable or nothing. -/
structure Acquired (site : Site) (needs : Needs) (name : String) (b : Body) (r : Reg) (c : Body) : Prop
    extends Takes site needs b r c where
  usable : c.store.isUsable r = true
  fewer : ∀ q n, Resides c q n → Resides b q n
  place : (Resides b r name ∧ Resides c r name) ∨ (¬ b.Bears name ∧ ∀ w, w ∉ c.store.held r)

/-- The state in which a name is known if it is that of a global scalar. -/
def Body.mention (table : Scope) (name : String) (b : Body) : Body :=
  if b.store.lookup name = none ∧ (table.lookup name).any Symbol.isScalar = true then
    { b with store := (b.store.declare name (some (.global name))).2 }
  else b

/-- Mentioning a name emits nothing, and registers and variables stay as they are. -/
structure Still (b d : Body) : Prop where
  out : d.out = b.out
  reserved : d.reserved = b.reserved
  pending : d.pending = b.pending
  usable : ∀ r, d.store.isUsable r = b.store.isUsable r
  held : ∀ r, d.store.held r = b.store.held r
  entries : ∀ v e, b.store.get? v = some e → d.store.get? v = some e

theorem Body.mention_still (table : Scope) (name : String) (b : Body) : Still b (b.mention table name) := by
  unfold Body.mention
  split
  · rename_i new
    refine ⟨rfl, rfl, rfl, fun r => Store.isUsable_declare .., fun r => Store.held_declare .., fun v e entry => ?_⟩
    rw [(Store.declare_of_new new.1 _).2, if_neg (Nat.ne_of_lt (Store.get?_lt entry)), entry]
  · exact ⟨rfl, rfl, rfl, fun _ => rfl, fun _ => rfl, fun _ _ => id⟩

theorem resolve?_mention {o : Option Var} (ran : resolve? site name b = .ok (o, c)) :
    c = b.mention site.table name := by
  simp only [resolve?, bind_ok, get_ok] at ran
  obtain ⟨_, _, ⟨rfl, rfl⟩, ran⟩ := ran
  unfold Body.mention
  cases known : b.store.lookup name with
  | some w =>
    simp only [known, pure_ok] at ran
    simp [ran.2]
  | none =>
    cases symbol : site.table.lookup name with
    | none =>
      simp only [known, symbol, pure_ok] at ran
      simp [ran.2]
    | some x =>
      simp only [known, symbol] at ran
      split at ran
      · rename_i scalar
        simp only [bind_ok, get_ok, modifyStore_ok, pure_ok] at ran
        obtain ⟨_, _, ⟨rfl, rfl⟩, _, _, rfl, _, rfl⟩ := ran
        simp [scalar]
      · rename_i array
        simp [array, (pure_ok.mp ran).2]

theorem residence?_mention {o : Option Reg} (ran : residence? site name b = .ok (o, c)) :
    c = b.mention site.table name := by
  simp only [residence?, bind_ok] at ran
  obtain ⟨found, d, resolved, ran⟩ := ran
  have same := resolve?_mention resolved
  cases found with
  | none => exact (pure_ok.mp ran).2 ▸ same
  | some v =>
    simp only [bind_ok, entryOf_ok, pure_ok] at ran
    obtain ⟨_, _, ⟨_, rfl⟩, _, rfl⟩ := ran
    exact same

theorem Still.laterUse_eq {d : Body} (still : Still b d) (site : Site) : laterUse site d = laterUse site b := by
  funext n
  rw [laterUse, laterUse, still.pending]

/-- Looking for a register changes nothing about those that hold a variable. -/
theorem residence?_loses {o : Option Reg} (sound : b.store.Sound) (ran : residence? site name b = .ok (o, c)) :
    Loses site needs c r ↔ Loses site needs b r := by
  obtain rfl := residence?_mention ran
  have still := b.mention_still site.table name
  unfold Loses
  rw [still.held, still.laterUse_eq]
  constructor
  · rintro ⟨v, e, inside, entry, lost⟩
    obtain ⟨f, known, _⟩ := sound.known_of_held inside
    cases Option.some.inj (entry.symm.trans (still.entries v f known.1))
    exact ⟨v, e, inside, known.1, lost⟩
  · rintro ⟨v, e, inside, entry, lost⟩
    exact ⟨v, e, inside, still.entries v e entry, lost⟩

theorem mem_candidates : r ∈ candidates b ↔ b.store.isUsable r = true ∧ r ∉ b.reserved := by
  simp [candidates, mem_regs_all]

theorem acquire_resides {q : Reg} {n : String} (sound : b.store.Sound)
    (ran : acquire site name needs b = .ok (r, c)) (resides : Resides c q n) : Resides b q n := by
  obtain ⟨⟨is, moves⟩, _⟩ := acquire_moves sound ran
  obtain ⟨v, f, entry, listed, rfl⟩ := resides
  have held := acquire_fewer sound ran q v (((moves.sound sound).listed q v).mpr ⟨f, entry, listed⟩)
  obtain ⟨e, known, listed⟩ := sound.known_of_held held
  obtain ⟨g, after, named, _⟩ := moves.entry_name sound known.1
  cases Option.some.inj (entry.symm.trans after)
  exact ⟨v, e, known.1, listed, named.symm⟩

/-- What `acquire` does for a name that is in no register. -/
def vacate (site : Site) (name : String) (needs : Needs) : Step Reg := do
  match freeRegister? (← get) with
  | some r => pure r
  | none => seize site name needs

/-- A register has been emptied that may be. -/
structure Vacated (site : Site) (needs : Needs) (b : Body) (r : Reg) (c : Body) : Prop where
  moves : ∃ is, Moves site ⟨Reg.all.filter (· ≠ r), needs.lost?, [], 0⟩ b is c
  reserved : c.reserved = b.reserved
  usable : b.store.isUsable r = true
  unbarred : ¬ Barred site needs b r
  empty : ∀ w, w ∉ c.store.held r

theorem vacate_verdict (site : Site) (sound : b.store.Sound) (name : String) (needs : Needs) :
    Verdict (∀ r, b.store.isUsable r = true → Barred site needs b r) True (Vacated site needs b)
      (vacate site name needs b) := by
  have vacates : vacate site name needs b =
      (match freeRegister? b with
        | some r => pure r
        | none => seize site name needs : Step Reg) b := rfl
  cases free : freeRegister? b with
  | some p =>
    rw [vacates, free]
    obtain ⟨usable, unreserved⟩ := mem_candidates.mp (List.mem_of_find?_eq_some free)
    have isFree := List.find?_some free
    have empty : ∀ w, w ∉ b.store.held p := KeySet.isEmpty_iff.mp isFree
    have unbarred : ¬ Barred site needs b p := by
      rintro (used | ⟨v, e, inside, _⟩)
      · exact unreserved used
      · exact empty v inside
    exact .success (fun all => unbarred (all p usable)) trivial ⟨⟨_, .refl b⟩, rfl, usable, unbarred, empty⟩
  | none =>
    rw [vacates, free]
    have verdict := seize_verdict site sound name needs
    change Verdict _ _ _ (seize site name needs b)
    generalize seize site name needs b = outcome at verdict ⊢
    cases verdict with
    | @success p c kept known taken =>
      obtain ⟨candidate, safe, spilled⟩ := taken
      obtain ⟨usable, unreserved⟩ := mem_candidates.mp candidate
      have unbarred : ¬ Barred site needs b p := fun barred => barred.elim unreserved safe
      obtain ⟨is, spills⟩ := spill_spills sound spilled
      have emptied := spills.emptied sound
      refine .success (fun all => unbarred (all p usable)) trivial ?_
      exact ⟨⟨is, spills.moves sound (by simp) fun _ => Needs.lost?_of_overwrites⟩, emptied.reserved, usable,
        unbarred, emptied.empty⟩
    | exhausted lossy contexts kind =>
      refine .exhausted (fun q usable => ?_) contexts kind
      by_cases used : q ∈ b.reserved
      · exact .inl used
      · exact .inr (lossy q (mem_candidates.mpr ⟨usable, used⟩))
    | unknown _ absurd' => exact absurd trivial absurd'

theorem acquire_of_absent {d : Body} (needs : Needs) (absent : residence? site name b = .ok (none, d)) :
    acquire site name needs b = (vacate site name needs >>= fun r => do reserve r; pure r) d := by
  have acquires : acquire site name needs b = _ := bind_of_ok absent
  have vacates : (vacate site name needs >>= fun r => do reserve r; pure r) d =
      ((match freeRegister? d with
        | some r => pure r
        | none => seize site name needs : Step Reg) >>= fun r => do reserve r; pure r) d := rfl
  rw [acquires, vacates]
  refine (bind_of_ok (x := get) rfl).trans ?_
  cases freeRegister? d <;> rfl

/-- A register is found unless none is left. -/
theorem acquire_verdict (site : Site) (sound : b.store.Sound) (name : String) (needs : Needs) :
    Verdict (Full site name needs b) True (Acquired site needs name b) (acquire site name needs b) := by
  obtain ⟨o, d, residence⟩ := residence?_runs site sound name
  obtain ⟨moves, reserved, held, inside, outside⟩ : Moves site .still b [] d ∧ _ :=
    residence?_moves sound residence
  have sound' := moves.sound sound
  have resides (q : Reg) (n : String) : Resides d q n ↔ Resides b q n := moves.resides_iff sound (held q)
  have usable (q : Reg) := moves.isUsable sound q
  have still (p : Reg) : Moves site ⟨Reg.all.filter (· ≠ p), needs.lost?, [], 0⟩ b [] d :=
    moves.mono ⟨fun q _ => mem_regs_all q, .inl rfl, by simp [Limits.still], Nat.le_refl _⟩
  have barred (q : Reg) : Barred site needs d q ↔ Barred site needs b q := by
    rw [Barred, Barred, reserved, residence?_loses sound residence]
  cases o with
  | some p =>
    have found := inside p rfl
    have before := (resides p name).mp found
    have ran : acquire site name needs b = .ok (p, { d with reserved := p :: d.reserved }) := bind_of_ok residence
    rw [ran]
    have takes : Takes site needs b p { d with reserved := p :: d.reserved } :=
      ⟨⟨_, (still p).trans (.one (.reserve p))⟩, congrArg (p :: ·) reserved, fun _ n => (resides p n).mpr⟩
    refine .success (fun full => full.1 ⟨p, before⟩) trivial ⟨takes, ?_, ?_, .inl ⟨before, found⟩⟩
    · obtain ⟨v, e, entry, listed, _⟩ := found
      exact sound'.usable p v ((sound'.listed p v).mpr ⟨e, entry, listed⟩)
    · exact fun q n => acquire_resides sound ran
  | none =>
    have absent : ¬ b.Bears name := fun bears => by
      obtain ⟨q, found⟩ := bears
      exact outside rfl q ((resides q name).mpr found)
    have acquires := acquire_of_absent needs residence
    have verdict := vacate_verdict site sound' name needs
    generalize ran : vacate site name needs d = outcome at verdict
    cases verdict with
    | @success p c open' known vacated =>
      have ran : acquire site name needs b = .ok (p, { c with reserved := p :: c.reserved }) :=
        acquires.trans (bind_of_ok ran)
      rw [ran]
      obtain ⟨is, steps⟩ := vacated.moves
      have takes : Takes site needs b p { c with reserved := p :: c.reserved } :=
        ⟨⟨_, ((still p).trans steps).trans (.one (.reserve p))⟩,
          congrArg (p :: ·) (vacated.reserved.trans reserved),
          fun bars => absurd ((barred p).mpr bars) vacated.unbarred⟩
      refine .success (fun full => open' fun q isUsable => ?_) trivial
        ⟨takes, ?_, ?_, .inr ⟨absent, vacated.empty⟩⟩
      · exact (barred q).mpr (full.2 q (usable q ▸ isUsable))
      · exact (steps.isUsable sound' p).trans vacated.usable
      · exact fun q n => acquire_resides sound ran
    | @exhausted e all contexts kind =>
      have failed : acquire site name needs b = .error e := by
        rw [acquires]
        change (vacate site name needs d >>= _) = _
        rw [ran]
        rfl
      rw [failed]
      refine .exhausted ⟨absent, fun q isUsable => (barred q).mp (all q ?_)⟩ contexts kind
      exact (usable q).trans isUsable
    | unknown _ absurd' => exact absurd trivial absurd'

end ThreeAddress.Codegen
