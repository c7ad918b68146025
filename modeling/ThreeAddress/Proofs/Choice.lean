import ThreeAddress.Proofs.Effects
import ThreeAddress.Proofs.Survival

/-! Which register the allocator chooses. A variable stays in its lowest register; else the lowest vacant
register is taken; else the one that is cheapest to empty. Nothing is lost that the instruction or the code
behind it reads. -/
namespace ThreeAddress

theorem Descriptor.Store.Sound.linked {Home : Type} {s : Store Home} (sound : s.Sound) : s.Linked :=
  ⟨sound.listed, sound.single, sound.unique, sound.housed⟩

namespace Codegen

open Asm (Line Mem)
open Descriptor (Store Var Entry)

variable {site : Site} {b c d : Body} {name : String} {needs : Needs} {r q : Reg} {v : Var} {e : Entry Mem}

/-! The first and the cheapest of a list -/

theorem candidates_ascending (b : Body) : (candidates b).Pairwise (· < ·) :=
  (List.pairwise_lt_finRange 15).filter _

theorem find?_lowest {rs : List Reg} {test : Reg → Bool} (ascending : rs.Pairwise (· < ·))
    (found : rs.find? test = some r) : ∀ q ∈ rs, test q = true → r ≤ q := by
  induction rs with
  | nil => cases found
  | cons p rs ih =>
    obtain ⟨above, ascending⟩ := List.pairwise_cons.mp ascending
    intro q member passes
    rw [List.find?_cons] at found
    split at found
    · cases Option.some.inj found
      rcases List.mem_cons.mp member with rfl | member
      · exact Fin.le_refl q
      · exact Fin.le_of_lt (above q member)
    · rename_i fails
      rcases List.mem_cons.mp member with rfl | member
      · rw [passes] at fails
        cases fails
      · exact ih ascending found q member passes

/-- The cheapest register is the first one of least cost. -/
theorem cheapest?_least {xs : List (Reg × Option Nat)} {n : Nat} (ascending : (xs.map Prod.fst).Pairwise (· < ·))
    (found : cheapest? xs = some (r, some n)) : ∀ q m, (q, some m) ∈ xs → n < m ∨ n = m ∧ r ≤ q := by
  induction xs generalizing r n with
  | nil => cases found
  | cons x xs ih =>
    rw [List.map_cons] at ascending
    obtain ⟨above, rising⟩ := List.pairwise_cons.mp ascending
    intro q m member
    unfold cheapest? at found
    split at found
    · rename_i rest
      rw [cheapest?_eq_none rest, Option.some.inj found, List.mem_singleton] at member
      obtain ⟨rfl, same⟩ := Prod.mk.inj member
      exact .inr ⟨(Option.some.inj same).symm, Fin.le_refl q⟩
    · rename_i y rest
      split at found
      · rename_i less
        cases Option.some.inj found
        rcases List.mem_cons.mp member with rfl | member
        · exact .inl (by simpa [cheaper] using less)
        · exact ih rising rest q m member
      · rename_i more
        cases Option.some.inj found
        rcases List.mem_cons.mp member with same | member
        · cases same
          exact .inr ⟨rfl, Fin.le_refl _⟩
        · -- the register in front wins a tie, and it has the lower number
          have behind : r < q := above q (List.mem_map_of_mem member)
          obtain ⟨p, price⟩ := y
          cases price with
          | none => cases cheapest?_lossy rest _ member
          | some k =>
            have least : n ≤ k := by simpa [cheaper] using more
            have below : k ≤ m := by
              rcases ih rising rest q m member with less | ⟨same, _⟩ <;> omega
            rcases Nat.lt_or_eq_of_le (Nat.le_trans least below) with less | same
            · exact .inl less
            · exact .inr ⟨same, Fin.le_of_lt behind⟩

/-! What emptying a register costs -/

instance (later : String → Bool) (needs : Needs) (name : String) : Decidable (Wanted later needs name) :=
  inferInstanceAs (Decidable (_ ∧ _))

/-- The variable is wanted and has no other valid location than the register. -/
def Vital (site : Site) (needs : Needs) (b : Body) (r : Reg) (e : Entry Mem) : Prop :=
  Wanted (laterUse site b) needs e.name ∧ e.hasCopyBeside r = false

instance (site : Site) (needs : Needs) (b : Body) (r : Reg) (e : Entry Mem) : Decidable (Vital site needs b r e) :=
  inferInstanceAs (Decidable (_ ∧ _))

/-- The variables in the register that emptying it may not lose. -/
def vitalIn (site : Site) (needs : Needs) (b : Body) (r : Reg) : List (Entry Mem) :=
  ((b.store.held r).toList.filterMap b.store.get?).filter fun e => Vital site needs b r e

/-- The number of stores that emptying the register takes; nothing if a variable in it cannot be stored. -/
def spillPrice (site : Site) (needs : Needs) (b : Body) (r : Reg) : Option Nat :=
  if (vitalIn site needs b r).all (·.home.isSome) then some (vitalIn site needs b r).length else none

theorem entryCost_eq (site : Site) (needs : Needs) (b : Body) (r : Reg) (e : Entry Mem) :
    entryCost (laterUse site b) needs r e =
      if Vital site needs b r e then (if e.home.isSome then some 1 else none) else some 0 := by
  unfold entryCost Vital Wanted
  grind

theorem spillCost_eq (site : Site) (sound : b.store.Sound) (needs : Needs) (r : Reg) :
    spillCost site needs r b = .ok (spillPrice site needs b r, b) := by
  obtain ⟨es, d, held⟩ := heldEntries_runs sound r
  obtain ⟨rfl, vacant, one⟩ := heldEntries_ok held
  refine (bind_of_ok held).trans ((bind_of_ok (x := get) rfl).trans ?_)
  refine congrArg (fun cost => Except.ok (cost, b)) ?_
  rcases KeySet.cases_of_size (sound.single r) with empty | ⟨v, only⟩
  · rw [vacant empty, spillPrice, vitalIn, empty]
    rfl
  · obtain ⟨e, found, rfl⟩ := one v only
    have residents : (b.store.held r).toList.filterMap b.store.get? = [e] := by
      rw [only]
      simp [KeySet.single, KeySet.toList, found]
    rw [spillPrice, vitalIn, residents]
    by_cases vital : Vital site needs b r e
    · cases homed : e.home.isSome <;> simp [entryCost_eq, vital, homed]
    · simp [entryCost_eq, vital]

/-- The register holds a variable that is wanted, has no home and is in no other register. -/
def HoldsUnspillable (site : Site) (needs : Needs) (b : Body) (r : Reg) : Prop :=
  ∃ v e, v ∈ b.store.held r ∧ b.store.get? v = some e ∧ Vital site needs b r e ∧ e.home = none

theorem loses_iff_holdsUnspillable : Loses site needs b r ↔ HoldsUnspillable site needs b r := by
  simp only [Loses, HoldsUnspillable, Vital, entryCost_eq_none, and_assoc]

theorem spillPrice_eq_none : spillPrice site needs b r = none ↔ HoldsUnspillable site needs b r := by
  rw [spillPrice, ite_eq_right_iff]
  simp only [reduceCtorEq, imp_false, List.all_eq_true, not_forall, vitalIn, List.mem_filter, List.mem_filterMap,
    KeySet.mem_toList, decide_eq_true_eq, Bool.not_eq_true, Option.isSome_eq_false_iff, Option.isNone_iff_eq_none]
  constructor
  · rintro ⟨e, ⟨⟨v, held, entry⟩, vital⟩, homeless⟩
    exact ⟨v, e, held, entry, vital, homeless⟩
  · rintro ⟨v, e, held, entry, vital, homeless⟩
    exact ⟨e, ⟨⟨v, held, entry⟩, vital⟩, homeless⟩

/-! Emptying a register -/

/-- A variable with another valid location keeps one when the register is emptied. -/
theorem clearRegister_keeps {s : Store Mem} (sound : s.Sound) (known : s.Has v e) (beside : e.hasCopyBeside r = true) :
    ∃ f, (s.clearRegister r).Has v f ∧ f.Located := by
  obtain ⟨f, after, stripped⟩ := (sound.linked.clearRegister_strips r).entries v e trivial known.1
  refine ⟨f, ⟨after, Bool.eq_false_iff.mpr fun forgotten => ?_⟩, (Entry.hasCopyBeside_iff_located stripped).mp beside⟩
  rcases stripped.forgotten.mp forgotten with before | ⟨homeless, _, only⟩
  · rw [known.2] at before
    cases before
  · rcases Entry.hasCopyBeside_iff.mp beside with valid | ⟨q, inside⟩
    · simpa [homeless] using sound.housed v e known.1 valid
    · obtain ⟨inside, other⟩ := KeySet.mem_erase.mp inside
      exact other (List.mem_singleton.mp (only q inside))

namespace Spills

variable {is : List Asm.Instr}

theorem instrs (spills : Spills needs b r is c) : is.length ≤ 1 ∧ ∀ i ∈ is, ∃ home, i = .sw (.pool r) home := by
  cases spills with
  | drop => simp
  | store => simp

theorem out (spills : Spills needs b r is c) : c.out = b.out.append is := by
  cases spills with
  | drop => rfl
  | store => rfl

/-- A variable that is not in the register stays as it is. -/
theorem get?_elsewhere (spills : Spills needs b r is c) (sound : b.store.Sound) (absent : v ∉ b.store.held r) :
    c.store.get? v = b.store.get? v := by
  cases spills with
  | drop =>
    exact (sound.get?_clearRegister r v).trans (if_neg absent)
  | @store w f home held entry =>
    have other : v ≠ w := by
      rintro rfl
      exact absent held
    refine ((sound.markStored entry).get?_clearRegister r v).trans ?_
    rw [Store.held_markStored, if_neg absent, Store.get?_markStored, if_neg other]

/-- A variable that is left without a valid location is overwritten, or it has no home and is read by nothing
that follows. -/
theorem lost (spills : Spills needs b r is c) (sound : b.store.Sound) (safe : ¬ HoldsUnspillable site needs b r)
    (known : b.store.Has v e) (located : e.Located) (gone : ∀ f, c.store.Has v f → ¬ f.Located) :
    needs.overwrites e.name = true ∨
      e.home = none ∧ needs.other ≠ some e.name ∧ laterUse site b e.name = false := by
  have held : v ∈ b.store.held r := by
    apply Decidable.byContradiction
    intro absent
    exact gone e ⟨(spills.get?_elsewhere sound absent).trans known.1, known.2⟩ located
  cases spills with
  | drop unsaved =>
    have alone : e.hasCopyBeside r = false := by
      refine Bool.eq_false_iff.mpr fun beside => ?_
      obtain ⟨f, after, located⟩ := clearRegister_keeps sound known beside
      exact gone f after located
    by_cases overwritten : needs.overwrites e.name = true
    · exact .inl overwritten
    have homeless : e.home = none := by simpa [overwritten, alone] using unsaved v e held known.1
    have unwanted : ¬ Wanted (laterUse site b) needs e.name := fun wanted =>
      safe ⟨v, e, held, known.1, ⟨wanted, alone⟩, homeless⟩
    exact .inr ⟨homeless, by simpa [Wanted, overwritten] using unwanted⟩
  | @store w g home inside entry place =>
    cases sound.eq_of_held held inside
    cases Option.some.inj (known.1.symm.trans entry)
    obtain ⟨f, after, located⟩ := clearRegister_keeps (sound.markStored entry) known.markStored
      (by simp [Entry.hasCopyBeside, Entry.markStored, place])
    exact absurd located (gone f after)

end Spills

/-! The search -/

/-- A variable that is in registers is found in the lowest one. -/
theorem residence?_lowest (sound : b.store.Sound) (known : b.store.Has v e) (listed : q ∈ e.regs) :
    ∃ r, r ∈ e.regs ∧ (∀ p, p ∈ e.regs → r ≤ p) ∧ residence? site e.name b = .ok (some r, b) := by
  have resolved : resolve? site e.name b = .ok (some v, b) := by
    refine (bind_of_ok (x := get) rfl).trans ?_
    rw [sound.lookup_eq known]
    rfl
  cases first : e.register? with
  | none => exact absurd listed (KeySet.first?_eq_none_iff.mp first q)
  | some r =>
    refine ⟨r, KeySet.mem_of_first? first, fun p inside => ?_, ?_⟩
    · have ascending := sound.ascending v e known.1
      obtain ⟨rest, keys⟩ : ∃ rest, e.regs.keys = r :: rest := List.head?_eq_some_iff.mp first
      rw [KeySet.Ascending, keys] at ascending
      rw [KeySet.mem_iff, keys] at inside
      rcases List.mem_cons.mp inside with rfl | inside
      · exact Fin.le_refl p
      · exact Fin.le_of_lt ((List.pairwise_cons.mp ascending).1 p inside)
    · refine (bind_of_ok resolved).trans ((bind_of_ok (entryOf_ok.mpr ⟨known.1, rfl⟩)).trans ?_)
      rw [first]
      rfl

/-- What each register that may be taken costs. -/
def prices (site : Site) (needs : Needs) (b : Body) : List (Reg × Option Nat) :=
  (candidates b).map fun r => (r, spillPrice site needs b r)

/-- The costs are found without a change. -/
theorem measured_eq (site : Site) (sound : b.store.Sound) (needs : Needs) :
    ((candidates b).mapM fun r => do pure (r, ← spillCost site needs r) : Step _) b =
      .ok (prices site needs b, b) :=
  mapM_eq_of_reads fun r _ => bind_of_ok (spillCost_eq site sound needs r)

/-- A register has been emptied: of those that may be taken, the first of least cost. -/
structure Seized (site : Site) (needs : Needs) (b : Body) (r : Reg) (is : List Asm.Instr) (c : Body) : Prop where
  candidate : r ∈ candidates b
  least : ∃ n, spillPrice site needs b r = some n ∧
    ∀ q ∈ candidates b, ∀ m, spillPrice site needs b q = some m → n < m ∨ n = m ∧ r ≤ q
  spills : Spills needs b r is c

theorem seize_seized (sound : b.store.Sound) (ran : seize site name needs b = .ok (r, c)) :
    ∃ is, Seized site needs b r is c := by
  have seizes : seize site name needs b = _ :=
    (bind_of_ok (x := get) rfl).trans (bind_of_ok (measured_eq site sound needs))
  rw [seizes] at ran
  cases found : cheapest? (prices site needs b) with
  | none => simp only [found, failWith_ok] at ran
  | some best =>
    obtain ⟨q, price⟩ := best
    cases price with
    | none => simp only [found, failWith_ok] at ran
    | some n =>
      simp only [found, bind_ok, pure_ok] at ran
      obtain ⟨_, _, spilled, rfl, rfl⟩ := ran
      obtain ⟨is, spills⟩ := spill_spills sound spilled
      obtain ⟨p, candidate, same⟩ := List.mem_map.mp (cheapest?_mem found)
      obtain ⟨rfl, priced⟩ := Prod.mk.inj same
      refine ⟨is, candidate, ⟨n, priced, fun q member m cost => ?_⟩, spills⟩
      refine cheapest?_least ?_ found q m (List.mem_map.mpr ⟨q, member, by rw [cost]⟩)
      rw [prices, List.map_map]
      exact (List.map_id (candidates b)).symm ▸ candidates_ascending b

/-! A register for a name -/

section Still

variable (still : Still b d)
include still

theorem Still.candidates_eq : candidates d = candidates b := by
  simp only [candidates, still.usable, still.reserved]

theorem Still.freeRegister?_eq : freeRegister? d = freeRegister? b := by
  have free : d.store.isFree = b.store.isFree := by
    funext r
    rw [Store.isFree, Store.isFree, still.held]
  rw [freeRegister?, freeRegister?, still.candidates_eq, free]

theorem Still.spillPrice_eq (sound : b.store.Sound) (site : Site) (needs : Needs) (r : Reg) :
    spillPrice site needs d r = spillPrice site needs b r := by
  have residents : (d.store.held r).toList.filterMap d.store.get? = (b.store.held r).toList.filterMap b.store.get? := by
    rw [still.held]
    refine List.filterMap_congr fun v held => ?_
    obtain ⟨e, known, _⟩ := sound.known_of_held (KeySet.mem_toList.mp held)
    rw [known.1, still.entries v e known.1]
  have vital (e : Entry Mem) : Vital site needs d r e ↔ Vital site needs b r e := by
    rw [Vital, Vital, still.laterUse_eq]
  have same : vitalIn site needs d r = vitalIn site needs b r := by
    rw [vitalIn, vitalIn, residents]
    exact List.filter_congr fun e _ => decide_eq_decide.mpr (vital e)
  rw [spillPrice, spillPrice, same]

end Still

/-- A register that may be taken. -/
def Body.Offers (b : Body) (r : Reg) : Prop := b.store.isUsable r = true ∧ r ∉ b.reserved

/-- A register has been emptied for an instruction, with one store at most. -/
structure Evicts (site : Site) (needs : Needs) (b : Body) (r : Reg) (c : Body) : Prop where
  offered : b.Offers r
  /-- Of the registers that can be emptied it is the first of least cost. -/
  least : ∃ n, spillPrice site needs b r = some n ∧
    ∀ q, b.Offers q → ∀ m, spillPrice site needs b q = some m → n < m ∨ n = m ∧ r ≤ q
  emits : ∃ is, c.out = b.out.append is ∧ is.length ≤ 1 ∧ ∀ i ∈ is, ∃ home, i = .sw (.pool r) home
  held : ∀ q, c.store.held q = if q = r then .empty else b.store.held q
  reserved : c.reserved = r :: b.reserved
  /-- What loses its last valid location is the result and not the other operand, or it has no home and is not
  read any more. -/
  lost : ∀ v e, b.store.Has v e → e.Located → (∀ f, c.store.Has v f → ¬ f.Located) →
    (needs.res = some e.name ∧ needs.other ≠ some e.name) ∨
      (e.home = none ∧ needs.other ≠ some e.name ∧ laterUse site b e.name = false)

/-- The search for a register has failed: where it ends nothing has been emitted, and registers and variables are
as before. -/
structure Exhausts (site : Site) (name : String) (needs : Needs) (b : Body) (error : Error) : Prop where
  kind : error.kind = .noRegister
  ends : ∃ d, residence? site name b = .ok (none, d) ∧ Still b d ∧ freeRegister? d = none ∧
    ((candidates d).mapM fun r => do pure (r, ← spillCost site needs r) : Step _) d = .ok (prices site needs d, d) ∧
    (cheapest? (prices site needs d)).bind Prod.snd = none

/-- Which register is taken for a name. -/
structure Chooses (site : Site) (name : String) (needs : Needs) (b : Body) : Prop where
  resident : ∀ v e q, b.store.Has v e → e.name = name → q ∈ e.regs →
    ∃ r, r ∈ e.regs ∧ (∀ p, p ∈ e.regs → r ≤ p) ∧
      acquire site name needs b = .ok (r, { b with reserved := r :: b.reserved })
  lowest : ¬ b.Bears name → (vacant b).Nonempty →
    ∃ r, r ∈ vacant b ∧ (∀ p, p ∈ vacant b → r ≤ p) ∧
      acquire site name needs b = .ok (r, { b.mention site.table name with reserved := r :: b.reserved })
  evicts : ¬ b.Bears name → vacant b = ∅ → ∀ r c, acquire site name needs b = .ok (r, c) → Evicts site needs b r c
  fails : (∃ error, acquire site name needs b = .error error) ↔
    ¬ b.Bears name ∧ ∀ r, b.Offers r → HoldsUnspillable site needs b r
  exhausts : ∀ error, acquire site name needs b = .error error → Exhausts site name needs b error

/-- A name in no register is looked for where it has been mentioned. -/
theorem residence?_absent (site : Site) (sound : b.store.Sound) (absent : ¬ b.Bears name) :
    residence? site name b = .ok (none, b.mention site.table name) := by
  obtain ⟨o, d, residence⟩ := residence?_runs site sound name
  obtain ⟨moves, _, held, inside, _⟩ : Moves site .still b [] d ∧ _ := residence?_moves sound residence
  obtain rfl := residence?_mention residence
  cases o with
  | none => exact residence
  | some r => exact absurd ⟨r, (moves.resides_iff sound (held r)).mp (inside r rfl)⟩ absent

theorem freeRegister?_eq_none : freeRegister? b = none ↔ vacant b = ∅ := by
  rw [freeRegister?, List.find?_eq_none, Finset.eq_empty_iff_forall_notMem]
  simp only [mem_candidates, mem_vacant, and_imp, not_and]

theorem freeRegister?_lowest (found : freeRegister? b = some r) : r ∈ vacant b ∧ ∀ q, q ∈ vacant b → r ≤ q := by
  obtain ⟨usable, unreserved⟩ := mem_candidates.mp (List.mem_of_find?_eq_some found)
  refine ⟨mem_vacant.mpr ⟨usable, unreserved, List.find?_some found⟩, fun q there => ?_⟩
  obtain ⟨usable, unreserved, free⟩ := mem_vacant.mp there
  exact find?_lowest (candidates_ascending b) found q (mem_candidates.mpr ⟨usable, unreserved⟩) free

/-- Where no register is vacant, one is emptied. -/
theorem acquire_of_occupied (site : Site) (needs : Needs) (sound : b.store.Sound) (absent : ¬ b.Bears name)
    (occupied : vacant b = ∅) : acquire site name needs b =
      (seize site name needs >>= fun r => do reserve r; pure r) (b.mention site.table name) := by
  have free := (b.mention_still site.table name).freeRegister?_eq.trans (freeRegister?_eq_none.mpr occupied)
  rw [acquire_of_absent needs (residence?_absent site sound absent)]
  have vacates : vacate site name needs (b.mention site.table name) = seize site name needs (b.mention site.table name) := by
    refine (bind_of_ok (x := get) rfl).trans ?_
    rw [free]
  change (vacate site name needs _ >>= _) = (seize site name needs _ >>= _)
  rw [vacates]

theorem Seized.evicts {is : List Asm.Instr} (seized : Seized site needs d r is c) (still : Still b d)
    (sound : b.store.Sound) (sound' : d.store.Sound) :
    Evicts site needs b r { c with reserved := r :: b.reserved } := by
  have offers (q : Reg) : b.Offers q ↔ q ∈ candidates d := by
    rw [still.candidates_eq, mem_candidates, Body.Offers]
  have price := still.spillPrice_eq sound site needs
  have least := seized.least
  simp only [price] at least
  refine ⟨(offers r).mpr seized.candidate, ?_, ⟨is, ?_, seized.spills.instrs⟩, fun q => ?_, rfl, ?_⟩
  · obtain ⟨n, priced, all⟩ := least
    exact ⟨n, priced, fun q offered => all q ((offers q).mp offered)⟩
  · rw [← still.out]
    exact seized.spills.out
  · rw [← still.held q]
    exact seized.spills.held sound' q
  · intro v e known located gone
    have safe : ¬ HoldsUnspillable site needs d r := fun holds => by
      obtain ⟨n, priced, _⟩ := seized.least
      rw [spillPrice_eq_none.mpr holds] at priced
      cases priced
    rcases seized.spills.lost sound' safe ⟨still.entries v e known.1, known.2⟩ located gone with overwritten | unread
    · exact .inl (by simpa [Needs.overwrites] using overwritten)
    · exact .inr (still.laterUse_eq site ▸ unread)

theorem acquire_resident (site : Site) (needs : Needs) (sound : b.store.Sound) (known : b.store.Has v e)
    (listed : q ∈ e.regs) : ∃ r, r ∈ e.regs ∧ (∀ p, p ∈ e.regs → r ≤ p) ∧
      acquire site e.name needs b = .ok (r, { b with reserved := r :: b.reserved }) := by
  obtain ⟨r, inside, least, residence⟩ := residence?_lowest sound known listed
  exact ⟨r, inside, least, bind_of_ok residence⟩

theorem acquire_lowest (site : Site) (needs : Needs) (sound : b.store.Sound) (absent : ¬ b.Bears name)
    (room : (vacant b).Nonempty) : ∃ r, r ∈ vacant b ∧ (∀ p, p ∈ vacant b → r ≤ p) ∧
      acquire site name needs b = .ok (r, { b.mention site.table name with reserved := r :: b.reserved }) := by
  have still := b.mention_still site.table name
  cases free : freeRegister? b with
  | none =>
    rw [freeRegister?_eq_none.mp free] at room
    exact absurd room Finset.not_nonempty_empty
  | some r =>
    obtain ⟨there, least⟩ := freeRegister?_lowest free
    refine ⟨r, there, least, ?_⟩
    rw [acquire_of_absent needs (residence?_absent site sound absent)]
    refine (bind_of_ok (vacate_of_free site name needs (still.freeRegister?_eq.trans free))).trans ?_
    rw [← still.reserved]
    rfl

theorem mention_sound (site : Site) (sound : b.store.Sound) (absent : ¬ b.Bears name) :
    (b.mention site.table name).store.Sound := by
  obtain ⟨moves, _⟩ : Moves site .still b [] (b.mention site.table name) ∧ _ :=
    residence?_moves sound (residence?_absent site sound absent)
  exact moves.sound sound

theorem acquire_evicts (sound : b.store.Sound) (absent : ¬ b.Bears name) (occupied : vacant b = ∅)
    (ran : acquire site name needs b = .ok (r, c)) : Evicts site needs b r c := by
  have still := b.mention_still site.table name
  have sound' := mention_sound site sound absent
  rw [acquire_of_occupied site needs sound absent occupied] at ran
  simp only [bind_ok, reserve_ok, pure_ok] at ran
  obtain ⟨q, f, seizes, _, _, rfl, rfl, rfl⟩ := ran
  obtain ⟨is, seized⟩ := seize_seized sound' seizes
  have reserved : f.reserved = b.reserved := by
    rw [← still.reserved]
    cases seized.spills <;> rfl
  rw [reserved]
  exact seized.evicts still sound sound'

theorem full_iff : Full site name needs b ↔ ¬ b.Bears name ∧ ∀ r, b.Offers r → HoldsUnspillable site needs b r := by
  simp only [Full, Barred, Body.Offers, loses_iff_holdsUnspillable, and_imp, or_iff_not_imp_left]

theorem acquire_fails_iff (site : Site) (sound : b.store.Sound) (name : String) (needs : Needs) :
    (∃ error, acquire site name needs b = .error error) ↔
      ¬ b.Bears name ∧ ∀ r, b.Offers r → HoldsUnspillable site needs b r := by
  have verdict := acquire_verdict site sound name needs
  rw [← full_iff]
  generalize acquire site name needs b = outcome at verdict
  cases verdict with
  | success room _ _ => simp [room]
  | exhausted full => simp [full]
  | unknown _ other => exact absurd trivial other

/-- If every register that may be taken holds something unspillable, none is vacant and none has a price. -/
theorem exhausts_of_unspillable {error : Error} (sound : b.store.Sound) (absent : ¬ b.Bears name)
    (all : ∀ r, b.Offers r → HoldsUnspillable site needs b r) (kind : error.kind = .noRegister) :
    Exhausts site name needs b error := by
  have still := b.mention_still site.table name
  have occupied : vacant b = ∅ := by
    refine Finset.eq_empty_iff_forall_notMem.mpr fun r there => ?_
    obtain ⟨usable, unreserved, free⟩ := mem_vacant.mp there
    obtain ⟨v, _, held, _⟩ := all r ⟨usable, unreserved⟩
    exact isFree_iff.mp free v held
  refine ⟨kind, b.mention site.table name, residence?_absent site sound absent, still, ?_,
    measured_eq site (mention_sound site sound absent) needs, ?_⟩
  · exact still.freeRegister?_eq.trans (freeRegister?_eq_none.mpr occupied)
  · cases found : cheapest? (prices site needs (b.mention site.table name)) with
    | none => rfl
    | some best =>
      obtain ⟨r, candidate, rfl⟩ := List.mem_map.mp (cheapest?_mem found)
      rw [still.candidates_eq, mem_candidates] at candidate
      rw [Option.bind_some, still.spillPrice_eq sound]
      exact spillPrice_eq_none.mpr (all r candidate)

/-- The search for a register. -/
theorem chooses_of_sound (site : Site) (sound : b.store.Sound) (name : String) (needs : Needs) :
    Chooses site name needs b := by
  refine ⟨?_, acquire_lowest site needs sound, fun absent occupied r c => acquire_evicts sound absent occupied,
    acquire_fails_iff site sound name needs, fun error failed => ?_⟩
  · rintro v e q known rfl listed
    exact acquire_resident site needs sound known listed
  · obtain ⟨absent, all⟩ := (acquire_fails_iff site sound name needs).mp ⟨error, failed⟩
    have verdict := acquire_verdict site sound name needs
    rw [failed] at verdict
    cases verdict with
    | unknown _ other => exact absurd trivial other
    | exhausted _ _ kind => exact exhausts_of_unspillable sound absent all kind

/-! In the course of an instruction -/

theorem forget_sound (sound : b.store.Sound) (ran : forget r b = .ok ((), c)) : c.store.Sound := by
  rcases forget_cases sound ran with ⟨rfl, _⟩ | ⟨rfl, _⟩
  · exact sound.clearRegister r
  · exact sound

/-- A state in the course of an instruction that starts from `b`. Operands and variables have been loaded,
registers taken and lines emitted; and of a call, arguments have been passed, variables written back, and temporaries
kept or forgotten. -/
inductive Midway (site : Site) (b : Body) : Body → Prop
  | start : Midway site b { b with reserved := [], returned := false }
  | emits {c : Body} (is : List Asm.Instr) : Midway site b c → Midway site b { c with out := c.out.append is }
  | fetches {c d : Body} {x : Operand} {needs : Needs} {scratch y : MachineReg} :
      Midway site b c → operand site x needs scratch c = .ok (y, d) → Midway site b d
  | loads {c d : Body} {name : String} {needs : Needs} {r : Reg} :
      Midway site b c → loaded site name needs c = .ok (r, d) → Midway site b d
  | acquires {c d : Body} {name : String} {needs : Needs} {r : Reg} :
      Midway site b c → acquire site name needs c = .ok (r, d) → Midway site b d
  | calls {c : Body} : Midway site b c → Midway site b { c with pending := [] }
  | passes {c d : Body} {i : Nat} {x : Operand} :
      Midway site b c → passArgument site i x c = .ok ((), d) → Midway site b d
  | writes {c d : Body} : Midway site b c → writeBack c = .ok ((), d) → Midway site b d
  | keeps {c d : Body} {r : Reg} : Midway site b c → keep site r c = .ok ((), d) → Midway site b d
  | forgets {c d : Body} {r : Reg} : Midway site b c → forget r c = .ok ((), d) → Midway site b d

theorem Midway.sound (midway : Midway site b c) (sound : b.store.Sound) : c.store.Sound := by
  induction midway with
  | start => exact sound
  | emits _ _ ih => exact ih
  | fetches _ ran ih =>
    rcases operand_brought ih ran with ⟨_, o, rfl⟩ | ⟨_, _, _, brought⟩
    · exact ih
    · obtain ⟨is, moves⟩ := brought.moves
      exact moves.sound ih
  | loads _ ran ih =>
    obtain ⟨is, moves⟩ := (loaded_brought ih ran).moves
    exact moves.sound ih
  | acquires _ ran ih =>
    obtain ⟨⟨is, moves⟩, _⟩ := acquire_moves ih ran
    exact moves.sound ih
  | calls _ ih => exact ih
  | passes _ ran ih =>
    obtain ⟨⟨is, passed⟩, _⟩ := passArgument_passed ih ran
    exact (passed.moves (Nat.lt_succ_self _)).sound ih
  | writes _ ran ih =>
    obtain ⟨⟨is, moves, _⟩, _⟩ : (∃ is, Moves site .still _ is _ ∧ _) ∧ _ := writeBack_moves ran
    exact moves.sound ih
  | keeps _ ran ih =>
    obtain ⟨is, keep⟩ := keep_ok ih ran
    exact keep.sound ih
  | forgets _ ran ih => exact forget_sound ih ran

/-- The procedure is the same in the course of an instruction. -/
theorem Midway.frame (midway : Midway site b c) (sound : b.store.Sound) : SameFrame b c := by
  induction midway with
  | start => exact ⟨rfl, rfl, rfl⟩
  | emits _ _ ih => exact ih.trans ⟨rfl, rfl, rfl⟩
  | fetches before ran ih =>
    refine ih.trans ?_
    rcases operand_brought (before.sound sound) ran with ⟨_, o, rfl⟩ | ⟨_, _, _, brought⟩
    · exact ⟨rfl, rfl, rfl⟩
    · obtain ⟨is, moves⟩ := brought.moves
      exact moves.sameProcedure.frame
  | loads before ran ih =>
    obtain ⟨is, moves⟩ := (loaded_brought (before.sound sound) ran).moves
    exact ih.trans moves.sameProcedure.frame
  | acquires before ran ih =>
    obtain ⟨⟨is, moves⟩, _⟩ := acquire_moves (before.sound sound) ran
    exact ih.trans moves.sameProcedure.frame
  | calls _ ih => exact ih.trans ⟨rfl, rfl, rfl⟩
  | passes before ran ih =>
    obtain ⟨⟨is, passed⟩, _⟩ := passArgument_passed (before.sound sound) ran
    exact ih.trans (passed.moves (Nat.lt_succ_self _)).sameProcedure.frame
  | writes _ ran ih =>
    obtain ⟨⟨is, moves, _⟩, _⟩ : (∃ is, Moves site .still _ is _ ∧ _) ∧ _ := writeBack_moves ran
    exact ih.trans moves.sameProcedure.frame
  | keeps before ran ih =>
    obtain ⟨is, keep⟩ := keep_ok (before.sound sound) ran
    exact ih.trans keep.frame
  | forgets before ran ih =>
    rcases forget_cases (before.sound sound) ran with ⟨rfl, _⟩ | ⟨rfl, _⟩
    · exact ih.trans ⟨rfl, rfl, rfl⟩
    · exact ih

/-- Which register is taken, in every state that the generator goes through inside of a procedure: the lowest one
that holds the variable of the name, else the lowest vacant one, else the one of least cost; and none exactly if each
that may be taken holds a variable that would be lost. -/
theorem stateAt_chooses (options : Options) (table : Scope) (code : List Quad) (n : Nat) (b c : Body)
    (name : String) (needs : Needs) (reached : stateAt options table code n = .ok (.inside b))
    (midway : Midway (siteAt options table code n) b c) : Chooses (siteAt options table code n) name needs c :=
  chooses_of_sound _ (midway.sound (stateAt_consistent reached).sound) name needs

/-- With every register in use, one is found for a pointer. -/
theorem stateAt_chooses_crowded :
    ∃ b, stateAt {} pointerTable (crowdedStore []) 8 = .ok (.inside b) ∧
      (∀ r, b.store.isUsable r = true → b.store.isFree r = false) ∧
      Chooses (siteAt {} pointerTable (crowdedStore []) 8) "p" ⟨none, none⟩
        { b with reserved := [], returned := false } := by
  have checked : insideWith (fun b => decide (∀ r, b.store.isUsable r = true → b.store.isFree r = false))
      (stateAt {} pointerTable (crowdedStore []) 8) = true := by
    decide +kernel
  obtain ⟨b, reached, full⟩ := exists_of_insideWith checked
  exact ⟨b, reached, of_decide_eq_true full, stateAt_chooses _ _ _ 8 b _ "p" ⟨none, none⟩ reached .start⟩

end Codegen

end ThreeAddress
