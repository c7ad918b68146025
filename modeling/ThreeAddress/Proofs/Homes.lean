import ThreeAddress.Proofs.Invariant

/-! Where variables live in memory. Declared scalars have words of the frame, global scalars words
of the data, and a temporary has a spare word while it owns one. The homes that the generator
notes are these words. -/
namespace ThreeAddress.Codegen

open Asm (Line Mem)
open Descriptor (Store Var Entry)

/-- What a name stands for in a procedure. -/
inductive Place
  | frame (name : String)
  | global (name : String)
  | temporary (name : String)
deriving DecidableEq, Repr

/-- The parameters and scalar locals of a function. -/
def scalarDecls (f : Symbol) : List Decl := f.params ++ f.locals.filter (!·.isArray)

def isGlobalScalar (table : Scope) (name : String) : Bool := (table.lookup name).any Symbol.isScalar

/-- A declared name hides a global variable, and a name that is neither is a temporary. -/
def placeOf (table : Scope) (f : Symbol) (name : String) : Place :=
  if name ∈ (scalarDecls f).map Decl.name then .frame name
  else if isGlobalScalar table name then .global name
  else .temporary name

/-- The offsets of the parameters and scalar locals. -/
def scalarPlaces (l : Frame.Layout) (f : Symbol) : List (Decl × Int64) :=
  placeParams l f.params ++ ((placeLocals l 0 f.locals).partition (·.1.isArray)).2

/-- A word that a procedure uses. -/
inductive Slot
  | declared (name : String)
  | global (name : String)
  | spare (i : Nat)
  | outgoing (i : Nat)
  | saved (k : Nat)
  | returnAddress
deriving DecidableEq, Repr

def Slot.word (f : Symbol) (l : Frame.Layout) : Slot → Mem
  | .declared name =>
    match (scalarPlaces l f).reverse.find? (·.1.name = name) with
    | some (_, offset) => frameWord offset
    | none => .global name
  | .global name => .global name
  | .spare i => frameWord (l.localOffset (totalWords f.locals + Int64.ofNat i))
  | .outgoing i => outgoingWord l i
  | .saved k => frameWord (l.saveOffset (Int64.ofNat k))
  | .returnAddress => frameWord l.returnOffset

/-- The slot of a name: a temporary has one if it owns a spare word. -/
inductive HasSlot (table : Scope) (f : Symbol) (owners : List String) : String → Slot → Prop
  | declared {name : String} :
      placeOf table f name = .frame name → HasSlot table f owners name (.declared name)
  | global {name : String} :
      placeOf table f name = .global name → HasSlot table f owners name (.global name)
  | spare {name : String} {i : Nat} :
      placeOf table f name = .temporary name → owners[i]? = some name →
      HasSlot table f owners name (.spare i)

/-- Two names have two slots. -/
theorem HasSlot.injective {table : Scope} {f : Symbol} {owners : List String} {m n : String} {s : Slot}
    (left : HasSlot table f owners m s) (right : HasSlot table f owners n s) : m = n := by
  cases left with
  | declared => cases right; rfl
  | global => cases right; rfl
  | spare _ owner =>
    cases right with
    | spare _ owner' => exact Option.some.inj (owner.symm.trans owner')

theorem placeOf_eq_frame {table : Scope} {f : Symbol} {name : String} :
    placeOf table f name = .frame name ↔ name ∈ (scalarDecls f).map Decl.name := by
  unfold placeOf
  split
  · simp [*]
  · split <;> simp [*]

theorem isGlobalScalar_of_place {table : Scope} {f : Symbol} {name : String}
    (global : placeOf table f name = .global name) : isGlobalScalar table name = true := by
  unfold placeOf at global
  split at global
  · contradiction
  · split at global
    · assumption
    · contradiction

theorem placeOf_cases (table : Scope) (f : Symbol) (name : String) :
    placeOf table f name = .frame name ∨ placeOf table f name = .global name ∨
      placeOf table f name = .temporary name := by
  unfold placeOf
  split
  · exact .inl rfl
  · split
    · exact .inr (.inl rfl)
    · exact .inr (.inr rfl)

/-- Two names stand for two things. -/
theorem placeOf_injective {table : Scope} {f : Symbol} {m n : String}
    (same : placeOf table f m = placeOf table f n) : m = n := by
  rcases placeOf_cases table f m with h | h | h <;> rcases placeOf_cases table f n with h' | h' | h' <;>
    rw [h, h'] at same <;> simp at same <;> exact same

/-- The homes that the generator notes are the words of the names, declared names keep theirs, and
only a temporary can be without one. -/
structure Housing (table : Scope) (f : Symbol) (l : Frame.Layout) (spare : SpareWords)
    (s : Store Mem) : Prop where
  first : spare.first = totalWords f.locals
  home : ∀ v e h, s.Has v e → e.home = some h →
    ∃ t, HasSlot table f spare.owners e.name t ∧ h = t.word f l
  declared : ∀ name ∈ (scalarDecls f).map Decl.name,
    ∃ v e, s.Has v e ∧ e.name = name ∧ e.home.isSome = true
  homeless : ∀ v e, s.Has v e → e.home = none → placeOf table f e.name = .temporary e.name
  owners : ∀ name ∈ spare.owners, placeOf table f name = .temporary name

abbrev Housed (table : Scope) (b : Body) : Prop :=
  Housing table b.function b.layout b.spare b.store

variable {site : Site} {limits : Limits} {b c : Body} {is : List Asm.Instr}

theorem Housed.undeclared_of_unknown {name : String} (housed : Housed site.table b)
    (unknown : b.store.lookup name = none) : name ∉ (scalarDecls b.function).map Decl.name := by
  intro declared
  obtain ⟨v, e, known, same, _⟩ := housed.declared name declared
  obtain ⟨w, found⟩ := Store.lookup_isSome known
  rw [same, unknown] at found
  contradiction

theorem Housed.global_of_unknown {name : String} {x : Symbol} (housed : Housed site.table b)
    (unknown : b.store.lookup name = none) (symbol : site.table.lookup name = some x)
    (scalar : x.isScalar = true) : placeOf site.table b.function name = .global name := by
  have global : isGlobalScalar site.table name = true := by simp [isGlobalScalar, symbol, scalar]
  rw [placeOf, if_neg (housed.undeclared_of_unknown unknown), if_pos global]

theorem Housed.temporary_of_unknown {name : String} (housed : Housed site.table b)
    (unknown : b.store.lookup name = none)
    (absent : ∀ x, site.table.lookup name = some x → x.isScalar = false) :
    placeOf site.table b.function name = .temporary name := by
  have local_ : isGlobalScalar site.table name = false := by
    unfold isGlobalScalar
    cases symbol : site.table.lookup name with
    | none => rfl
    | some x => exact absent x symbol
  rw [placeOf, if_neg (housed.undeclared_of_unknown unknown), if_neg (by simp [local_])]

theorem Move.housed (move : Move site limits b is c) (sound : b.store.Sound)
    (housed : Housed site.table b) : Housed site.table c := by
  have same := move.sameProcedure
  constructor
  · rw [same.spare, same.function]
    exact housed.first
  · intro v f h known place
    rw [same.spare, same.function, same.layout]
    rcases move.entry_before sound known.1 with
      ⟨e, before, change⟩ | ⟨_, unknown, home, _, _, x, symbol, scalar⟩
    · rw [change.name]
      exact housed.home v e h ⟨before, change.known known.2⟩ (change.home ▸ place)
    · refine ⟨.global f.name, .global ?_, ?_⟩
      · exact housed.global_of_unknown unknown symbol scalar
      · exact Option.some.inj (place.symm.trans home)
  · intro name declared
    rw [same.function] at declared
    obtain ⟨v, e, known, named, homed⟩ := housed.declared name declared
    obtain ⟨f, after, name', home⟩ := (Moves.one move).homed_stays sound known homed
    exact ⟨v, f, after, name'.trans named, home ▸ homed⟩
  · intro v f known none
    rw [same.function]
    rcases move.entry_before sound known.1 with ⟨e, before, change⟩ | ⟨_, _, home, _⟩
    · rw [change.name]
      exact housed.homeless v e ⟨before, change.known known.2⟩ (change.home ▸ none)
    · rw [none] at home
      contradiction
  · rw [same.spare, same.function]
    exact housed.owners

theorem Moves.housed (moves : Moves site limits b is c) (sound : b.store.Sound)
    (housed : Housed site.table b) : Housed site.table c := by
  induction moves with
  | refl => exact housed
  | step before move ih => exact move.housed (before.sound sound) ih

/-- A housed procedure stays housed if its words stay, the homes of its entries stay, and what is
new has no home and is a temporary. -/
theorem Housed.of_stays (housed : Housed site.table b) (same : SameProcedure b c)
    (before : ∀ v f, c.store.Has v f →
      (∃ e, b.store.Has v e ∧ e.name = f.name ∧ e.home = f.home) ∨
      (f.home = none ∧ placeOf site.table b.function f.name = .temporary f.name))
    (after : ∀ v e, b.store.Has v e → e.home.isSome = true →
      ∃ f, c.store.Has v f ∧ f.name = e.name ∧ f.home = e.home) : Housed site.table c := by
  constructor
  · rw [same.spare, same.function]
    exact housed.first
  · intro v f h known place
    rw [same.spare, same.function, same.layout]
    rcases before v f known with ⟨e, old, name, home⟩ | ⟨none, _⟩
    · rw [← name]
      exact housed.home v e h old (home.trans place)
    · rw [none] at place
      contradiction
  · intro name declared
    rw [same.function] at declared
    obtain ⟨v, e, known, named, homed⟩ := housed.declared name declared
    obtain ⟨f, new, name', home⟩ := after v e known homed
    exact ⟨v, f, new, name'.trans named, home ▸ homed⟩
  · intro v f known none
    rw [same.function]
    rcases before v f known with ⟨e, old, name, home⟩ | ⟨_, temporary⟩
    · rw [← name]
      exact housed.homeless v e old (home.trans none)
    · exact temporary
  · rw [same.spare, same.function]
    exact housed.owners

theorem Body.assign_sameProcedure (b : Body) (r : Reg) (name : String) :
    SameProcedure b (b.assign r name) := by
  constructor <;> simp only [Body.assign]

theorem Assigned.housed {res : String} {r : Reg} {ks : List Asm.Instr}
    (assigned : Assigned site res b r ks c) (sound : b.store.Sound) (housed : Housed site.table b) :
    Housed site.table c := by
  cases assigned with
  | @intro d plain ready moves held after absent =>
    have sound' := moves.sound sound
    have housed' := moves.housed sound housed
    refine housed'.of_stays (Body.assign_sameProcedure d r res) ?_ ?_
    · intro v f known
      rcases Body.assign_has sound' after.owned known with
        ⟨name, _, _, ⟨e, old, same, home⟩ | ⟨unknown, none⟩⟩ | ⟨_, old, _⟩
      · exact .inl ⟨e, old, same.trans name.symm, home⟩
      · refine .inr ⟨none, ?_⟩
        rw [name]
        exact housed'.temporary_of_unknown unknown (absent unknown)
      · exact .inl ⟨f, old, rfl, rfl⟩
    · exact fun v e known _ => Body.assign_stays sound' after.owned known

theorem Effect.housed {name : Option String} (effect : Effect site b name is c)
    (sound : b.store.Sound) (housed : Housed site.table b) : Housed site.table c := by
  cases effect with
  | nothing => exact housed
  | result moves assigned => exact assigned.housed (moves.sound sound) (moves.housed sound housed)
  | write moves => exact moves.housed sound housed
  | queue => exact housed

/-! Spare words -/

/-- A name other than the owner that is displaced keeps its spare word. -/
theorem Spared.owners {name : String} {i : Nat} (spared : Spared site b name i c) :
    c.spare.first = b.spare.first ∧ c.spare.owners[i]? = some name ∧
      (∀ j, j ≠ i → c.spare.owners[j]? = b.spare.owners[j]?) ∧
      ∀ n ∈ c.spare.owners, n = name ∨ n ∈ b.spare.owners := by
  have reused {owner : String} (found : b.spare.owners[i]? = some owner) :
      (b.spare.owners.set i name)[i]? = some name ∧
      (∀ j, j ≠ i → (b.spare.owners.set i name)[j]? = b.spare.owners[j]?) ∧
      ∀ n ∈ b.spare.owners.set i name, n = name ∨ n ∈ b.spare.owners := by
    refine ⟨?_, ?_, ?_⟩
    · have bound := (List.getElem?_eq_some_iff.mp found).1
      simp [bound]
    · intro j other
      simp [Ne.symm other]
    · exact fun n member => (List.mem_or_eq_of_mem_set member).symm
  cases spared with
  | reuse found => exact ⟨rfl, reused found⟩
  | stale found => exact ⟨rfl, reused found⟩
  | new =>
    refine ⟨rfl, by simp, fun j other => ?_, ?_⟩
    · by_cases less : j < b.spare.owners.length
      · simp [List.getElem?_append_left less]
      · have more : b.spare.owners.length < j := by omega
        simp only
        rw [List.getElem?_eq_none (by simp; omega), List.getElem?_eq_none (by omega)]
    · intro n member
      simp only [List.mem_append, List.mem_singleton] at member
      exact member.symm

/-- The owner that is displaced is not known any more. -/
theorem Spared.displaced {name : String} {i : Nat} {v : Var} {e : Entry Mem}
    (spared : Spared site b name i c) (sound : b.store.Sound) (known : c.store.Has v e) :
    b.spare.owners[i]? ≠ some e.name := by
  intro owner
  have before := spared.has known
  have lookup := sound.lookup_eq before
  cases spared with
  | @reuse i owner' w found unused lookup' =>
    cases Option.some.inj (owner.symm.trans found)
    cases Option.some.inj (lookup.symm.trans lookup')
    obtain ⟨entry, live⟩ := known
    rw [Store.get?_drop, if_pos rfl, before.1, Option.map_some] at entry
    have wrong : true = e.forgotten := congrArg Entry.forgotten (Option.some.inj entry)
    rw [live] at wrong
    contradiction
  | stale found unused absent =>
    cases Option.some.inj (owner.symm.trans found)
    rw [absent] at lookup
    contradiction
  | new =>
    rw [List.getElem?_eq_none (Nat.le_refl _)] at owner
    contradiction

theorem Spared.sameProcedure {name : String} {i : Nat} (spared : Spared site b name i c) :
    c.function = b.function ∧ c.layout = b.layout := by
  cases spared <;> exact ⟨rfl, rfl⟩

/-- A new owner of a spare word leaves the homes of the others as they are. -/
theorem Spared.housed {name : String} {i : Nat} (spared : Spared site b name i c) (sound : b.store.Sound)
    (temporary : placeOf site.table b.function name = .temporary name) (housed : Housed site.table b) :
    Housed site.table c := by
  obtain ⟨first, _, others, members⟩ := spared.owners
  obtain ⟨function, layout⟩ := spared.sameProcedure
  constructor
  · rw [first, function]
    exact housed.first
  · intro w f h known place
    rw [function, layout]
    obtain ⟨t, slot, word⟩ := housed.home w f h (spared.has known) place
    refine ⟨t, ?_, word⟩
    cases slot with
    | declared declared => exact .declared declared
    | global global => exact .global global
    | @spare j temporary owner =>
      refine .spare temporary ((others j fun same => ?_).trans owner)
      subst same
      exact spared.displaced sound known owner
  · intro name declared
    rw [function] at declared
    obtain ⟨w, f, has, named, homed⟩ := housed.declared name declared
    refine ⟨w, f, spared.stays has (.inr fun owner => ?_), named, homed⟩
    have wrong := housed.owners f.name owner
    rw [placeOf_eq_frame.mpr (named ▸ declared)] at wrong
    contradiction
  · intro w f known none
    rw [function]
    exact housed.homeless w f (spared.has known) none
  · intro name member
    rw [function]
    rcases members name member with rfl | member
    · exact temporary
    · exact housed.owners name member

theorem Keep.housed {r : Reg} (keep : Keep site r b is c) (sound : b.store.Sound)
    (housed : Housed site.table b) : Housed site.table c := by
  cases keep with
  | skip => exact housed
  | @register v e s held known homeless later saved usable empty =>
    have own : ∀ w, w ∈ b.store.held s → w = v := fun w member => absurd member (empty w)
    have entry (w : Var) : (b.store.bind s v).get? w =
        if w = v then some { e with regs := e.regs.insert s } else b.store.get? w := by
      rw [Store.get?_bind own, known.1]
      rfl
    refine housed.of_stays ⟨rfl, rfl, rfl, rfl, rfl, rfl⟩ ?_ ?_
    · rintro w f ⟨found, live⟩
      rw [entry] at found
      split at found
      · rename_i same
        cases Option.some.inj found
        exact .inl ⟨e, same ▸ known, rfl, rfl⟩
      · exact .inl ⟨f, ⟨found, live⟩, rfl, rfl⟩
    · intro w f has homed
      by_cases same : w = v
      · subst same
        cases Option.some.inj (known.1.symm.trans has.1)
        simp [homeless] at homed
      · exact ⟨f, ⟨by rw [entry, if_neg same]; exact has.1, has.2⟩, rfl, rfl⟩
  | @word v e i d held known homeless later spared =>
    have temporary := housed.homeless v e known homeless
    have stays := spared.stays known (.inl later)
    have housed' := spared.housed sound temporary housed
    obtain ⟨function, layout⟩ := spared.sameProcedure
    have entry (w : Var) : (d.store.declare e.name (some (spareWord b i))).2.get? w =
        if w = v then some { e with home := some (spareWord b i), homeValid := true }
        else d.store.get? w := by
      rw [Store.declare_of_known ((spared.sound sound).lookup_eq stays), Store.get?_modifyEntry, stays.1]
      rfl
    constructor
    · exact housed'.first
    · rintro w f h ⟨found, live⟩ place
      rw [entry] at found
      split at found
      · cases Option.some.inj found
        rw [← function] at temporary
        refine ⟨.spare i, .spare temporary spared.owners.2.1, ?_⟩
        rw [← Option.some.inj place, Slot.word, function, layout, ← housed.first]
        rfl
      · exact housed'.home w f h ⟨found, live⟩ place
    · intro name declared
      obtain ⟨w, f, has, named, homed⟩ := housed'.declared name declared
      refine ⟨w, f, ⟨?_, has.2⟩, named, homed⟩
      have other : w ≠ v := by
        rintro rfl
        cases Option.some.inj (stays.1.symm.trans has.1)
        simp [homeless] at homed
      rw [entry, if_neg other]
      exact has.1
    · rintro w f ⟨found, live⟩ none
      rw [entry] at found
      split at found
      · cases Option.some.inj found
        contradiction
      · exact housed'.homeless w f ⟨found, live⟩ none
    · exact housed'.owners

theorem KeepAll.housed {rs : List Reg} (keeps : KeepAll site rs b is c) (sound : b.store.Sound)
    (housed : Housed site.table b) : Housed site.table c := by
  induction keeps with
  | nil => exact housed
  | cons keep _ ih => exact ih (keep.sound sound) (keep.housed sound housed)

theorem KeepAll.sound {rs : List Reg} (keeps : KeepAll site rs b is c) (sound : b.store.Sound) :
    c.store.Sound := by
  induction keeps with
  | nil => exact sound
  | cons keep _ ih => exact ih (keep.sound sound)

theorem Answered.housed {res : Option String} (answered : Answered site b res is c)
    (sound : b.store.Sound) (housed : Housed site.table b) : Housed site.table c := by
  cases answered with
  | nothing => exact housed
  | result moves assigned => exact assigned.housed (moves.sound sound) (moves.housed sound housed)

theorem Called.housed {function : String} {res : Option String} {is js ks ls : List Asm.Instr}
    {b₁ b₂ b₃ b₄ : Body} (called : Called site function res b c is js ks ls b₁ b₂ b₃ b₄)
    (sound : b.store.Sound) (housed : Housed site.table b) : Housed site.table c := by
  have passes := called.passed.moves (Nat.le_refl _)
  have sound₁ := passes.sound sound
  have sound₂ := called.wrote.sound sound₁
  have sound₃ := called.kept.sound sound₂
  have housed₂ := called.wrote.housed sound₁ (passes.housed sound housed)
  have housed₄ := called.forgets.housed sound₃ (called.kept.housed sound₂ housed₂)
  exact called.answered.housed (called.forgets.sound sound₃) housed₄

/-! Whole runs -/

theorem lower_housed {x : Instr} (consistent : Consistent b.store) (housed : Housed site.table b)
    (ran : lower site x b = .ok ((), c)) : Housed site.table c := by
  have sound := consistent.sound
  by_cases straight : x.isStraight = true
  · obtain ⟨d, is, js, effect, moves⟩ := lower_effect straight sound ran
    exact moves.housed (effect.sound sound) (effect.housed sound housed)
  · cases x with
    | call function res =>
      obtain ⟨_, _, _, _, _, _, _, _, called, _⟩ := call_ok consistent ran
      exact called.housed sound housed
    | branch cond ifTrue target =>
      obtain ⟨y, is, js, b₁, b₂, located, flushed, rfl⟩ := branch_ok sound ran
      exact flushed.moves.housed (located.moves.sound sound) (located.moves.housed sound housed)
    | goto target =>
      obtain ⟨is, b₁, flushed, rfl⟩ := jump_ok sound ran
      exact flushed.moves.housed sound housed
    | ret x =>
      obtain ⟨is, js, b₁, b₂, returned, flushed, rfl⟩ := ret_ok sound ran
      exact flushed.moves.housed (returned.moves.sound sound) (returned.moves.housed sound housed)
    | label l =>
      obtain ⟨is, b₁, flushed, rfl⟩ := label_ok sound ran
      exact flushed.moves.housed sound housed
    | nop =>
      obtain ⟨_, rfl⟩ := pure_ok.mp ran
      exact housed
    | _ => simp [Instr.isStraight] at straight

/-- Every variable has the last word declared for its name, and every declared name is known. -/
structure Declared (places : List (Decl × Int64)) (s : Store Mem) : Prop where
  home : ∀ v e, s.Has v e → ∃ d offset,
    places.reverse.find? (·.1.name = e.name) = some (d, offset) ∧ e.home = some (frameWord offset)
  known : ∀ x ∈ places, ∃ v e, s.Has v e ∧ e.name = x.1.name

theorem Declared.declare {places : List (Decl × Int64)} {s : Store Mem} (declared : Declared places s)
    (sound : s.Sound) (d : Decl) (offset : Int64) :
    Declared (places ++ [(d, offset)]) (s.declare d.name (some (frameWord offset))).2 := by
  have fresh {v : Var} {e : Entry Mem} (other : e.name ≠ d.name) (known : s.Has v e) :
      ∃ d' offset', (places ++ [(d, offset)]).reverse.find? (·.1.name = e.name) = some (d', offset') ∧
        e.home = some (frameWord offset') := by
    obtain ⟨d', offset', found, home⟩ := declared.home v e known
    refine ⟨d', offset', ?_, home⟩
    simpa [List.find?_cons, Ne.symm other] using found
  have last {e : Entry Mem} (same : e.name = d.name) :
      (places ++ [(d, offset)]).reverse.find? (·.1.name = e.name) = some (d, offset) := by
    simp [same]
  cases lookup : s.lookup d.name with
  | some w =>
    obtain ⟨g, has, named⟩ := Store.lookup_spec lookup
    have entry (v : Var) : (s.declare d.name (some (frameWord offset))).2.get? v =
        if v = w then some { g with home := some (frameWord offset), homeValid := true }
        else s.get? v := by
      rw [Store.declare_of_known lookup, Store.get?_modifyEntry, has.1]
      rfl
    constructor
    · rintro v e ⟨found, live⟩
      rw [entry] at found
      split at found
      · cases Option.some.inj found
        exact ⟨d, offset, last named, rfl⟩
      · rename_i other
        refine fresh (fun same => other ?_) ⟨found, live⟩
        exact sound.unique v w e g ⟨found, live⟩ has (same.trans named.symm)
    · intro x member
      simp only [List.mem_append, List.mem_singleton] at member
      have reached : ∃ v e, s.Has v e ∧ e.name = x.1.name := by
        rcases member with member | rfl
        · exact declared.known x member
        · exact ⟨w, g, has, named⟩
      obtain ⟨v, e, known, same⟩ := reached
      by_cases var : v = w
      · subst var
        cases Option.some.inj (has.1.symm.trans known.1)
        exact ⟨v, { g with home := some (frameWord offset), homeValid := true },
          ⟨by rw [entry, if_pos rfl], known.2⟩, same⟩
      · exact ⟨v, e, ⟨by rw [entry, if_neg var]; exact known.1, known.2⟩, same⟩
  | none =>
    have entry := (Store.declare_of_new lookup (some (frameWord offset))).2
    constructor
    · rintro v e ⟨found, live⟩
      rw [entry] at found
      split at found
      · cases Option.some.inj found
        exact ⟨d, offset, last rfl, rfl⟩
      · refine fresh (fun same => ?_) ⟨found, live⟩
        obtain ⟨u, known⟩ := Store.lookup_isSome (s := s) ⟨found, live⟩
        rw [same, lookup] at known
        contradiction
    · intro x member
      simp only [List.mem_append, List.mem_singleton] at member
      rcases member with member | rfl
      · obtain ⟨v, e, known, same⟩ := declared.known x member
        refine ⟨v, e, ⟨?_, known.2⟩, same⟩
        rw [entry, if_neg (Nat.ne_of_lt (Store.get?_lt known.1))]
        exact known.1
      · exact ⟨_, _, ⟨by rw [entry, if_pos rfl], rfl⟩, rfl⟩

theorem Declared.declareAll {places : List (Decl × Int64)} {s : Store Mem}
    (declared : Declared places s) (fresh : Fresh s) (more : List (Decl × Int64)) :
    Declared (places ++ more) (Codegen.declareAll s more) := by
  induction more generalizing places s with
  | nil =>
    rw [List.append_nil]
    exact declared
  | cons x more ih =>
    have next := ih (declared.declare fresh.sound x.1 x.2) (fresh.declare _ _)
    rw [List.append_assoc] at next
    exact next

theorem map_placeLocals (l : Frame.Layout) (word : Int64) (ds : List Decl) :
    (placeLocals l word ds).map Prod.fst = ds := by
  induction ds generalizing word with
  | nil => rfl
  | cons d ds ih => simp [placeLocals, ih]

theorem map_scalarPlaces (l : Frame.Layout) (f : Symbol) :
    (scalarPlaces l f).map Prod.fst = scalarDecls f := by
  have params : (placeParams l f.params).map Prod.fst = f.params := by
    simp [placeParams, Function.comp_def]
  have scalars : ((placeLocals l 0 f.locals).partition (·.1.isArray)).2.map Prod.fst =
      f.locals.filter (!·.isArray) := by
    have filtered : ((placeLocals l 0 f.locals).map Prod.fst).filter (!·.isArray) = _ :=
      List.filter_map
    rw [map_placeLocals] at filtered
    rw [List.partition_eq_filter_filter, filtered]
    rfl
  rw [scalarPlaces, List.map_append, params, scalars, scalarDecls]

theorem start_declared (options : Options) (out : Output) (f : Symbol) (l : Frame.Layout) :
    Declared (scalarPlaces l f) (Body.start options out f l).store := by
  obtain ⟨entries, registers⟩ := usableRegisters_unused (f.name = options.entry) l
  have fresh : Fresh (usableRegisters .empty (f.name = options.entry) l) :=
    fresh_of_unused entries registers
  have none : Declared [] (usableRegisters .empty (f.name = options.entry) l) :=
    ⟨fun v e known => by simp [Store.Has, entries] at known, by simp⟩
  exact (none.declareAll fresh _).declareAll (fresh.declareAll _) _

theorem start_housed (options : Options) (table : Scope) (out : Output) (f : Symbol)
    (l : Frame.Layout) : Housed table (Body.start options out f l) := by
  have declared := start_declared options out f l
  have member {d : Decl} {offset : Int64} {name : String}
      (found : (scalarPlaces l f).reverse.find? (·.1.name = name) = some (d, offset)) :
      placeOf table f name = .frame name := by
    have inside := List.mem_of_find?_eq_some found
    have named := List.find?_some found
    rw [placeOf_eq_frame, ← map_scalarPlaces l f]
    simp only [List.mem_reverse, decide_eq_true_eq] at inside named
    simp only [List.map_map, List.mem_map, Function.comp_apply]
    exact ⟨_, inside, named⟩
  change Housing table f l { first := totalWords f.locals, limit := l.localWords } _
  constructor
  · rfl
  · intro v e h known place
    obtain ⟨d, offset, found, home⟩ := declared.home v e known
    refine ⟨.declared e.name, .declared (member found), ?_⟩
    rw [← Option.some.inj (home.symm.trans place)]
    simp only [Slot.word, found]
  · intro name inside
    rw [← map_scalarPlaces l f, List.map_map] at inside
    obtain ⟨x, placed, rfl⟩ := List.mem_map.mp inside
    obtain ⟨v, e, known, same⟩ := declared.known x placed
    obtain ⟨d, offset, _, home⟩ := declared.home v e known
    exact ⟨v, e, known, same, by simp [home]⟩
  · intro v e known none
    obtain ⟨d, offset, _, home⟩ := declared.home v e known
    rw [none] at home
    contradiction
  · intro name owner
    exact absurd owner List.not_mem_nil

/-- The generator is outside of procedures or the homes of its variables are their words. -/
def State.Housed (table : Scope) : State → Prop
  | .idle _ => True
  | .inside b => Codegen.Housed table b

theorem step_housed {x : Instr} {st st' : State} (consistent : st.Consistent)
    (housed : st.Housed site.table) (ran : step site x st = .ok st') : st'.Housed site.table := by
  cases step_stepped ran with
  | nop => exact housed
  | outside => trivial
  | entry boundary entered =>
    obtain ⟨f, l, entered⟩ := enter_ok entered
    rw [entered.start]
    exact start_housed _ _ _ f l
  | exit => trivial
  | @lower x b c real plain lowers =>
    exact lower_housed (b := { b with reserved := [], returned := false }) consistent housed lowers

theorem stateAt_housed {options : Options} {table : Scope} {code : List Quad} {n : Nat} {st : State}
    (reached : stateAt options table code n = .ok st) : st.Housed table := by
  have next (n : Nat) (x : Instr) (st st' : State) (before : st.Consistent ∧ st.Housed table)
      (steps : step (siteAt options table code n) x st = .ok st') :
      st'.Consistent ∧ st'.Housed table :=
    ⟨step_consistent before.1 steps, step_housed before.1 before.2 steps⟩
  exact (stateAt_induction (P := fun st => st.Consistent ∧ st.Housed table) ⟨trivial, trivial⟩ next
    reached).2

end ThreeAddress.Codegen
