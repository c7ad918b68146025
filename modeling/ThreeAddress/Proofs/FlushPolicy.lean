import Mathlib.Data.Finset.Card
import Mathlib.Data.Fintype.Basic
import ThreeAddress.Proofs.Fetching
import ThreeAddress.Proofs.Mentions
import ThreeAddress.Proofs.Pairing

/-! Whether each instruction flushes decides nothing about which scalar code without calls compiles. A flush
stores variables that have a home, and these never keep a register from being taken. The temporaries that
do are in registers under both policies. -/
namespace ThreeAddress.Codegen

open Asm (Line Mem Listing)
open Descriptor (Store Var Entry)

variable {site : Site} {b c b' c' : Body} {name res : String} {needs : Needs} {r q : Reg}

/-! Two generators -/

/-- Two generators in the same procedure that have the same temporaries in registers, among those that are
needed. -/
structure Even (table : Scope) (needed : String → Prop) (lost : Option String) (b c : Body) : Prop where
  left : Calm table lost b
  right : Calm table lost c
  across : Abides b c
  temporaries : ∀ n, Temporary table b n → needed n → (c.Bears n ↔ b.Bears n)

/-- Both are inside of the same instruction, which uses the variables of the same names. -/
structure Level (table : Scope) (locked needed : String → Prop) (lost : Option String) (b c : Body) : Prop
    extends Even table needed lost b c where
  leftLocks : Locks locked b
  rightLocks : Locks locked c

namespace Level

variable {table : Scope} {locked needed : String → Prop} {lost : Option String}

theorem symm (level : Level table locked needed lost b c) : Level table locked needed lost c b where
  left := level.right
  right := level.left
  across := level.across.symm
  temporaries := fun n temporary isNeeded =>
    (level.temporaries n ((level.across.temporary_iff table n).mp temporary) isNeeded).symm
  leftLocks := level.rightLocks
  rightLocks := level.leftLocks

theorem narrow {more : String → Prop} (level : Level table locked needed lost b c)
    (fewer : ∀ n, more n → needed n) : Level table locked more lost b c :=
  { level with temporaries := fun n temporary isMore => level.temporaries n temporary (fewer n isMore) }

/-- What bars a register of one generator is in a register of the other one too, and bars it there. -/
theorem barred (level : Level site.table locked needed lost b c)
    (wanted : ∀ n, Wanted (laterUse site b) needs n → needed n) {n : String} (resides : Resides b r n)
    (barred : Barred site needs b r) : ∃ q, Resides c q n ∧ Barred site needs c q := by
  obtain ⟨m, resides', bars⟩ := (level.left.barred_iff level.leftLocks).mp barred
  obtain ⟨v, e, entry, listed, named⟩ := resides'
  obtain rfl : m = n := by
    rw [← named]
    exact resides.owned level.left.sound v e ((level.left.sound.listed r v).mpr ⟨e, entry, listed⟩) entry
  obtain ⟨q, there⟩ : c.Bears m := by
    rcases bars with isLocked | ⟨temporary, isWanted⟩
    · obtain ⟨q, _, resides⟩ := level.rightLocks.locked m isLocked
      exact ⟨q, resides⟩
    · exact (level.temporaries m temporary (wanted m isWanted)).mpr ⟨r, resides⟩
  refine ⟨q, there, (level.right.barred_iff level.rightLocks).mpr ⟨m, there, ?_⟩⟩
  rw [level.across.laterUse_eq, level.across.temporary_iff]
  exact bars

/-- A register bears one name, and a name is in one register, so that as many registers are barred for
one generator as for the other. -/
theorem barred_all (level : Level site.table locked needed lost b c)
    (wanted : ∀ n, Wanted (laterUse site b) needs n → needed n)
    (all : ∀ r, b.store.isUsable r = true → Barred site needs b r) (r : Reg)
    (usable : c.store.isUsable r = true) : Barred site needs c r := by
  have partner (p : Reg) (isUsable : b.store.isUsable p = true) :
      ∃ q n, Resides b p n ∧ Resides c q n ∧ Barred site needs c q := by
    obtain ⟨n, resides, _⟩ := (level.left.barred_iff level.leftLocks).mp (all p isUsable)
    obtain ⟨q, there, barred⟩ := level.barred wanted resides (all p isUsable)
    exact ⟨q, n, resides, there, barred⟩
  choose! f name here there barred using partner
  let usables : Finset Reg := Finset.univ.filter fun p => b.store.isUsable p = true
  have member (p : Reg) : p ∈ usables ↔ b.store.isUsable p = true := by simp [usables]
  have inside : usables.image f ⊆ usables := by
    intro q image
    obtain ⟨p, from', rfl⟩ := Finset.mem_image.mp image
    obtain ⟨v, e, entry, listed, _⟩ := there p ((member p).mp from')
    rw [member, ← level.across.usable]
    exact level.right.sound.usable _ v ((level.right.sound.listed _ v).mpr ⟨e, entry, listed⟩)
  have injective : Set.InjOn f usables := by
    intro p first q second same
    have first := (member p).mp first
    have second := (member q).mp second
    have names : name p = name q := by
      obtain ⟨v, e, entry, listed, named⟩ := there p first
      rw [same] at listed
      rw [← named]
      exact (there q second).owned level.right.sound v e
        ((level.right.sound.listed _ v).mpr ⟨e, entry, listed⟩) entry
    exact level.left.resides_unique (here p first) (names ▸ here q second)
  have onto : usables.image f = usables :=
    Finset.eq_of_subset_of_card_le inside (Finset.card_image_of_injOn injective).ge
  have here : r ∈ usables.image f := by
    rw [onto, member, ← level.across.usable]
    exact usable
  obtain ⟨p, from', rfl⟩ := Finset.mem_image.mp here
  exact barred p ((member p).mp from')

theorem full_of_full (level : Level site.table locked needed lost b c)
    (wanted : ∀ n, Wanted (laterUse site b) needs n → needed n) (full : Full site name needs b) :
    Full site name needs c := by
  refine ⟨fun bears => full.1 ?_, level.barred_all wanted full.2⟩
  obtain ⟨q, resides⟩ := bears
  obtain ⟨v, e, entry, listed, _⟩ := id resides
  have usable := level.right.sound.usable q v ((level.right.sound.listed q v).mpr ⟨e, entry, listed⟩)
  have back (n : String) (isWanted : Wanted (laterUse site c) needs n) : needed n :=
    wanted n (level.across.laterUse_eq site ▸ isWanted)
  obtain ⟨p, there, _⟩ := level.symm.barred back resides (level.barred_all wanted full.2 q usable)
  exact ⟨p, there⟩

/-- Both generators find a register, or neither does. -/
theorem full_iff (level : Level site.table locked needed lost b c)
    (wanted : ∀ n, Wanted (laterUse site b) needs n → needed n) :
    Full site name needs c ↔ Full site name needs b :=
  ⟨level.symm.full_of_full fun n isWanted => wanted n (level.across.laterUse_eq site ▸ isWanted),
    level.full_of_full wanted⟩

end Level

/-! Operands and results -/

theorem Verdict.agree {α β : Type} {full known full' known' : Prop} {V : α → Body → Prop} {W : β → Body → Prop}
    {x : Except Error (α × Body)} {y : Except Error (β × Body)} (left : Verdict full known V x)
    (right : Verdict full' known' W y) (fulls : full' ↔ full) (knowns : known' ↔ known) :
    Agree Alike (fun p q => V p.1 p.2 ∧ W q.1 q.2) x y := by
  cases left with
  | success notFull isKnown after =>
    cases right with
    | success _ _ after' => exact .ok ⟨after, after'⟩
    | exhausted isFull => exact absurd (fulls.mp isFull) notFull
    | unknown _ isUnknown => exact absurd (knowns.mpr isKnown) isUnknown
  | exhausted isFull contexts kind =>
    cases right with
    | success notFull => exact absurd (fulls.mpr isFull) notFull
    | exhausted _ contexts' kind' =>
      exact .error ⟨contexts'.trans contexts.symm, kind'.trans kind.symm, by rw [kind]; rfl⟩
    | unknown notFull => exact absurd (fulls.mpr isFull) notFull
  | unknown notFull isUnknown contexts kind =>
    cases right with
    | success _ isKnown => exact absurd (knowns.mp isKnown) isUnknown
    | exhausted isFull => exact absurd (fulls.mp isFull) notFull
    | unknown _ _ contexts' kind' =>
      exact .error ⟨contexts'.trans contexts.symm, kind'.trans kind.symm, by rw [kind]; rfl⟩

section Instruction

variable {locked needed more : String → Prop} {lost outer : Option String} {x : Operand} {y z : MachineReg}

theorem acquire_agree (level : Level site.table locked needed lost b c)
    (wanted : ∀ n, Wanted (laterUse site b) needs n → needed n) :
    Agree Alike (fun p q => Acquired site needs name b p.1 p.2 ∧ Acquired site needs name c q.1 q.2)
      (acquire site name needs b) (acquire site name needs c) :=
  (acquire_verdict site level.left.sound name needs).agree
    (acquire_verdict site level.right.sound name needs) (level.full_iff wanted) Iff.rfl

theorem Level.available_iff (level : Level site.table locked needed lost b c) (isNeeded : needed name) :
    Available site.table c name ↔ Available site.table b name := by
  by_cases temporary : Temporary site.table b name
  · have other := (level.across.temporary_iff _ name).mpr temporary
    simpa only [Available, temporary, other, not_true, false_or] using
      level.temporaries name temporary isNeeded
  · have other := mt (level.across.temporary_iff _ name).mp temporary
    exact iff_of_true (.inl other) (.inl temporary)

/-- Both generators have got the value of the operand. -/
abbrev BothFetched (site : Site) (needs : Needs) (x : Operand) (b c : Body) (p q : MachineReg × Body) : Prop :=
  Fetched site needs b x p.1 p.2 ∧ Fetched site needs c x q.1 q.2

theorem operand_agree {scratch : MachineReg} (strict : site.options.strict = true)
    (level : Level site.table locked needed lost b c)
    (wanted : ∀ n, Wanted (laterUse site b) needs n → needed n)
    (present : ∀ n, x.name? = some n → lost ≠ some n ∧ needed n) :
    Agree Alike (BothFetched site needs x b c) (operand site x needs scratch b)
      (operand site x needs scratch c) := by
  have there := fun n named => (present n named).1
  refine (operand_verdict strict level.left there).agree (operand_verdict strict level.right there) ?_ ?_
  · exact exists_congr fun n => and_congr_right fun _ => level.full_iff wanted
  · exact forall_congr' fun n => imp_congr_right fun named => level.available_iff (present n named).2

theorem copyTo_agree {i : Fin 8} (strict : site.options.strict = true)
    (level : Level site.table locked needed none b c) (isNeeded : ∀ n, x.name? = some n → needed n) :
    Agree Alike (fun p q => (∃ is, Moves site ⟨Reg.all, none, [i], 0⟩ b is p.2) ∧
        ∃ is, Moves site ⟨Reg.all, none, [i], 0⟩ c is q.2)
      (copyTo site (.arg i) x b) (copyTo site (.arg i) x c) := by
  refine (copyTo_verdict strict level.left (by simp)).agree (copyTo_verdict strict level.right (by simp))
    Iff.rfl ?_
  exact forall_congr' fun n => imp_congr_right fun named => level.available_iff (isNeeded n named)

/-- Both generators have got an operand into a register. -/
theorem Level.fetched (outer : Option String) (level : Level site.table locked needed lost b c)
    (left : Fetched site needs b x y b') (right : Fetched site needs c x z c')
    (before : lost = none ∨ lost = outer) (during : needs.lost? = none ∨ needs.lost? = outer)
    (less : ∀ n, more n → x.name? = some n ∨ needed n ∧ Wanted (laterUse site b) needs n) :
    Level site.table (fun n => locked n ∨ x.name? = some n) more outer b' c' where
  left := left.calm level.left before during
  right := right.calm level.right before during
  across := (left.abides level.left.sound).symm.trans (level.across.trans (right.abides level.right.sound))
  temporaries := by
    intro n temporary isMore
    have temporary := ((left.abides level.left.sound).temporary_iff _ n).mp temporary
    by_cases named : x.name? = some n
    · obtain ⟨r, _, here⟩ := (left.locks level.left.sound level.leftLocks).locked n (.inr named)
      obtain ⟨q, _, there⟩ := (right.locks level.right.sound level.rightLocks).locked n (.inr named)
      exact iff_of_true ⟨q, there⟩ ⟨r, here⟩
    · obtain ⟨isNeeded, wanted⟩ := (less n isMore).resolve_left named
      have wanted' : Wanted (laterUse site c) needs n := level.across.laterUse_eq site ▸ wanted
      rw [left.bears_iff level.left temporary wanted named,
        right.bears_iff level.right ((level.across.temporary_iff _ n).mpr temporary) wanted' named]
      exact level.temporaries n temporary isNeeded
  leftLocks := left.locks level.left.sound level.leftLocks
  rightLocks := right.locks level.right.sound level.rightLocks

/-- Both generators have taken a register for the result. -/
theorem Level.acquired (level : Level site.table locked needed lost b c)
    (left : Acquired site needs res b r b') (right : Acquired site needs res c q c')
    (before : lost = none ∨ lost = outer) (during : needs.lost? = none ∨ needs.lost? = outer)
    (less : ∀ n, more n → needed n ∧ Wanted (laterUse site b) needs n) :
    Even site.table more outer b' c' where
  left := left.calm level.left before during
  right := right.calm level.right before during
  across := (left.abides level.left.sound).symm.trans (level.across.trans (right.abides level.right.sound))
  temporaries := by
    intro n temporary isMore
    have temporary := ((left.abides level.left.sound).temporary_iff _ n).mp temporary
    obtain ⟨isNeeded, wanted⟩ := less n isMore
    have wanted' : Wanted (laterUse site c) needs n := level.across.laterUse_eq site ▸ wanted
    rw [left.bears_iff level.left temporary wanted,
      right.bears_iff level.right ((level.across.temporary_iff _ n).mpr temporary) wanted']
    exact level.temporaries n temporary isNeeded

/-- Two generators behind an instruction that have the same temporaries in registers, among those that are
used later. -/
abbrev Abreast (site : Site) (b c : Body) : Prop :=
  Even site.table (fun n => laterUse site b n = true) none b c

/-- The code behind the instruction uses the variable, which the instruction does not overwrite. -/
def Outlives (site : Site) (b : Body) (res n : String) : Prop := n ≠ res ∧ laterUse site b n = true

/-- Both generators put the result into the registers that they have taken for it. -/
theorem commit_agree {ks ls : List Asm.Instr} (even : Even site.table (Outlives site b res) (some res) b c)
    (ready : Ready b r res) (ready' : Ready c q res) (plain : ∀ k ∈ ks, isResult r k = true)
    (plain' : ∀ k ∈ ls, isResult q k = true) :
    Agree Alike (fun p q => Abreast site p.2 q.2) ((do emitAll ks; commit site r res : Step Unit) b)
      ((do emitAll ls; commit site q res : Step Unit) c) := by
  obtain ⟨b', ran, left⟩ := commit_finishes even.left ready plain
  obtain ⟨c', ran', right⟩ := commit_finishes even.right ready' plain'
  rw [ran, ran']
  refine .ok ⟨left.calm, right.calm, left.abides.symm.trans (even.across.trans right.abides), ?_⟩
  intro n temporary later
  have temporary := (left.abides.temporary_iff _ n).mp temporary
  rw [left.abides.laterUse_eq] at later
  rw [left.bears, right.bears]
  by_cases same : n = res
  · exact iff_of_true (.inl same) (.inl same)
  · exact or_congr_right (even.temporaries n temporary ⟨same, later⟩)

theorem wanted_iff {later : String → Bool} {other : Option String} {n : String} :
    Wanted later ⟨other, some res⟩ n ↔ (n = res → other = some n) ∧ (other = some n ∨ later n = true) := by
  simp only [Wanted, Needs.overwrites]
  grind

/-- Both generators take a register for the result and put it there. -/
theorem result_agree {k l : Reg → List Asm.Instr} {x y : Step Reg} {other : Option String}
    (level : Level site.table locked (Outlives site b res) lost b c)
    (taken : Agree Alike (fun p q => Acquired site ⟨other, some res⟩ res b p.1 p.2 ∧
      Acquired site ⟨other, some res⟩ res c q.1 q.2) (x b) (y c))
    (before : lost = none ∨ lost = some res) (plain : ∀ r, ∀ i ∈ k r, isResult r i = true)
    (plain' : ∀ r, ∀ i ∈ l r, isResult r i = true) :
    Agree Alike (fun p q => Abreast site p.2 q.2)
      ((x >>= fun r => do emitAll (k r); commit site r res : Step Unit) b)
      ((y >>= fun r => do emitAll (l r); commit site r res : Step Unit) c) := by
  refine bind_agree taken fun p q after => ?_
  obtain ⟨left, right⟩ := after
  have same := (left.abides level.left.sound).laterUse_eq site
  have even : Even site.table (Outlives site p.2 res) (some res) p.2 q.2 := by
    refine level.acquired left right before (Needs.lost?_cases _) fun n outlives => ?_
    rw [Outlives, same] at outlives
    exact ⟨outlives, wanted_iff.mpr ⟨fun isRes => absurd isRes outlives.1, .inr outlives.2⟩⟩
  exact commit_agree even (left.ready level.left.sound) (right.ready level.right.sound) (plain _) (plain' _)

/-- Both generators put the result into the registers where its old value is. -/
theorem Level.commits {ks ls : List Asm.Instr}
    (level : Level site.table locked (Outlives site b res) (some res) b c)
    (here : r ∈ b.reserved ∧ Resides b r res) (there : q ∈ c.reserved ∧ Resides c q res)
    (plain : ∀ k ∈ ks, isResult r k = true) (plain' : ∀ k ∈ ls, isResult q k = true) :
    Agree Alike (fun p q => Abreast site p.2 q.2) ((do emitAll ks; commit site r res : Step Unit) b)
      ((do emitAll ls; commit site q res : Step Unit) c) :=
  commit_agree level.toEven (here.2.ready level.left.sound here.1) (there.2.ready level.right.sound there.1)
    plain plain'

theorem Fetched.not_shared (fetched : Fetched site needs b x y c) (other : x.name? ≠ some res) :
    shared? x y res = none := by
  cases fetched with
  | literal => rfl
  | «variable» loaded =>
    refine if_neg fun same => other ?_
    rw [same]
    rfl

theorem Fetched.shared (fetched : Fetched site needs b x y c) (same : x.name? = some res) :
    ∃ r, shared? x y res = some r ∧ r ∈ c.reserved ∧ Resides c r res := by
  cases fetched with
  | literal => cases same
  | @«variable» name r c loaded =>
    cases Option.some.inj same
    exact ⟨r, if_pos rfl, by simp [loaded.reserved], loaded.resides⟩

/-! Instructions -/

theorem immediate_agree {value : Int} (level : Level site.table (fun _ => False) needed none b c)
    (later : ∀ n, laterUse site b n = true → needed n) :
    Agree Alike (fun p q => Abreast site p.2 q.2) (immediate site value res b) (immediate site value res c) := by
  refine result_agree (level.narrow fun n outlives => later n outlives.2) (acquire_agree level fun n wanted => ?_)
    (.inl rfl) (isResult_immediate · value) (isResult_immediate · value)
  exact later n ((wanted_iff.mp wanted).2.resolve_left (by simp))

/-- Both generators have got the only operand of an instruction. -/
theorem Level.only (level : Level site.table (fun _ => False) needed none b c)
    (later : ∀ n, laterUse site b n = true → needed n) (left : Fetched site ⟨none, some res⟩ b x y b')
    (right : Fetched site ⟨none, some res⟩ c x z c') :
    Level site.table (fun n => False ∨ x.name? = some n) (fun n => x.name? = some n ∨ Outlives site b' res n)
      (some res) b' c' := by
  refine level.fetched (some res) left right (.inl rfl) (.inr rfl) fun n more => more.imp_right fun outlives => ?_
  rw [Outlives, (left.abides level.left.sound).laterUse_eq] at outlives
  exact ⟨later n outlives.2, wanted_iff.mpr ⟨fun isRes => absurd isRes outlives.1, .inr outlives.2⟩⟩

theorem unary_agree {op : UnaryOp} (strict : site.options.strict = true)
    (level : Level site.table (fun _ => False) needed none b c)
    (later : ∀ n, laterUse site b n = true → needed n) (reads : ∀ n, x.name? = some n → needed n) :
    Agree Alike (fun p q => Abreast site p.2 q.2) (unary site op x res b) (unary site op x res c) := by
  refine bind_agree (operand_agree strict level (fun n wanted => ?_) fun n named => ⟨by simp, reads n named⟩)
    fun p p' after => ?_
  · exact later n ((wanted_iff.mp wanted).2.resolve_left (by simp))
  obtain ⟨left, right⟩ := after
  have level₁ := level.only later left right
  have level₂ := level₁.narrow fun n => .inr
  by_cases shared : x.name? = some res
  · obtain ⟨r, found, here⟩ := left.shared shared
    obtain ⟨q, found', there⟩ := right.shared shared
    simp only [found, found']
    exact level₂.commits here there (isResult_unary op r _) (isResult_unary op q _)
  · simp only [left.not_shared shared, right.not_shared shared]
    refine result_agree level₂ (within_agree (acquire_agree level₁ fun n wanted => ?_) .result) (.inr rfl)
      (isResult_unary op · _) (isResult_unary op · _)
    have wanted := wanted_iff.mp wanted
    unfold Outlives
    grind

theorem copy_agree {src : String} (strict : site.options.strict = true)
    (level : Level site.table (fun _ => False) needed none b c)
    (later : ∀ n, laterUse site b n = true → needed n) (reads : src ≠ res → needed src) :
    Agree Alike (fun p q => Abreast site p.2 q.2) (copy site src res b) (copy site src res c) := by
  by_cases same : src = res
  · simp only [copy, if_pos same]
    exact .ok (level.narrow later).toEven
  simp only [copy, if_neg same]
  refine bind_agree ((loaded_verdict strict level.left (by simp)).agree
    (loaded_verdict strict level.right (by simp)) (level.full_iff fun n wanted => ?_)
    (level.available_iff (reads same))) fun p p' after => ?_
  · exact later n ((wanted_iff.mp wanted).2.resolve_left (by simp))
  have level₁ := level.only later (.variable after.1) (.variable after.2)
  have moved (y r : Reg) : ∀ i ∈ [.mv (.pool r) (.pool y)], isResult r i = true := by simp [isResult]
  refine result_agree (k := fun r => [.mv (.pool r) (.pool p.1)]) (l := fun r => [.mv (.pool r) (.pool p'.1)])
    (level₁.narrow fun n => .inr) (within_agree (acquire_agree level₁ fun n wanted => ?_) .result) (.inr rfl)
    (moved p.1) (moved p'.1)
  have wanted := wanted_iff.mp wanted
  unfold Outlives
  grind [Operand.name?]

/-- The right operand is not lost while the left one is loaded, and the left one is in use while the right
one is. -/
theorem secondOperand_agree {left right : Operand} (scratch : MachineReg) (strict : site.options.strict = true)
    (level : Level site.table (fun _ => False) needed none b c)
    (later : ∀ n, laterUse site b n = true → needed n) (reads : ∀ n, right.name? = some n → needed n)
    (one : Fetched site ⟨right.name?, some res⟩ b left y b')
    (one' : Fetched site ⟨right.name?, some res⟩ c left z c') :
    Agree Alike (fun p q => BothFetched site ⟨left.name?, some res⟩ right b' c' p q ∧
        Level site.table (fun n => (False ∨ left.name? = some n) ∨ right.name? = some n)
          (Outlives site p.2 res) (some res) p.2 q.2)
      (operand site right ⟨left.name?, some res⟩ scratch b')
      (operand site right ⟨left.name?, some res⟩ scratch c') := by
  have level₁ : Level site.table (fun n => False ∨ left.name? = some n)
      (fun n => left.name? = some n ∨ right.name? = some n ∨ Outlives site b res n)
      (Needs.lost? ⟨right.name?, some res⟩) b' c' := by
    refine level.fetched _ one one' (.inl rfl) (.inr rfl) fun n more => more.imp_right fun more => ?_
    rw [wanted_iff]
    rcases more with named | ⟨other, used⟩
    · exact ⟨reads n named, fun _ => named, .inl named⟩
    · exact ⟨later n used, fun isRes => absurd isRes other, .inr used⟩
  have same₁ := (one.abides level.left.sound).laterUse_eq site
  have fetched : Agree Alike (BothFetched site ⟨left.name?, some res⟩ right b' c')
      (operand site right ⟨left.name?, some res⟩ scratch b')
      (operand site right ⟨left.name?, some res⟩ scratch c') := by
    refine operand_agree strict level₁ (fun n wanted => ?_) fun n named => ⟨?_, .inr (.inl named)⟩
    · have wanted := wanted_iff.mp wanted
      rw [same₁] at wanted
      unfold Outlives
      grind
    · unfold Needs.lost?
      split
      · simp
      · rename_i other
        exact fun lost => other (named.trans lost.symm)
  refine fetched.mono (fun _ _ alike => alike) fun p q both => ⟨both, ?_⟩
  refine level₁.fetched (some res) both.1 both.2 (Needs.lost?_cases _) (Needs.lost?_cases _) fun n outlives => ?_
  have same₂ := (both.1.abides level₁.left.sound).laterUse_eq site
  rw [Outlives, same₂] at outlives
  refine .inr ⟨.inr (.inr ⟨outlives.1, same₁ ▸ outlives.2⟩), wanted_iff.mpr ⟨?_, .inr outlives.2⟩⟩
  exact fun isRes => absurd isRes outlives.1

theorem binary_agree {op : BinaryOp} {left right : Operand} (strict : site.options.strict = true)
    (level : Level site.table (fun _ => False) needed none b c)
    (later : ∀ n, laterUse site b n = true → needed n)
    (reads : ∀ n, left.name? = some n ∨ right.name? = some n → needed n) :
    Agree Alike (fun p q => Abreast site p.2 q.2) (binary site op left right res b)
      (binary site op left right res c) := by
  have first : Agree Alike (BothFetched site ⟨right.name?, some res⟩ left b c)
      (operand site left ⟨right.name?, some res⟩ .scratchLeft b)
      (operand site left ⟨right.name?, some res⟩ .scratchLeft c) := by
    refine operand_agree strict level (fun n wanted => ?_) fun n named => ⟨by simp, reads n (.inl named)⟩
    exact (wanted_iff.mp wanted).2.elim (fun named => reads n (.inr named)) (later n)
  refine bind_agree (within_agree first .left) fun p p' fetched => ?_
  obtain ⟨one, one'⟩ := fetched
  have second := secondOperand_agree .scratchRight strict level later
    (fun n named => reads n (.inr named)) one one'
  refine bind_agree (within_agree second .right) fun s s' after => ?_
  obtain ⟨⟨two, two'⟩, level₂⟩ := after
  by_cases shared : left.name? = some res
  · obtain ⟨r, found, reserved, resides⟩ := one.shared shared
    obtain ⟨q, found', reserved', resides'⟩ := one'.shared shared
    simp only [found, found']
    exact level₂.commits (two.holds (one.sound level.left.sound) reserved resides)
      (two'.holds (one'.sound level.right.sound) reserved' resides')
      (isResult_binary op r _ _) (isResult_binary op q _ _)
  by_cases shared' : right.name? = some res
  · obtain ⟨r, found, here⟩ := two.shared shared'
    obtain ⟨q, found', there⟩ := two'.shared shared'
    simp only [one.not_shared shared, one'.not_shared shared, found, found']
    exact level₂.commits here there (isResult_binary op r _ _) (isResult_binary op q _ _)
  simp only [one.not_shared shared, one'.not_shared shared, two.not_shared shared', two'.not_shared shared']
  refine result_agree level₂ (within_agree (acquire_agree level₂ fun n wanted => ?_) .result) (.inr rfl)
    (isResult_binary op · _ _) (isResult_binary op · _ _)
  have wanted := wanted_iff.mp wanted
  unfold Outlives
  grind

/-- Output and registers in use make no difference between instructions. -/
theorem Even.quiet {table : Scope} (even : Even table needed lost b c) (o p : Output) (t u : Bool)
    (rs qs : List Reg) : Even table needed lost { b with out := o, returned := t, reserved := rs }
      { c with out := p, returned := u, reserved := qs } where
  left := ⟨even.left.sound, even.left.alone, even.left.kept, even.left.housed, even.left.unowned⟩
  right := ⟨even.right.sound, even.right.alone, even.right.kept, even.right.housed, even.right.unowned⟩
  across := ⟨even.across.function, even.across.pending, even.across.usable⟩
  temporaries := even.temporaries

/-- Behind a flush no name is in a register. -/
theorem flush_agree (left : Calm site.table none b) (right : Calm site.table none c) (across : Abides b c) :
    Agree Alike (fun p q => Even site.table (fun _ => True) none p.2 q.2) (flush b) (flush c) := by
  obtain ⟨b', is, ran, moves, empty⟩ := flush_clears site left.sound
  obtain ⟨c', js, ran', moves', empty'⟩ := flush_clears site right.sound
  rw [ran, ran']
  refine .ok ⟨left.moves moves (.inl rfl) (.inl rfl), right.moves moves' (.inl rfl) (.inl rfl), ?_, ?_⟩
  · exact (moves.abides left.sound).symm.trans (across.trans (moves'.abides right.sound))
  · exact fun n _ _ => iff_of_false (empty' n) (empty n)

theorem emitAll_agree {table : Scope} (even : Even table needed lost b c) (is js : List Asm.Instr) :
    Agree Alike (fun p q => Even table needed lost p.2 q.2) (emitAll is b) (emitAll js c) := by
  have ran := emitAll_ok (u := ()).mpr (Eq.refl { b with out := b.out.append is })
  have ran' := emitAll_ok (u := ()).mpr (Eq.refl { c with out := c.out.append js })
  rw [ran, ran']
  exact .ok (even.quiet _ _ b.returned c.returned b.reserved c.reserved)

theorem Even.narrow {table : Scope} (even : Even table needed lost b c) (fewer : ∀ n, more n → needed n) :
    Even table more lost b c :=
  { even with temporaries := fun n temporary isMore => even.temporaries n temporary (fewer n isMore) }

theorem branch_agree {target : String} {ifTrue : Bool} (strict : site.options.strict = true)
    (level : Level site.table (fun _ => False) needed none b c)
    (later : ∀ n, laterUse site b n = true → needed n) (reads : ∀ n, x.name? = some n → needed n) :
    Agree Alike (fun p q => Abreast site p.2 q.2) (branch site x ifTrue target b)
      (branch site x ifTrue target c) := by
  refine bind_agree (operand_agree strict level (fun n wanted => ?_) fun n named => ⟨by simp, reads n named⟩)
    fun p p' after => ?_
  · exact later n (wanted.2.resolve_left (by simp))
  have across := (after.1.abides level.left.sound).symm.trans
    (level.across.trans (after.2.abides level.right.sound))
  refine bind_agree (flush_agree (after.1.calm level.left (.inl rfl) (.inl rfl))
    (after.2.calm level.right (.inl rfl) (.inl rfl)) across) fun s s' even => ?_
  exact (emitAll_agree even _ _).mono (fun _ _ => id) fun _ _ even => even.narrow fun _ _ => trivial

theorem ret_agree {y : Option Operand} (strict : site.options.strict = true)
    (level : Level site.table (fun _ => False) needed none b c)
    (reads : ∀ x, y = some x → ∀ n, x.name? = some n → needed n) :
    Agree Alike (fun p q => Abreast site p.2 q.2) (ret site y b) (ret site y c) := by
  have finish {b c : Body} (left : Calm site.table none b) (right : Calm site.table none c) (across : Abides b c) :
      Agree Alike (fun p q => Abreast site p.2 q.2)
        ((do
          flush
          emitAll (epilogue site.options (← get).layout)
          modify fun b => { b with returned := true } : Step Unit) b)
        ((do
          flush
          emitAll (epilogue site.options (← get).layout)
          modify fun b => { b with returned := true } : Step Unit) c) := by
    refine bind_agree (flush_agree left right across) fun p q even => ?_
    refine reads_agree (bind_agree (emitAll_agree even _ _) fun s s' even => ?_)
    exact .ok ((even.narrow fun _ _ => trivial).quiet _ _ true true _ _)
  cases y with
  | none => exact finish level.left level.right level.across
  | some x =>
    refine bind_agree (copyTo_agree strict level (reads x rfl)) fun p q after => ?_
    obtain ⟨⟨is, left⟩, js, right⟩ := after
    refine finish (level.left.moves left (.inl rfl) (.inl rfl)) (level.right.moves right (.inl rfl) (.inl rfl)) ?_
    exact (left.abides level.left.sound).symm.trans (level.across.trans (right.abides level.right.sound))

end Instruction

/-! Policies -/

/-- The site of an instruction behind which there is a flush or not. -/
def Site.flushing (site : Site) (each : Bool) : Site :=
  { site with options := { site.options with flushEach := each } }

section Policies

variable {needed : String → Prop} (each each' : Bool)

theorem straight_agree {x : Step Unit} (agree : Agree Alike (fun p q => Abreast site p.2 q.2) (x b) (x c)) :
    Agree Alike (fun p q => Abreast site p.2 q.2) (straight (site.flushing each) x b)
      (straight (site.flushing each') x c) := by
  refine bind_agree agree fun p q abreast => ?_
  have left : Calm (site.flushing each).table none p.2 := abreast.left
  have right : Calm (site.flushing each').table none q.2 := abreast.right
  obtain ⟨b', ran, calm, abides, keeps⟩ := flushBehind_keeps left
  obtain ⟨c', ran', calm', abides', keeps'⟩ := flushBehind_keeps right
  change Agree Alike _ (flushBehind (site.flushing each) p.2) (flushBehind (site.flushing each') q.2)
  rw [ran, ran']
  refine .ok ⟨calm, calm', abides.symm.trans (abreast.across.trans abides'), fun n temporary later => ?_⟩
  have temporary := (abides.temporary_iff _ n).mp temporary
  rw [abides.laterUse_eq] at later
  rw [keeps n temporary, keeps' n ((abreast.across.temporary_iff _ n).mpr temporary)]
  exact abreast.temporaries n temporary later

theorem enqueue_agree {x : Operand} (level : Level site.table (fun _ => False) needed none b c)
    (later : ∀ n, laterUse site b n = true → needed n) (reads : ∀ n, x.name? = some n → needed n) :
    Agree Alike (fun p q => Abreast site p.2 q.2) (enqueue x b) (enqueue x c) := by
  have left := level.left
  have right := level.right
  refine .ok ⟨⟨left.sound, left.alone, left.kept, left.housed, left.unowned⟩,
    ⟨right.sound, right.alone, right.kept, right.housed, right.unowned⟩,
    ⟨level.across.function, congrArg (· ++ [x]) level.across.pending, level.across.usable⟩, ?_⟩
  intro n temporary used
  refine level.temporaries n temporary ?_
  simp only [laterUse, usedLater, List.any_append, List.any_cons, List.any_nil, Bool.or_false, Bool.or_eq_true,
    decide_eq_true_eq] at used
  rcases used with (waits | named) | ahead
  · exact later n (by simp only [laterUse, usedLater, waits, Bool.true_or])
  · exact reads n named
  · exact later n (by simp only [laterUse, usedLater, ahead, Bool.or_true])

/-- Under both policies an instruction fails alike, or leaves the generators abreast. -/
theorem lower_agree {x : Instr} (strict : site.options.strict = true) (simple : x.isSimple = true)
    (level : Level site.table (fun _ => False) needed none b c)
    (later : (∀ y, x ≠ .ret y) → ∀ n, laterUse site b n = true → needed n)
    (reads : ∀ n ∈ x.mentions, needed n) :
    Agree Alike (fun p q => Abreast site p.2 q.2) (lower (site.flushing each) x b)
      (lower (site.flushing each') x c) := by
  cases x with
  | binary op left right res =>
    refine straight_agree each each' (binary_agree strict level (later (by simp)) fun n named => reads n ?_)
    simpa [Instr.mentions, Instr.uses, Instr.waits, Operand.mem_names] using named
  | unary op x res =>
    refine straight_agree each each' (unary_agree strict level (later (by simp)) fun n named => reads n ?_)
    simpa [Instr.mentions, Instr.uses, Instr.waits, Operand.mem_names] using named
  | imm value res => exact straight_agree each each' (immediate_agree level (later (by simp)))
  | copy src res =>
    refine straight_agree each each' (copy_agree strict level (later (by simp)) fun other => reads src ?_)
    simp [Instr.mentions, Instr.uses, Instr.waits, other]
  | param x =>
    refine straight_agree each each' (enqueue_agree level (later (by simp)) fun n named => reads n ?_)
    simpa [Instr.mentions, Instr.uses, Instr.waits, Operand.mem_names] using named
  | branch cond ifTrue target =>
    refine branch_agree strict level (later (by simp)) fun n named => reads n ?_
    simpa [Instr.mentions, Instr.uses, Instr.waits, Operand.mem_names] using named
  | goto target =>
    refine bind_agree (flush_agree level.left level.right level.across) fun p q even => ?_
    exact (emitAll_agree even _ _).mono (fun _ _ => id) fun _ _ even => even.narrow fun _ _ => trivial
  | label l =>
    refine bind_agree (flush_agree level.left level.right level.across) fun p q even => ?_
    exact .ok ((even.narrow fun _ _ => trivial).quiet _ _ _ _ _ _)
  | ret y =>
    refine ret_agree strict level fun x given n named => reads n ?_
    simp [Instr.mentions, Instr.uses, Instr.waits, given, Operand.mem_names, named]
  | nop => exact .ok (level.narrow (later (by simp))).toEven
  | load | store | loadInd | storeInd | call => cases simple

/-- Two generators in front of code that have the same temporaries in registers, among those that the code
uses, or that are both outside of procedures. -/
abbrev Together (table : Scope) (ahead : List Quad) : State → State → Prop :=
  States (fun _ _ => True) fun b c => Even table (fun n => usedLater b.pending ahead n = true) none b c

/-- Two failures of one kind at the same place. -/
def SameFailure (e f : Error) : Prop := f.contexts = e.contexts ∧ f.kind = e.kind

theorem enter_agree (site : Site) (name : String) (o p : Output) (ahead : List Quad) :
    Agree SameFailure (fun b c => Together site.table ahead (.inside b) (.inside c))
      (enter (site.flushing each) name o) (enter (site.flushing each') name p) := by
  have start (f : Symbol) (l : Frame.Layout) : Together site.table ahead
      (.inside (.start site.options o f l)) (.inside (.start site.options p f l)) := by
    have calm (out : Output) : Calm site.table none (.start site.options out f l) := by
      have consistent := (start_fresh site.options out f l).consistent
      exact ⟨consistent.sound, consistent.alone, consistent.kept,
        start_housed site.options site.table out f l, rfl⟩
    exact .inside ⟨calm o, calm p, ⟨rfl, rfl, fun _ => rfl⟩, fun _ _ _ => Iff.rfl⟩
  unfold enter
  have declared (each : Bool) : (site.flushing each).table.lookup name = site.table.lookup name := rfl
  rw [declared, declared]
  cases site.table.lookup name with
  | none => exact .error ⟨rfl, rfl⟩
  | some f =>
    dsimp only
    split
    · exact .error ⟨rfl, rfl⟩
    · change Agree _ _ (Frame.find site.frames f.name >>= _) (Frame.find site.frames f.name >>= _)
      cases Frame.find site.frames f.name with
      | error e => exact .error ⟨rfl, rfl⟩
      | ok l =>
        change Agree _ _ (if totalWords f.locals > l.localWords then _ else _)
          (if totalWords f.locals > l.localWords then _ else _)
        split
        · exact .error ⟨rfl, rfl⟩
        · exact .ok (start f l)

theorem Alike.sameFailure {e f : Error} (alike : Alike e f) : SameFailure e f := ⟨alike.contexts, alike.kind⟩

/-- An instruction inside of a procedure. -/
theorem advance_together {q : Quad} {x : Instr} (strict : site.options.strict = true)
    (decodes : Instr.ofQuad q = .ok x) (simple : x.isSimple = true)
    (plain : ∀ l, x = .label l → l.boundary = .plain)
    (even : Even site.table (fun n => usedLater b.pending (q :: site.rest) n = true) none b c) :
    Agree SameFailure (Together site.table site.rest)
      (do return .inside (← b.advance (lower (site.flushing each) x)))
      (do return .inside (← c.advance (lower (site.flushing each') x))) := by
  have level : Level site.table (fun _ => False) (fun n => usedLater b.pending (q :: site.rest) n = true) none
      { b with reserved := [], returned := false } { c with reserved := [], returned := false } :=
    { even.quiet b.out c.out false false [] [] with
      leftLocks := ⟨by simp, by simp⟩
      rightLocks := ⟨by simp, by simp⟩ }
  have lowered := lower_agree each each' strict simple level
    (fun returns n later => usedLater_cons ⟨fun op => ?_, Instr.isBoundary_of_decoded decodes plain⟩ later)
    (fun n mentioned => usedLater_of_refers (Instr.refers_of_decoded decodes mentioned))
  · exact (advance_agree lowered).mono (fun _ _ alike => alike.sameFailure) fun _ _ together => together
  · obtain ⟨y, rfl⟩ := Instr.ofQuad_return decodes op
    exact returns y rfl

theorem step_agree (site : Site) {q : Quad} {x : Instr} {st st' : State} (strict : site.options.strict = true)
    (decodes : Instr.ofQuad q = .ok x) (simple : x.isSimple = true)
    (together : Together site.table (q :: site.rest) st st') :
    Agree SameFailure (Together site.table site.rest) (step (site.flushing each) x st)
      (step (site.flushing each') x st') := by
  cases together with
  | @idle o p =>
    cases x with
    | nop => exact .ok (.idle trivial)
    | label l =>
      change Agree _ _ (stepLabel _ l (.idle o)) (stepLabel _ l (.idle p))
      unfold stepLabel
      dsimp only
      split
      · exact .ok (.idle trivial)
      · exact (enter_agree each each' site _ o p site.rest).bind fun _ _ together => .ok together
      · exact .error ⟨rfl, rfl⟩
    | _ => exact .error ⟨rfl, rfl⟩
  | @inside b c even =>
    cases x with
    | nop =>
      refine .ok (.inside (even.narrow fun n later => usedLater_cons ⟨fun op => ?_, ?_⟩ later))
      · obtain ⟨y, other⟩ := Instr.ofQuad_return decodes op
        cases other
      · exact Instr.isBoundary_of_decoded decodes (by simp)
    | label l =>
      change Agree _ _ (stepLabel _ l (.inside b)) (stepLabel _ l (.inside c))
      unfold stepLabel
      dsimp only
      split
      · rename_i plain
        exact advance_together each each' strict decodes simple (fun m same => by cases same; exact plain) even
      · exact .error ⟨rfl, rfl⟩
      · rw [even.across.function]
        split
        · exact .error ⟨rfl, rfl⟩
        · obtain ⟨_, d, left⟩ := leave_runs (site.flushing each) b
          obtain ⟨_, e, right⟩ := leave_runs (site.flushing each') c
          rw [left, right]
          exact .ok (.idle trivial)
    | _ => exact advance_together each each' strict decodes simple (by simp) even

theorem runFrom_agree {options : Options} {table : Scope} {frames : List Frame.Layout} {start : Nat}
    {code : List Quad} {instrs : List Instr} {st st' : State} (strict : options.strict = true)
    (decoded : decodeFrom start code = .ok instrs) (simple : ∀ x ∈ instrs, x.isSimple = true)
    (together : Together table code st st') :
    Agree SameFailure (Together table [])
      (runFrom { options with flushEach := each } table frames start code instrs st)
      (runFrom { options with flushEach := each' } table frames start code instrs st') := by
  induction code generalizing start instrs st st' with
  | nil =>
    cases Except.ok.inj decoded
    exact .ok together
  | cons q code ih =>
    obtain ⟨_, x, xs, decodes, rest, rfl⟩ := decodeFrom_cons_ok.mp decoded
    obtain ⟨here, others⟩ := List.forall_mem_cons.mp simple
    have stepped := step_agree each each' ⟨options, table, frames, start, code⟩ strict decodes here together
    refine (stepped.inContext fun e f same => ?_).bind fun st st' together => ih rest others together
    exact ⟨congrArg (_ :: ·) same.1, same.2⟩

end Policies

/-- The flush policy does not change which code compiles, in strict mode, if the code has no arrays, pointers
and calls. If it fails, it fails at the same place and for the same kind of reason. -/
theorem compile_flush_policy (options : Options) (table : Scope) (code : List Quad)
    (strict : options.strict = true)
    (simple : ∀ instrs, decodeFrom 0 code = .ok instrs → ∀ x ∈ instrs, x.isSimple = true) :
    Agree SameFailure (fun _ _ => True) (compile { options with flushEach := false } table code)
      (compile { options with flushEach := true } table code) := by
  unfold compile
  cases decoded : decodeFrom 0 code with
  | error e => exact .error ⟨rfl, rfl⟩
  | ok instrs =>
    have plain := simple instrs decoded
    refine (runFrom_agree false true strict decoded plain (.idle trivial)).bind fun st st' together => ?_
    cases together with
    | idle => exact .ok trivial
    | inside even => exact .error ⟨rfl, rfl⟩

def crowdedTable : Scope := ⟨[{ name := "x" }, { name := "y" }, { name := "f", kind := .function }]⟩

/-- The temporaries are all in use at the same time. -/
def crowdedCode (names : List String) : List Quad :=
  Quad.numberedFrom 0 (
    { op := "label", arg1 := "func_f" } ::
    names.map (fun t => { op := "+", arg1 := "x", arg2 := "y", res := t }) ++
    names.map (fun t => { op := "-", arg1 := "x", arg2 := t, res := "x" }) ++
    [{ op := "return", arg1 := "x" }, { op := "label", arg1 := "end_f" }])

theorem simple_of_check {code : List Quad}
    (check : (decodeFrom 0 code).toOption.all (fun xs => xs.all Instr.isSimple) = true) :
    ∀ instrs, decodeFrom 0 code = .ok instrs → ∀ x ∈ instrs, x.isSimple = true := by
  intro instrs decoded
  rw [decoded] at check
  exact List.all_eq_true.mp check

/-- Five temporaries fit into the registers, under both policies, and six do not. -/
theorem compile_flush_policy_crowded :
    (∃ l m, compile { flushEach := false } crowdedTable (crowdedCode ["a", "b", "c", "d", "e"]) = .ok l ∧
      compile { flushEach := true } crowdedTable (crowdedCode ["a", "b", "c", "d", "e"]) = .ok m) ∧
    ∃ e f, compile { flushEach := false } crowdedTable (crowdedCode ["a", "b", "c", "d", "e", "g"]) = .error e ∧
      compile { flushEach := true } crowdedTable (crowdedCode ["a", "b", "c", "d", "e", "g"]) = .error f ∧
      SameFailure e f ∧ e.kind = .noRegister := by
  have five := compile_flush_policy {} crowdedTable (crowdedCode ["a", "b", "c", "d", "e"]) rfl
    (simple_of_check (by decide +kernel))
  have six := compile_flush_policy {} crowdedTable (crowdedCode ["a", "b", "c", "d", "e", "g"]) rfl
    (simple_of_check (by decide +kernel))
  have accepted : (compile { flushEach := false } crowdedTable
      (crowdedCode ["a", "b", "c", "d", "e"])).toOption.isSome = true := by decide +kernel
  have refused : ((compile { flushEach := false } crowdedTable
      (crowdedCode ["a", "b", "c", "d", "e", "g"])).map fun _ => ()).mapError Error.kind =
        .error .noRegister := by decide +kernel
  constructor
  · obtain ⟨l, compiled⟩ := Option.isSome_iff_exists.mp accepted
    have compiled := eq_ok_of_toOption compiled
    obtain ⟨m, compiled', _⟩ := five.succeeded compiled
    exact ⟨l, m, compiled, compiled'⟩
  · cases failed : compile { flushEach := false } crowdedTable (crowdedCode ["a", "b", "c", "d", "e", "g"]) with
    | ok l =>
      rw [failed] at refused
      cases refused
    | error e =>
      obtain ⟨f, failed', same⟩ := six.failed failed
      rw [failed] at refused
      exact ⟨e, f, rfl, failed', same, Except.error.inj refused⟩

end ThreeAddress.Codegen
