import ThreeAddress.Proofs.Capacity
import ThreeAddress.Proofs.Simulation

/-! What the machine holds when a function is called and when it has returned. Before the jump the
arguments are where the callee reads them and what is needed later is safe from the callee; behind
it the machine agrees with the descriptors again. -/
namespace ThreeAddress.Codegen

open Asm (Line Mem)
open Descriptor (Store Var Entry)

variable {A : Activation} {site : Site} {limits : Limits} {b c : Body} {is js : List Asm.Instr}
variable {tracked : Place → Prop} {env : Env} {m m' : Machine}

/-! Arguments -/

/-- The argument that is passed at a position: in a register or in an outgoing slot. -/
def Activation.argument (A : Activation) (m : Machine) (i : Nat) : Option Word :=
  match MachineReg.argument? i with
  | some r => some (m.read r)
  | none => (A.slot (.outgoing i)).map m.mem

theorem argument_of_register {i : Nat} {j : Fin 8} (same : j.val = i) (few : i < 4) :
    A.argument m i = some (m.read (.arg j)) := by
  rcases argument?_cases i with ⟨k, position, _, register⟩ | ⟨many, _⟩
  · have same : k = j := Fin.ext (position.trans same.symm)
    rw [Activation.argument, register, same]
  · omega

theorem argument_of_slot {i : Nat} (many : 4 ≤ i) :
    A.argument m i = (A.slot (.outgoing i)).map m.mem := by
  rcases argument?_cases i with ⟨_, _, few, _⟩ | ⟨_, none⟩
  · omega
  · rw [Activation.argument, none]

/-- What touches neither the register nor the slot of an argument leaves it. -/
theorem Untouched.argument {i : Nat} (untouched : Untouched A limits m m')
    (outgoing : limits.outgoing = 0) (spared : ∀ j ∈ limits.free, j.val = i → 4 ≤ i)
    (bound : 4 ≤ i → i < A.outgoing) : A.argument m' i = A.argument m i := by
  by_cases few : i < 4
  · let j : Fin 8 := ⟨i, by omega⟩
    have same : j.val = i := rfl
    rw [argument_of_register same few, argument_of_register same few,
      untouched.args j fun free => absurd (spared j free same) (by omega)]
  · rw [argument_of_slot (by omega), argument_of_slot (by omega)]
    cases address : A.slot (.outgoing i) with
    | none => rfl
    | some a =>
      have fixed : (Slot.outgoing i).isWritable limits.outgoing = false := by
        simp [Slot.isWritable, outgoing]
      rw [Option.map_some, Option.map_some,
        untouched.words _ (outgoing_mem (bound (by omega))) fixed a address]

/-- An outgoing slot is stored. -/
theorem Agrees.pass {i : Nat} {y : MachineReg} (agrees : Agrees A tracked b.store env m)
    (suits : Suits A site b) (many : 4 ≤ i) (bound : i < A.outgoing) :
    ∃ m', m.execAll A.data [.sw y (outgoingWord b.layout i)] = some m' ∧
      Agrees A tracked b.store env m' ∧ A.argument m' i = some (m.read y) ∧
      ∀ k, k ≠ i → (4 ≤ k → k < A.outgoing) → A.argument m' k = A.argument m k := by
  obtain ⟨a, address, ran, agrees'⟩ := agrees.store_outgoing suits bound y
  refine ⟨m.store a (m.read y), ran, agrees', ?_, ?_⟩
  · rw [argument_of_slot many, address, Option.map_some, Machine.mem_store, if_pos rfl]
  · intro k other less
    by_cases few : k < 4
    · let j : Fin 8 := ⟨k, by omega⟩
      have same : j.val = k := rfl
      rw [argument_of_register same few, argument_of_register same few, Machine.read_store]
    · rw [argument_of_slot (by omega), argument_of_slot (by omega)]
      cases address' : A.slot (.outgoing k) with
      | none => rfl
      | some a' =>
        rw [Option.map_some, Option.map_some, Machine.mem_store, if_neg]
        rintro rfl
        have same :=
          suits.separate.apart _ (outgoing_mem (less (by omega))) _ (outgoing_mem bound)
            (address'.trans address.symm)
        exact other (Slot.outgoing.inj same)

theorem Passed.run {i : Nat} {x : Operand} (passed : Passed site b i x is c) (suits : Suits A site b)
    (bound : 4 ≤ i → i < A.outgoing) (range : x.isInRange = true)
    (quiet : c.out.warnings.size ≤ b.out.warnings.size)
    (track : ∀ name, x = .variable name → tracked (A.place name))
    (agrees : Agrees A tracked b.store env m) :
    ∃ m', m.execAll A.data is = some m' ∧ Agrees A tracked c.store env m' ∧
      A.argument m' i = some (x.eval A.place env) ∧
      ∀ k, k ≠ i → (4 ≤ k → k < A.outgoing) → A.argument m' k = A.argument m k := by
  cases passed with
  | @register c j x is same few copied =>
    obtain ⟨m', ran, agrees', untouched, value⟩ := copied.run suits range quiet track agrees
    refine ⟨m', ran, agrees', ?_, fun k other less => ?_⟩
    · rw [argument_of_register same few, value]
    · refine untouched.argument rfl (fun j' free position => ?_) less
      rw [List.mem_singleton.mp free] at position
      omega
  | @resident c name r many moves resides =>
    obtain ⟨agrees', _⟩ := moves.agrees suits (Nat.zero_le _) rfl agrees
    have suits' := moves.suits suits
    obtain ⟨m', ran, agrees'', argument, others⟩ := agrees'.pass (y := .pool r) suits' many (bound many)
    rw [moves.sameProcedure.layout] at ran
    refine ⟨m', ran, agrees'', ?_, others⟩
    rw [argument, agrees'.read suits'.sound resides (track name rfl)]
    rfl
  | @slot c d x is many moves copied =>
    obtain ⟨agrees₁, _⟩ := moves.agrees suits (Nat.zero_le _) rfl agrees
    have suits₁ := moves.suits suits
    have quiet' : d.out.warnings.size ≤ c.out.warnings.size := Nat.le_trans quiet moves.warnings.1
    obtain ⟨m₁, ran₁, agrees₂, untouched, value⟩ := copied.run suits₁ range quiet' track agrees₁
    have copies := copied.moves
    obtain ⟨m', ran, agrees', argument, others⟩ :=
      agrees₂.pass (y := .arg 7) (copies.suits suits₁) many (bound many)
    rw [copies.sameProcedure.layout, moves.sameProcedure.layout] at ran
    refine ⟨m', Machine.execAll_trans ran₁ ran, agrees', argument.trans (congrArg some value),
      fun k other less => (others k other less).trans ?_⟩
    refine untouched.argument rfl (fun j free position => ?_) less
    rw [List.mem_singleton.mp free] at position
    rw [← position]
    decide

/-- Every argument is passed, and passing the later ones leaves the earlier ones. -/
theorem PassedAll.run {i : Nat} {xs : List Operand} (passed : PassedAll site i xs b is c)
    (suits : Suits A site b) (bound : ∀ k, 4 ≤ k → k < i + xs.length → k < A.outgoing)
    (range : ∀ x ∈ xs, x.isInRange = true) (quiet : c.out.warnings.size ≤ b.out.warnings.size)
    (track : ∀ name, .variable name ∈ xs → tracked (A.place name))
    (agrees : Agrees A tracked b.store env m) :
    ∃ m', m.execAll A.data is = some m' ∧ Agrees A tracked c.store env m' ∧
      (∀ k x, xs[k]? = some x → A.argument m' (i + k) = some (x.eval A.place env)) ∧
      ∀ k, k < i → A.argument m' k = A.argument m k := by
  induction passed generalizing m with
  | nil i b => exact ⟨m, rfl, agrees, by simp, fun _ _ => rfl⟩
  | @cons i x xs b c d is js first rest ih =>
    rw [List.length_cons] at bound
    have moves := first.moves (Nat.lt_succ_self i)
    have more := rest.moves (Nat.le_refl _)
    obtain ⟨m₁, ran₁, agrees₁, argument, others⟩ := first.run suits (fun many => bound i many (by omega))
      (range x (by simp)) (Nat.le_trans more.warnings.1 quiet) (fun name same => track name (by simp [same])) agrees
    obtain ⟨m', ran, agrees', arguments, earlier⟩ := ih (moves.suits suits)
      (fun k many less => bound k many (by omega))
      (fun y member => range y (by simp [member])) (Nat.le_trans quiet moves.warnings.1)
      (fun name member => track name (by simp [member])) agrees₁
    refine ⟨m', Machine.execAll_trans ran₁ ran, agrees', fun k y found => ?_, fun k less => ?_⟩
    · cases k with
      | zero =>
        cases Option.some.inj found
        rw [Nat.add_zero, earlier i (Nat.lt_succ_self i), argument]
      | succ k =>
        rw [← arguments k y found]
        congr 1
        omega
    · rw [earlier k (by omega), others k (by omega) fun many => bound k many (by omega)]

/-! Temporaries -/

theorem Keep.owners_length {r : Reg} (keep : Keep site r b is c) :
    b.spare.owners.length ≤ c.spare.owners.length := by
  cases keep with
  | skip => exact Nat.le_refl _
  | register => exact Nat.le_refl _
  | word _ _ _ _ spared => cases spared <;> simp

theorem KeepAll.owners_length {rs : List Reg} (keeps : KeepAll site rs b is c) :
    b.spare.owners.length ≤ c.spare.owners.length := by
  induction keeps with
  | nil => exact Nat.le_refl _
  | cons keep _ ih => exact Nat.le_trans keep.owners_length ih

theorem Spared.suits {name : String} {i : Nat} (spared : Spared site b name i c) (suits : Suits A site b)
    (temporary : A.place name = .temporary name) (few : c.spare.owners.length ≤ A.spares) :
    Suits A site c := by
  obtain ⟨function, layout⟩ := spared.sameProcedure
  rw [suits.place] at temporary
  exact ⟨suits.table, suits.function.trans function.symm, suits.layout.trans layout.symm, few,
    spared.sound suits.sound, spared.housed suits.sound temporary suits.housed, suits.separate⟩

/-- The owner that a spare word loses is no global variable. -/
theorem Spared.agrees {name : String} {i : Nat} (spared : Spared site b name i c)
    (suits : Suits A site b) (agrees : Agrees A tracked b.store env m) : Agrees A tracked c.store env m := by
  refine agrees.weaken (fun v f known => ?_) (fun v e name known global => ?_)
  · exact ⟨f, spared.has known, rfl, rfl, fun _ inside => inside, fun valid => valid⟩
  · refine ⟨v, e, spared.stays known (.inr fun owner => ?_), global⟩
    have temporary := suits.housed.owners e.name owner
    rw [← suits.place, global] at temporary
    contradiction

theorem Keep.suits {r : Reg} (keep : Keep site r b is c) (suits : Suits A site b)
    (few : c.spare.owners.length ≤ A.spares) : Suits A site c := by
  obtain ⟨function, layout, _⟩ := keep.frame
  exact ⟨suits.table, suits.function.trans function.symm, suits.layout.trans layout.symm, few,
    keep.sound suits.sound, keep.housed suits.sound suits.housed, suits.separate⟩

/-- A temporary is moved to a register that nothing uses or stored in a spare word. -/
theorem Keep.run {r : Reg} (keep : Keep site r b is c) (suits : Suits A site b)
    (few : c.spare.owners.length ≤ A.spares) (agrees : Agrees A tracked b.store env m) :
    ∃ m', m.execAll A.data is = some m' ∧ Agrees A tracked c.store env m' ∧ Untouched A {} m m' := by
  have sound := suits.sound
  have value {v : Var} {e : Entry Mem} (held : v ∈ b.store.held r) (known : b.store.Has v e)
      (track : tracked (A.place e.name)) : m.read (.pool r) = env (A.place e.name) := by
    obtain ⟨f, found, inside⟩ := (sound.listed r v).mp held
    cases Option.some.inj (known.1.symm.trans found)
    exact agrees.regs v e r known track inside
  cases keep with
  | skip => exact ⟨m, rfl, agrees, .refl _ m⟩
  | @register v e s held known homeless later saved usable empty =>
    have others (q : MachineReg) (other : q ≠ .pool s) :
        (m.write (.pool s) (m.read (.pool r))).read q = m.read q := Machine.read_write_ne other _
    refine ⟨m.write (.pool s) (m.read (.pool r)), rfl, ?_, ?_⟩
    · exact agrees.bind sound known empty (value held known)
    · exact ⟨by simp, fun i _ => others _ (by simp), others _ (by simp), others _ (by simp),
        fun _ _ _ _ _ => rfl⟩
  | @word v e i d held known homeless later spared =>
    have temporary : A.place e.name = .temporary e.name := by
      rw [suits.place]
      exact suits.housed.homeless v e known homeless
    have suits' := spared.suits suits temporary few
    have agrees' := spared.agrees suits agrees
    have stays := spared.stays known (.inl later)
    have owner := spared.owners.2.1
    have member : Slot.spare i ∈ A.slots := HasSlot.mem (.spare temporary owner) few
    obtain ⟨a, address⟩ := Option.isSome_iff_exists.mp (suits.separate.addressable _ member)
    have word : A.address (spareWord b i) = some a := by
      rw [← address, Activation.slot, Slot.word, suits.function, suits.layout, ← suits.housed.first]
      rfl
    have stored := agrees'.store_slot (x := m.read (.pool r)) suits' member address ?_ ?_
    · refine ⟨m.store a (m.read (.pool r)), ?_, ?_, suits'.untouched member address rfl m _⟩
      · exact Machine.execAll_one (by simp [Machine.exec, address?_of_address agrees.sp word])
      · refine stored.rehome (f := { e with home := some (spareWord b i), homeValid := true }) stays
          (fun w => ?_) known.2 rfl (fun _ inside => inside) fun track h a' place address' => ?_
        · rw [Store.declare_of_known (suits'.sound.lookup_eq stays), Store.get?_modifyEntry, stays.1]
          rfl
        · cases Option.some.inj place
          cases Option.some.inj (word.symm.trans address')
          rw [Machine.mem_store, if_pos rfl]
          exact value held known track
    · -- the word belongs to the temporary in the register and to no other name
      intro w f has slot track
      cases slot with
      | spare _ owner' =>
        have same : f.name = e.name := Option.some.inj (owner'.symm.trans owner)
        rw [same] at track ⊢
        exact value held known track
    · intro name same
      contradiction

theorem KeepAll.run {rs : List Reg} (keeps : KeepAll site rs b is c) (suits : Suits A site b)
    (few : c.spare.owners.length ≤ A.spares) (agrees : Agrees A tracked b.store env m) :
    ∃ m', m.execAll A.data is = some m' ∧ Agrees A tracked c.store env m' ∧ Untouched A {} m m' ∧
      Suits A site c := by
  induction keeps generalizing m with
  | nil => exact ⟨m, rfl, agrees, .refl _ m, suits⟩
  | cons keep rest ih =>
    have few' := Nat.le_trans rest.owners_length few
    obtain ⟨m₁, ran₁, agrees₁, untouched₁⟩ := keep.run suits few' agrees
    obtain ⟨m', ran, agrees', untouched, suits'⟩ := ih (keep.suits suits few') few agrees₁
    exact ⟨m', Machine.execAll_trans ran₁ ran, agrees', untouched₁.trans untouched, suits'⟩

/-! The callee -/

/-- The word is in the caller's frame and is no outgoing slot. -/
def Slot.isKept : Slot → Bool
  | .global _ => false
  | .outgoing _ => false
  | _ => true

/-- A callee keeps the stack pointer, the saved registers and the frame of its caller but for the
outgoing slots. -/
structure Activation.Respects (A : Activation) (m m' : Machine) : Prop where
  sp : m'.read .sp = m.read .sp
  saved : ∀ r ∈ Reg.savedRegs, m'.read (.pool r) = m.read (.pool r)
  words : ∀ s ∈ A.slots, s.isKept = true → ∀ a, A.slot s = some a → m'.mem a = m.mem a

/-- The values after a call: those of global variables are in memory, and the result is returned. -/
def Activation.returns (A : Activation) (res : Option String) (m : Machine) (env : Env) : Env :=
  let reread : Env
    | .global name => (A.slot (.global name)).elim (env (.global name)) m.mem
    | p => env p
  match res with
  | none => reread
  | some res => reread.set (A.place res) (m.read .result)

/-- What a call forgets is all that the callee may have changed. -/
theorem Agrees.returned {d : Body} (agrees : Agrees A tracked c.store env m)
    (forgotten : Forgotten Reg.all d c) (suits : Suits A site c) (respects : A.Respects m m') :
    Agrees A tracked c.store (A.returns none m' env) m' := by
  refine ⟨respects.sp.trans agrees.sp, ?_, ?_, ?_⟩
  · intro v e r known track inside
    have held := (suits.sound.listed r v).mpr ⟨e, known.1, inside⟩
    obtain ⟨saved, homeless⟩ := forgotten.left r (mem_regs_all r) v e held known.1
    have temporary := suits.housed.homeless v e known homeless
    rw [← suits.place] at temporary
    rw [respects.saved r (savedRegs_of_not_temporary r saved), agrees.regs v e r known track inside,
      temporary]
    rfl
  · intro v e h a known track valid home address
    obtain ⟨s, a', slot, member, at_, found⟩ := suits.home known home
    cases Option.some.inj (address.symm.trans found)
    have value := agrees.homes v e h a known track valid home address
    cases slot with
    | declared place =>
      change A.place e.name = _ at place
      rw [respects.words _ member rfl a at_, value, place]
      rfl
    | global place =>
      change A.place e.name = _ at place
      rw [place]
      simp [Activation.returns, at_]
    | spare place =>
      change A.place e.name = _ at place
      rw [respects.words _ member rfl a at_, value, place]
      rfl
  · intro name a track global unknown address
    simp [Activation.returns, address]

theorem Answered.run {res : Option String} (answered : Answered site b res is c) (suits : Suits A site b)
    (agrees : Agrees A tracked b.store (A.returns none m env) m) :
    ∃ m', m.execAll A.data is = some m' ∧
      Agrees A (fun p => res.map A.place = some p ∨ tracked p) c.store (A.returns res m env) m' := by
  cases answered with
  | nothing => exact ⟨m, rfl, agrees.narrow fun p track => track.resolve_left (by simp)⟩
  | @result c d res r is moves assigned =>
    obtain ⟨m₁, ran, agrees₁, untouched⟩ :=
      moves.run suits (Nat.zero_le _) (moves.isEncodable rfl) agrees
    have copies : m₁.execAll A.data [.mv (.pool r) .result] =
        some (m₁.write (.pool r) (m.read .result)) := by
      rw [← show m₁.read .result = m.read .result from untouched.args 0 (by simp)]
      rfl
    obtain ⟨agrees₂, _⟩ := assigned.run (moves.suits suits) agrees₁ copies
    rw [Machine.read_write_pool] at agrees₂
    refine ⟨_, Machine.execAll_trans ran copies, agrees₂.narrow fun p track => ?_⟩
    exact track.imp_left fun same => (Option.some.inj same).symm

section Called

variable {function : String} {res : Option String} {ks ls : List Asm.Instr} {b₁ b₂ b₃ b₄ : Body}

/-- The code before the jump passes the arguments and keeps the machine in agreement. Only the arguments that
are not in registers need their slots. -/
theorem Called.delivers (called : Called site function res b c is js ks ls b₁ b₂ b₃ b₄)
    (suits : Suits A site b) (bound : ∀ i, 4 ≤ i → i < b.pending.length → i < A.outgoing)
    (few : b₃.spare.owners.length ≤ A.spares) (range : ∀ x ∈ b.pending, x.isInRange = true)
    (quiet : b₁.out.warnings.size ≤ b.out.warnings.size)
    (track : ∀ name, .variable name ∈ b.pending → tracked (A.place name))
    (agrees : Agrees A tracked b.store env m) :
    ∃ m₁, m.execAll A.data (is ++ js ++ ks) = some m₁ ∧ Agrees A tracked b₃.store env m₁ ∧
      Suits A site b₃ ∧ ∀ i x, b.pending[i]? = some x → A.argument m₁ i = some (x.eval A.place env) := by
  have start : Suits A site { b with pending := [] } := suits.update _ _ _ _
  obtain ⟨m₁, ran₁, agrees₁, arguments, _⟩ :=
    called.passed.run start (by simpa using bound) range quiet track agrees
  have suits₁ := (called.passed.moves (Nat.le_refl _)).suits start
  obtain ⟨m₂, ran₂, agrees₂, untouched₂⟩ :=
    called.wrote.run suits₁ (Nat.zero_le _) (called.wrote.isEncodable rfl) agrees₁
  have suits₂ := called.wrote.suits suits₁
  obtain ⟨m₃, ran₃, agrees₃, untouched₃, suits₃⟩ := called.kept.run suits₂ few agrees₂
  refine ⟨m₃, Machine.execAll_trans (Machine.execAll_trans ran₁ ran₂) ran₃, agrees₃, suits₃,
    fun i x found => ?_⟩
  have slot (many : 4 ≤ i) : i < A.outgoing := bound i many (List.getElem?_eq_some_iff.mp found).1
  rw [untouched₃.argument rfl (by simp) slot, untouched₂.argument rfl (by simp [Limits.still]) slot,
    ← arguments i x found, Nat.zero_add]

/-- The frame has a slot for every argument. -/
theorem Called.prepare (called : Called site function res b c is js ks ls b₁ b₂ b₃ b₄)
    (suits : Suits A site b) (bound : b.pending.length ≤ A.outgoing)
    (few : b₃.spare.owners.length ≤ A.spares) (range : ∀ x ∈ b.pending, x.isInRange = true)
    (quiet : b₁.out.warnings.size ≤ b.out.warnings.size)
    (track : ∀ name, .variable name ∈ b.pending → tracked (A.place name))
    (agrees : Agrees A tracked b.store env m) :
    ∃ m₁, m.execAll A.data (is ++ js ++ ks) = some m₁ ∧ Agrees A tracked b₃.store env m₁ ∧
      Suits A site b₃ ∧ ∀ i x, b.pending[i]? = some x → A.argument m₁ i = some (x.eval A.place env) :=
  called.delivers suits (fun _ _ less => Nat.lt_of_lt_of_le less bound) few range quiet track agrees

/-- The code behind the jump takes the machine that the callee leaves to agreement. -/
theorem Called.resume (called : Called site function res b c is js ks ls b₁ b₂ b₃ b₄)
    (suits : Suits A site b₃) (agrees : Agrees A tracked b₃.store env m) (respects : A.Respects m m') :
    ∃ m'', m'.execAll A.data (delay site.options 1 ++ ls) = some m'' ∧
      Agrees A (fun p => res.map A.place = some p ∨ tracked p) c.store (A.returns res m' env) m'' := by
  have jumped : Suits A site { b₃ with out := b₃.out.append (jumpInstrs site.options (.jal function)) } :=
    suits.update _ _ _ _
  obtain ⟨agrees₄, _⟩ := called.forgets.agrees jumped (Nat.zero_le _) rfl agrees
  have suits₄ := called.forgets.suits jumped
  have returned := agrees₄.returned called.forgotten suits₄ respects
  obtain ⟨m'', ran, agrees'⟩ := called.answered.run suits₄ returned
  exact ⟨m'', Machine.execAll_trans (execAll_delay ..) ran, agrees'⟩

theorem Called.warnings (called : Called site function res b c is js ks ls b₁ b₂ b₃ b₄) :
    b₁.out.warnings.size ≤ c.out.warnings.size := by
  have keeps {rs : List Reg} {b c : Body} {is : List Asm.Instr} (keeps : KeepAll site rs b is c) :
      c.out.warnings = b.out.warnings := by
    induction keeps with
    | nil => rfl
    | cons keep _ ih =>
      rw [ih]
      cases keep with
      | skip => rfl
      | register => exact Output.warnings_append ..
      | word _ _ _ _ spared => exact (Output.warnings_append ..).trans (congrArg _ spared.out)
  have first := called.wrote.warnings.1
  have second := keeps called.kept
  have third := called.forgets.warnings.1
  rw [Output.warnings_append, second] at third
  have last : b₄.out.warnings.size ≤ c.out.warnings.size := by
    cases called.answered with
    | nothing => exact Nat.le_refl _
    | result moves assigned =>
      cases assigned with
      | intro _ _ more =>
        have less := more.warnings.1
        rw [Output.warnings_append] at less
        exact Nat.le_trans moves.warnings.1 less
  omega

/-- A variable that is needed later has a home or is in a saved register when the function is called. -/
theorem Called.secures (called : Called site function res b c is js ks ls b₁ b₂ b₃ b₄)
    (consistent : Consistent b.store) {v : Var} {e : Entry Mem} (known : b.store.Has v e)
    (later : usedLater [] site.rest e.name = true) :
    ∃ f, b₃.store.Has v f ∧ f.name = e.name ∧ Secured f := by
  have passes := called.passed.moves (Nat.le_refl _)
  have consistent₁ : Consistent b₁.store := passes.consistent rfl consistent
  have consistent₂ := called.wrote.consistent rfl consistent₁
  have located {s : Store Mem} {e : Entry Mem} (consistent : Consistent s) (known : s.Has v e) :
      e.home.isSome = true ∨ ∃ r, r ∈ e.regs :=
    (consistent.kept v e known (by simp)).imp_left (consistent.sound.housed v e known.1)
  obtain ⟨f, first, name⟩ := passes.stays mem_regs_all consistent.sound known (located consistent known)
  obtain ⟨g, second, name'⟩ :=
    called.wrote.stays mem_regs_all consistent₁.sound first (located consistent₁ first)
  have needed : laterUse site b₂ g.name = true := by
    rw [laterUse, show b₂.pending = [] from called.before.pending, name', name]
    exact later
  have waits : Secured g ∨ ∃ r ∈ Reg.temporaries, r ∈ g.regs := by
    rcases located consistent₂ second with homed | ⟨r, listed⟩
    · exact .inl (.inl homed)
    · by_cases saved : r ∈ Reg.savedRegs
      · exact .inl (.inr ⟨r, saved, listed⟩)
      · have cases : ∀ r : Reg, r ∉ Reg.savedRegs → r ∈ Reg.temporaries := by decide
        exact .inr ⟨r, cases r saved, listed⟩
  obtain ⟨f', third, same, secured⟩ := called.kept.secures consistent₂.sound second needed waits
  exact ⟨f', third, same.trans (name'.trans name), secured⟩

/-- A variable that is needed later is known when the call is over. -/
theorem Called.retains (called : Called site function res b c is js ks ls b₁ b₂ b₃ b₄)
    (consistent : Consistent b.store) {v : Var} {e : Entry Mem} (known : b.store.Has v e)
    (later : usedLater [] site.rest e.name = true) (other : res ≠ some e.name) :
    ∃ f, c.store.Has v f ∧ f.name = e.name := by
  obtain ⟨f, stays, name, secured⟩ := called.secures consistent known later
  obtain ⟨g, after, same, _⟩ := called.forgotten.retained v f stays secured
  have pending : b₄.pending = [] :=
    called.forgets.sameProcedure.pending.trans (called.kept.pending.trans called.before.pending)
  obtain ⟨f', last, same'⟩ := called.retained v g after
    (by rw [laterUse, pending, same, name]; exact later) (by rwa [same, name])
  exact ⟨f', last, same'.trans (same.trans name)⟩

theorem Called.settled (called : Called site function res b c is js ks ls b₁ b₂ b₃ b₄)
    (consistent : Consistent b.store) : Settled b₃.store := by
  have consistent₁ : Consistent b₁.store :=
    (called.passed.moves (Nat.le_refl _)).consistent rfl consistent
  have consistent₂ := called.wrote.consistent rfl consistent₁
  exact (called.kept.invariants consistent₂.sound consistent₂.kept (called.clean.settled consistent₂.kept)
    temporaries_isTemporary (by decide) (keeping_of_alone consistent₂.alone _)).2.2.1

end Called

/-! The whole call -/

/-- The procedure with all the words of its frame. -/
def Activation.whole (data : Data) (table : Scope) (f : Symbol) (l : Frame.Layout) (sp : Word) :
    Activation where
  data := data
  table := table
  function := f
  layout := l
  sp := sp
  spares := (l.localWords.toInt - (totalWords f.locals).toInt).toNat
  outgoing := l.outgoingSlots.toInt.toNat

/-- A saved register that the procedure may use holds the value of the variable. -/
def SavedIn (s : Store Mem) (f : Entry Mem) (w : Word) (m : Machine) : Prop :=
  ∃ r ∈ Reg.savedRegs, s.isUsable r = true ∧ r ∈ f.regs ∧ m.read (.pool r) = w

/-- A spare word is the valid home of the variable and of no other, and holds its value. -/
def Activation.SparedIn (A : Activation) (s : Store Mem) (v : Var) (f : Entry Mem) (w : Word)
    (m : Machine) : Prop :=
  ∃ i a, i < A.spares ∧ f.home = some ((Slot.spare i).word A.function A.layout) ∧ f.homeValid = true ∧
    A.slot (.spare i) = some a ∧ m.mem a = w ∧ ∀ u g, s.Has u g → g.home = f.home → u = v

/-- What the machine holds when a function is called: the arguments where it reads them, the values
of variables in their homes, and temporaries that are needed later where it does not change them. -/
structure Activation.Ready (A : Activation) (args : List Operand) (needed : String → Bool)
    (s t : Store Mem) (env : Env) (m : Machine) : Prop where
  arguments : ∀ i x, args[i]? = some x → A.argument m i = some (x.eval A.place env)
  homes : ∀ v e h a, t.Has v e → e.home = some h → A.address h = some a → m.mem a = env (A.place e.name)
  words : ∀ name slot a, HasSlot A.table A.function [] name slot → A.slot slot = some a →
    m.mem a = env (A.place name)
  temporaries : ∀ v e, s.Has v e → e.home = none → needed e.name = true → ∃ f, t.Has v f ∧
    f.name = e.name ∧ (SavedIn t f (env (A.place e.name)) m ∨ A.SparedIn t v f (env (A.place e.name)) m)

/-- A needed temporary that is secured is in a saved register or in a spare word of its own. -/
theorem Suits.secured {v : Var} {f : Entry Mem} (suits : Suits A site b) (settled : Settled b.store)
    (agrees : Agrees A everything b.store env m) (known : b.store.Has v f) (secured : Secured f)
    (temporary : A.place f.name = .temporary f.name) :
    SavedIn b.store f (env (A.place f.name)) m ∨ A.SparedIn b.store v f (env (A.place f.name)) m := by
  rcases secured with homed | ⟨r, saved, listed⟩
  · obtain ⟨h, home⟩ := Option.isSome_iff_exists.mp homed
    have valid := settled v f known homed
    obtain ⟨s, slot, word⟩ := suits.housed.home v f h known home
    obtain ⟨t, a, slot', member, address, found⟩ := suits.home known home
    rw [← suits.table, ← suits.function] at slot
    rw [← suits.function, ← suits.layout] at word
    have value := agrees.homes v f h a known trivial valid home found
    cases slot with
    | declared other => cases temporary.symm.trans other
    | global other => cases temporary.symm.trans other
    | @spare i _ owner =>
      have less : i < A.spares :=
        Nat.lt_of_lt_of_le (List.getElem?_eq_some_iff.mp owner).1 suits.few
      have at_ : A.slot (.spare i) = some a := by
        rw [Activation.slot, ← word]
        exact found
      refine .inr ⟨i, a, less, home.trans (congrArg some word), valid, at_, value, fun u g other same => ?_⟩
      -- a variable with the same home has its word at the same address, so it has the same word
      obtain ⟨t', a', slot₂, member₂, address₂, found₂⟩ := suits.home other (same.trans home)
      cases Option.some.inj (found.symm.trans found₂)
      have equal := suits.separate.apart t' member₂ t member (address₂.trans address.symm)
      subst equal
      exact suits.sound.unique u v g f other known (slot₂.injective slot')
  · have held := (suits.sound.listed r v).mpr ⟨f, known.1, listed⟩
    exact .inl ⟨r, saved, suits.sound.usable r v held, listed, agrees.regs v f r known trivial listed⟩

theorem Called.ready {function : String} {res : Option String} {ks ls : List Asm.Instr}
    {b₁ b₂ b₃ b₄ : Body} (called : Called site function res b c is js ks ls b₁ b₂ b₃ b₄)
    (consistent : Consistent b.store) (suits : Suits A site b) (suits' : Suits A site b₃)
    (agrees : Agrees A everything b₃.store env m)
    (arguments : ∀ i x, b.pending[i]? = some x → A.argument m i = some (x.eval A.place env)) :
    A.Ready b.pending (usedLater [] site.rest) b.store b₃.store env m := by
  have settled := called.settled consistent
  refine ⟨arguments, fun v e h a known home address => ?_, fun name slot a owns address => ?_,
    fun v e known homeless later => ?_⟩
  · exact agrees.homes v e h a known trivial (settled v e known (by simp [home])) home address
  · cases owns with
    | declared place =>
      change A.place name = _ at place
      rw [place]
      exact agrees.frame_word suits' settled trivial place address
    | global place =>
      change A.place name = _ at place
      rw [place]
      exact agrees.global_word suits' settled trivial (isGlobalScalar_of_place place) address
    | spare _ owner => simp at owner
  · obtain ⟨f, stays, name, secured⟩ := called.secures consistent known later
    have temporary := suits.housed.homeless v e known homeless
    rw [← suits.place, ← name] at temporary
    refine ⟨f, stays, name, ?_⟩
    rw [← name]
    exact suits'.secured settled agrees stays secured temporary

section Runs

variable {options : Options} {table : Scope} {code : List Quad} {instrs : List Instr} {n : Nat}
variable {data : Data} {sp : Word} {function : String} {res : Option String}

/-- The frame has a word for every owner. -/
theorem Roomy.few {f : Symbol} {l : Frame.Layout} {spare : SpareWords} (roomy : Roomy spare)
    (first : spare.first = totalWords f.locals) (limit : spare.limit = l.localWords) :
    spare.owners.length ≤ (Activation.whole data table f l sp).spares := by
  unfold Roomy at roomy
  rw [first, limit] at roomy
  simp only [Activation.whole]
  omega

theorem stateAt_suits (decoded : decodeFrom 0 code = .ok instrs) (bound : n ≤ instrs.length)
    (reached : stateAt options table code n = .ok (.inside b))
    (placed : (Activation.whole data table b.function b.layout sp).Placed) (k : Nat) :
    Suits (.whole data table b.function b.layout sp) (siteAt options table code k) b := by
  have consistent : (State.inside b).Consistent := stateAt_consistent reached
  have housed : (State.inside b).Housed table := stateAt_housed reached
  have provided : (State.inside b).Provided table (Frame.plan options table code) :=
    stateAt_provided decoded bound reached
  obtain ⟨_, _, layout⟩ := Frame.find_plan provided.frame
  exact ⟨rfl, rfl, rfl, provided.roomy.few housed.first provided.limit, consistent.sound, housed,
    placed.separate ⟨_, layout⟩⟩

/-- A call of the code is made of its parts, and there are words for the temporaries that it keeps. -/
theorem stateAt_called (decoded : decodeFrom 0 code = .ok instrs)
    (found : instrs[n]? = some (.call function res))
    (reached : stateAt options table code n = .ok (.inside b))
    (accepted : stateAt options table code (n + 1) = .ok (.inside c)) (data : Data) (sp : Word) :
    ∃ is js ks ls b₁ b₂ b₃ b₄, Called (siteAt options table code n) function res
        { b with reserved := [], returned := false } c is js ks ls b₁ b₂ b₃ b₄ ∧
      b₃.spare.owners.length ≤ (Activation.whole data table b.function b.layout sp).spares := by
  obtain ⟨bound, _⟩ := List.getElem?_eq_some_iff.mp found
  have consistent : (State.inside b).Consistent := stateAt_consistent reached
  have housed : (State.inside b).Housed table := stateAt_housed reached
  have provided : (State.inside b).Provided table (Frame.plan options table code) :=
    stateAt_provided decoded (Nat.le_of_lt bound) reached
  obtain ⟨_, before, steps⟩ := (stateAt_succ decoded found).mp accepted
  cases Except.ok.inj (reached.symm.trans before)
  cases step_stepped steps with
  | lower _ _ lowers =>
    obtain ⟨is, js, ks, ls, b₁, b₂, b₃, b₄, called, _⟩ :=
      call_ok (b := { b with reserved := [], returned := false }) consistent lowers
    obtain ⟨roomy, first, limit⟩ := called.roomy provided.roomy
    exact ⟨is, js, ks, ls, b₁, b₂, b₃, b₄, called,
      roomy.few (first.trans housed.first) (limit.trans provided.limit)⟩

/-- The frame has an outgoing slot for every argument of a call. -/
theorem stateAt_slots (decoded : decodeFrom 0 code = .ok instrs)
    (found : instrs[n]? = some (.call function res))
    (reached : stateAt options table code n = .ok (.inside b))
    (accepted : stateAt options table code (n + 1) = .ok (.inside c)) (calls : options.assumeLeaf = false)
    (named : b.function.name ≠ "") (few : ∀ s ∈ table.symbols, s.params.length < 2 ^ 63) :
    b.pending.length ≤ b.layout.outgoingSlots.toInt.toNat := by
  obtain ⟨_, _, _, _, _, _, _, _, called, _⟩ :=
    stateAt_called decoded found reached accepted (fun _ => none) 0
  obtain ⟨f, symbol, arity⟩ := called.arity
  have enough := stateAt_outgoing decoded found reached calls named few
  have count : Frame.arityOf table function = b.pending.length := by
    simp only [Frame.arityOf, show table.lookup function = some f from symbol]
    exact arity.symm
  omega

/-- A call that is accepted without a warning: its code passes the arguments and makes what is needed
safe from the callee, and if the callee keeps to its part, the machine agrees with the descriptors again
behind the call, and what is needed later is still there. -/
theorem call_boundary (decoded : decodeFrom 0 code = .ok instrs)
    (found : instrs[n]? = some (.call function res))
    (reached : stateAt options table code n = .ok (.inside b))
    (accepted : stateAt options table code (n + 1) = .ok (.inside c))
    (quiet : c.out.warnings.size = b.out.warnings.size) (calls : options.assumeLeaf = false)
    (named : b.function.name ≠ "") (few : ∀ s ∈ table.symbols, s.params.length < 2 ^ 63)
    (whole : A = .whole data table b.function b.layout sp) (placed : A.Placed)
    (agrees : Agrees A everything b.store env m) :
    ∃ d is js m₁,
      prepareCall (siteAt options table code n) b.pending
        { b with reserved := [], returned := false, pending := [] } = .ok ((), d) ∧
      Emits b is d ∧ Emits d (.jal function :: js) c ∧ m.execAll data is = some m₁ ∧
      Agrees A everything d.store env m₁ ∧
      A.Ready b.pending (usedLater [] (code.drop (n + 1))) b.store d.store env m₁ ∧
      ∀ m₂, A.Respects m₁ m₂ → ∃ m₃, m₂.execAll data js = some m₃ ∧
        Agrees A everything c.store (A.returns res m₂ env) m₃ ∧
        ∀ v e, b.store.Has v e → usedLater [] (code.drop (n + 1)) e.name = true → res ≠ some e.name →
          ∃ f, c.store.Has v f ∧ f.name = e.name ∧ (f.homeValid = true ∨ ∃ r, r ∈ f.regs) := by
  subst whole
  obtain ⟨bound, _⟩ := List.getElem?_eq_some_iff.mp found
  have consistent : (State.inside b).Consistent := stateAt_consistent reached
  have after : (State.inside c).Consistent := stateAt_consistent accepted
  have provided : (State.inside b).Provided table (Frame.plan options table code) :=
    stateAt_provided decoded (Nat.le_of_lt bound) reached
  have suits := (stateAt_suits decoded (Nat.le_of_lt bound) reached placed n).advance
  obtain ⟨is, js, ks, ls, b₁, b₂, b₃, b₄, called, room⟩ :=
    stateAt_called decoded found reached accepted data sp
  have slots := stateAt_slots decoded found reached accepted calls named few
  have silent : b₁.out.warnings.size ≤ b.out.warnings.size := quiet ▸ called.warnings
  obtain ⟨m₁, ran, agrees₁, suits₁, arguments⟩ :=
    called.prepare suits slots room provided.pending silent (fun _ _ => trivial) agrees
  refine ⟨b₃, is ++ js ++ ks, delay options 1 ++ ls, m₁, called.prepared, called.emits_before,
    called.emits_after, ran, agrees₁, called.ready consistent suits suits₁ agrees₁ arguments,
    fun m₂ respects => ?_⟩
  obtain ⟨m₃, later, agrees₃⟩ := called.resume suits₁ agrees₁ respects
  refine ⟨m₃, later, agrees₃.narrow fun _ _ => .inr trivial, fun v e known needed other => ?_⟩
  obtain ⟨f, stays, name⟩ := called.retains consistent known needed other
  exact ⟨f, stays, name, after.kept v f stays (by simp)⟩

end Runs

/-! Calls of closed programs -/

/-- Whether the machine agrees with the descriptors of a procedure without global variables. -/
def agreesWith (A : Activation) (s : Store Mem) (env : Env) (m : Machine) : Bool :=
  m.read .sp = A.sp && s.entries.all fun e =>
    (e.regs.toList.all fun r => m.read (.pool r) = env (A.place e.name)) &&
      (e.home.bind A.address).all fun a => !e.homeValid || m.mem a = env (A.place e.name)

theorem not_isGlobalScalar {table : Scope}
    (none : (table.symbols.map Symbol.name).filter (isGlobalScalar table) = []) (name : String) :
    isGlobalScalar table name ≠ true := by
  intro global
  have member := isGlobalScalar_mem global
  rw [none] at member
  contradiction

theorem agrees_of_agreesWith {s : Store Mem} (checked : agreesWith A s env m = true)
    (none : ∀ name, isGlobalScalar A.table name ≠ true) : Agrees A everything s env m := by
  simp only [agreesWith, Bool.and_eq_true, decide_eq_true_eq, List.all_eq_true] at checked
  obtain ⟨sp, entries⟩ := checked
  refine ⟨sp, fun v e r known _ inside => ?_, fun v e h a known _ valid home address => ?_,
    fun name a _ global => ?_⟩
  · exact (entries e (List.mem_of_getElem? known.1)).1 r inside
  · have word := (entries e (List.mem_of_getElem? known.1)).2
    simpa [home, address, valid] using word
  · exact absurd global (none name)

/-- A function that passes five arguments and needs one of them after the call. -/
def boundaryFunction : Symbol :=
  { name := "f", kind := .function, params := [{ name := "p" }], locals := [{ name := "x" }] }

def boundaryTable : Scope :=
  ⟨[{ name := "g", kind := .function, params := ["a", "b", "c", "d", "e"].map fun name => { name := name } },
    boundaryFunction]⟩

def boundaryCode : List Quad :=
  Quad.numberedFrom 0 [
    { op := "label", arg1 := "func_f" },
    { op := "=", arg1 := "7", res := "t" },
    { op := "+", arg1 := "p", arg2 := "t", res := "x" },
    { op := "param", arg1 := "t" },
    { op := "param", arg1 := "p" },
    { op := "param", arg1 := "3" },
    { op := "param", arg1 := "4" },
    { op := "param", arg1 := "x" },
    { op := "call", arg1 := "g", res := "u" },
    { op := "+", arg1 := "t", arg2 := "u", res := "x" },
    { op := "return", arg1 := "x" },
    { op := "label", arg1 := "end_f" }]

def boundaryActivation : Activation :=
  .whole (fun _ => none) boundaryTable boundaryFunction ⟨"f", false, 12, 5, 5, 0, 1⟩ 0x7fd0

/-- The values before the call, and a machine that holds them. -/
def boundaryEnv : Env
  | .frame "p" => 2
  | .frame "x" => 9
  | .temporary "t" => 7
  | _ => 0

def boundaryMachine : Machine where
  regs
    | .sp => 0x7fd0
    | .pool 0 => 7
    | .pool 1 => 2
    | .pool 2 => 9
    | _ => 0
  mem a := if a = 0x8000 then 2 else 0

theorem call_boundary_passing :
    ∃ b c is js m₁, stateAt {} boundaryTable boundaryCode 8 = .ok (.inside b) ∧
      stateAt {} boundaryTable boundaryCode 9 = .ok (.inside c) ∧ Emits b (is ++ .jal "g" :: js) c ∧
      boundaryMachine.execAll (fun _ => none) is = some m₁ ∧
      boundaryActivation.argument m₁ 0 = some 7 ∧ boundaryActivation.argument m₁ 4 = some 9 ∧
      ∀ m₂, boundaryActivation.Respects m₁ m₂ → ∃ m₃, m₂.execAll (fun _ => none) js = some m₃ ∧
        Agrees boundaryActivation everything c.store
          (boundaryActivation.returns (some "u") m₂ boundaryEnv) m₃ := by
  have decoded : (decodeFrom 0 boundaryCode).toOption.isSome = true := by decide +kernel
  obtain ⟨instrs, decoded⟩ := Option.isSome_iff_exists.mp decoded
  have call : (decodeFrom 0 boundaryCode).toOption.bind (·[8]?) = some (.call "g" (some "u")) := by
    decide +kernel
  rw [decoded] at call
  have before : insideWith (fun b => b.function = boundaryFunction && b.layout = boundaryActivation.layout &&
      b.pending = [.variable "t", .variable "p", .literal 3, .literal 4, .variable "x"] &&
      b.out.warnings.size = 0 && agreesWith boundaryActivation b.store boundaryEnv boundaryMachine)
      (stateAt {} boundaryTable boundaryCode 8) = true := by
    decide +kernel
  have after : insideWith (·.out.warnings.size = 0) (stateAt {} boundaryTable boundaryCode 9) = true := by
    decide +kernel
  obtain ⟨b, reached, checked⟩ := exists_of_insideWith before
  obtain ⟨c, accepted, silent⟩ := exists_of_insideWith after
  simp only [Bool.and_eq_true, decide_eq_true_eq] at checked silent
  obtain ⟨⟨⟨⟨function, layout⟩, pending⟩, quiet⟩, agrees⟩ := checked
  have none : ∀ name, isGlobalScalar boundaryActivation.table name ≠ true :=
    not_isGlobalScalar (by decide +kernel)
  have placed : boundaryActivation.Placed :=
    ⟨by decide +kernel, by decide +kernel, by decide +kernel, by decide +kernel, by decide +kernel,
      fun name global => absurd global (none name), fun name _ global => absurd global (none name)⟩
  obtain ⟨d, is, js, m₁, _, prepares, resumes, ran, _, ready, returns⟩ :=
    call_boundary (eq_ok_of_toOption decoded) call reached accepted (silent.trans quiet.symm) rfl
      (by rw [function]; decide) (by decide) (by rw [function, layout]; rfl) placed
      (agrees_of_agreesWith agrees none)
  refine ⟨b, c, is, js, m₁, reached, accepted, prepares.trans resumes, ran, ?_, ?_, fun m₂ respects => ?_⟩
  · exact ready.arguments 0 (.variable "t") (by rw [pending]; rfl)
  · exact ready.arguments 4 (.variable "x") (by rw [pending]; rfl)
  · obtain ⟨m₃, later, agrees', _⟩ := returns m₂ respects
    exact ⟨m₃, later, agrees'⟩

/-- The two scalars of the function have one word, and the call stores both there. -/
def overlapCallTable : Scope := ⟨[{ name := "h", kind := .function }, overlapFunction]⟩

def overlapCallCode : List Quad :=
  Quad.numberedFrom 0 [
    { op := "label", arg1 := "func_f" },
    { op := "=", arg1 := "1", res := "x" },
    { op := "=", arg1 := "2", res := "y" },
    { op := "call", arg1 := "h" },
    { op := "return", arg1 := "x" },
    { op := "label", arg1 := "end_f" }]

def overlapCallActivation : Activation :=
  .whole (fun _ => none) overlapCallTable overlapFunction ⟨"f", false, 10, 4, 5, 0, 1⟩ 0x7fd8

def overlapCallEnv : Env
  | .frame "x" => 1
  | .frame "y" => 2
  | _ => 0

def overlapCallMachine : Machine where
  regs
    | .sp => 0x7fd8
    | .pool 0 => 1
    | .pool 1 => 2
    | _ => 0
  mem _ := 0

/-- The code that stores the scalars before the call. -/
def overlapCallStores : List Asm.Instr :=
  (Reg.temporaries.take 2).map fun r => .sw (.pool r) (.offset 16 .sp)

/-- The machine agrees with the descriptors, and the call is accepted without a warning. Before the jump
the home of the first scalar holds the value of the second. -/
theorem overlap_not_ready :
    ∃ b c d m₁, stateAt {} overlapCallTable overlapCallCode 3 = .ok (.inside b) ∧
      stateAt {} overlapCallTable overlapCallCode 4 = .ok (.inside c) ∧
      c.out.warnings.size = b.out.warnings.size ∧
      overlapCallActivation = .whole (fun _ => none) overlapCallTable b.function b.layout 0x7fd8 ∧
      Agrees overlapCallActivation everything b.store overlapCallEnv overlapCallMachine ∧
      prepareCall (siteAt {} overlapCallTable overlapCallCode 3) b.pending
        { b with reserved := [], returned := false, pending := [] } = .ok ((), d) ∧
      Emits b overlapCallStores d ∧
      overlapCallMachine.execAll (fun _ => none) overlapCallStores = some m₁ ∧
      ¬ overlapCallActivation.Ready b.pending (usedLater [] (overlapCallCode.drop 4)) b.store d.store
        overlapCallEnv m₁ := by
  have before : insideWith (fun b => b.function = overlapFunction &&
      b.layout = overlapCallActivation.layout && b.out.warnings.size = 0 &&
      agreesWith overlapCallActivation b.store overlapCallEnv overlapCallMachine &&
      (prepareCall (siteAt {} overlapCallTable overlapCallCode 3) b.pending
        { b with reserved := [], returned := false, pending := [] }).toOption.any fun r =>
          r.2.out.lines.toList = b.out.lines.toList ++ overlapCallStores.map Line.instr &&
          r.2.store.entries[0]? = some ⟨"x", some (.offset 16 .sp), .single 0, true, false⟩)
      (stateAt {} overlapCallTable overlapCallCode 3) = true := by
    decide +kernel
  have after : insideWith (·.out.warnings.size = 0) (stateAt {} overlapCallTable overlapCallCode 4) = true := by
    decide +kernel
  obtain ⟨b, reached, checked⟩ := exists_of_insideWith before
  obtain ⟨c, accepted, silent⟩ := exists_of_insideWith after
  simp only [Bool.and_eq_true, decide_eq_true_eq, Option.any_eq_true] at checked silent
  obtain ⟨⟨⟨⟨function, layout⟩, quiet⟩, agrees⟩, ⟨_, d⟩, prepared, lines, entry⟩ := checked
  refine ⟨b, c, d, _, reached, accepted, silent.trans quiet.symm, by rw [function, layout]; rfl,
    agrees_of_agreesWith agrees (not_isGlobalScalar (by decide +kernel)), eq_ok_of_toOption prepared, lines,
    rfl, fun ready => ?_⟩
  have stale := ready.homes 0 _ _ 0x7fe8 ⟨entry, rfl⟩ rfl (by decide +kernel)
  exact absurd stale (by decide +kernel)

end ThreeAddress.Codegen
