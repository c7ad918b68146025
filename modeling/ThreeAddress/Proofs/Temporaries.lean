import Mathlib.Data.List.Chain
import ThreeAddress.Proofs.FrameParts
import ThreeAddress.Proofs.Paths
import ThreeAddress.Proofs.Reads

/-! Temporaries keep their values. Along every path through a procedure the machine agrees with the
descriptors on what is needed later, as long as no jump leads to a label where a temporary that is needed
has a word that it does not have at the jump. -/
namespace ThreeAddress.Codegen

open Asm (Line Mem Listing)
open Descriptor (Store Var Entry)

variable {A : Activation} {site : Site} {limits : Limits} {b c d : Body} {is js ks : List Asm.Instr}
variable {env env' : Env} {m m₁ m' : Machine} {tracked : Place → Prop} {l : Option String}
variable {body : List Instr} {k j : Nat} {x : Instr}

/-! Plain code -/

theorem isPlain_delay (options : Options) (n : Nat) : ∀ i ∈ delay options n, isPlain i = true := by
  unfold delay
  split
  · intro i member
    rw [List.eq_of_mem_replicate member]
    rfl
  · simp

theorem isPlain_load (options : Options) (r : MachineReg) (mem : Mem) :
    ∀ i ∈ loadInstrs options r mem, isPlain i = true :=
  List.forall_mem_cons.mpr ⟨rfl, isPlain_delay options 2⟩

theorem Moves.plain (moves : Moves site limits b is c) : ∀ i ∈ is, isPlain i = true := by
  induction moves with
  | refl => simp
  | step _ move ih =>
    refine List.forall_mem_append.mpr ⟨ih, ?_⟩
    cases move with
    | mention | reserve | clear | evict | warn => simp
    | save | pass => exact List.forall_mem_singleton.mpr rfl
    | load | fetch => exact isPlain_load _ _ _
    | scratch plain =>
      intro i member
      have scratch := plain i member
      unfold isScratch at scratch
      split at scratch
      all_goals first
        | rfl
        | contradiction

theorem Assigned.plain {res : String} {r : Reg} (assigned : Assigned site res b r is c) :
    ∀ i ∈ is, isPlain i = true := by
  cases assigned with
  | intro plain =>
    intro i member
    have result := plain i member
    unfold isResult at result
    split at result
    all_goals first
      | rfl
      | contradiction

theorem isPlain_epilogue (options : Options) (l : Frame.Layout) :
    ∀ i ∈ epilogue options l, isPlain i = true := by
  refine List.forall_mem_append.mpr ⟨List.forall_mem_append.mpr ⟨fun i member => ?_, fun i member => ?_⟩, ?_⟩
  · obtain ⟨q, _, inside⟩ := List.mem_flatMap.mp member
    exact isPlain_load _ _ _ i inside
  · unfold adjustStack at member
    split at member
    · contradiction
    · rw [List.mem_singleton.mp member]
      rfl
  · exact List.forall_mem_cons.mpr ⟨rfl, isPlain_delay options 1⟩

/-- The machine stops at the return. -/
theorem epilogue_stops (options : Options) (l : Frame.Layout) (data : Data) (m : Machine) :
    m.execAll data (epilogue options l) = none := by
  rw [epilogue, Machine.execAll_append]
  exact Option.bind_eq_none_iff.mpr fun _ _ => rfl

/-- Moves on the way. -/
theorem Moves.executes (moves : Moves site limits b is c) (suits : Suits A site b)
    (slots : limits.outgoing ≤ A.outgoing) (agrees : Agrees A tracked b.store env m)
    (executes : A.Executes (is ++ js) m l m') :
    ∃ m₁, A.Executes js m₁ l m' ∧ Agrees A tracked c.store env m₁ ∧ Suits A site c := by
  obtain ⟨m₁, ran, later⟩ := executes.plain moves.plain
  exact ⟨m₁, later, (moves.agrees suits slots ran agrees).1, moves.suits suits⟩

/-! Instructions inside of a block -/

/-- A store to another word than those of the procedure. -/
theorem Agrees.store_elsewhere {a w : Word} (agrees : Agrees A tracked b.store env m)
    (suits : Suits A site b) (elsewhere : ∀ s ∈ A.slots, A.slot s ≠ some a) :
    Agrees A tracked b.store env (m.store a w) := by
  refine ⟨(Machine.read_store ..).trans agrees.sp, ?_, ?_, ?_⟩
  · intro v e r known track inside
    rw [Machine.read_store]
    exact agrees.regs v e r known track inside
  · intro v e h y known track valid home address
    obtain ⟨s, y', _, member, at_, found⟩ := suits.home known home
    cases Option.some.inj (address.symm.trans found)
    rw [Machine.mem_store, if_neg]
    · exact agrees.homes v e h y known track valid home address
    · rintro rfl
      exact elsewhere s member at_
  · intro name y track global unknown address
    rw [Machine.mem_store, if_neg]
    · exact agrees.absent name y track global unknown address
    · rintro rfl
      exact elsewhere _ (global_mem global) address

/-- The values that an instruction may leave, of which it gives a new one at most to one name. -/
def Env.Assigns (env : Env) (A : Activation) : Option String → Env → Prop
  | none, env' => env' = env
  | some res, env' => ∃ w, env' = env.set (A.place res) w

theorem Effect.executes {name : Option String} (effect : Effect site b name is c) (suits : Suits A site b)
    (agrees : Agrees A tracked b.store env m) (executes : A.Executes (is ++ js) m l m') :
    ∃ env' m₁, A.Executes js m₁ l m' ∧ env.Assigns A name env' ∧ Suits A site c ∧
      Agrees A (fun p => name.map A.place = some p ∨ tracked p) c.store env' m₁ := by
  have unchanged {env : Env} {s : Store Mem} {m : Machine} (agrees : Agrees A tracked s env m) :
      Agrees A (fun p => (none : Option String).map A.place = some p ∨ tracked p) s env m :=
    agrees.narrow fun p track => track.resolve_left (by simp)
  cases effect with
  | nothing => exact ⟨env, m, executes, rfl, suits, unchanged agrees⟩
  | @result d c res r is ks moves assigned =>
    rw [List.append_assoc] at executes
    obtain ⟨m₁, later, agrees₁, suits₁⟩ := moves.executes suits (Nat.zero_le _) agrees executes
    obtain ⟨m₂, ran, later⟩ := later.plain assigned.plain
    obtain ⟨agrees₂, _⟩ := assigned.run suits₁ agrees₁ ran
    exact ⟨_, m₂, later, ⟨_, rfl⟩, assigned.suits suits₁,
      agrees₂.narrow fun p track => track.imp_left fun same => (Option.some.inj same).symm⟩
  | @write d x mem is moves pointed =>
    rw [List.append_assoc] at executes
    obtain ⟨m₁, later, agrees₁, suits₁⟩ := moves.executes suits (Nat.zero_le _) agrees executes
    have same : Suits A site { d with out := d.out.append [.sw x mem] } := suits₁.update _ _ _ _
    cases later with
    | next exec spares later =>
      obtain ⟨a, address, rfl⟩ := Option.map_eq_some_iff.mp exec
      refine ⟨env, _, later, rfl, same, unchanged (agrees₁.store_elsewhere suits₁ fun s member => ?_)⟩
      exact spares x mem a s rfl pointed address member
    | leave jumps => contradiction
    | pass branch => contradiction
  | queue y =>
    have same : Suits A site { b with pending := b.pending ++ [y] } := suits.update _ _ _ _
    exact ⟨env, m, executes, rfl, same, unchanged agrees⟩

/-- What has become of the machine when control leaves the code of an instruction. -/
def Proceeds (A : Activation) (tracked : Place → Prop) (body : List Instr) (k : Nat) (x : Instr) (env : Env)
    (c : Body) (l : Option String) (m : Machine) : Prop :=
  ∃ env', Agrees A (fun p => x.assigned?.map A.place = some p ∨ tracked p) c.store env' m ∧
    (l ≠ none → Settled c.store) ∧ ∀ j, behind body k l = some j →
      x.Yields A.place body k
        (fun name w => x.assigned? = some name ∧ c.Knows name ∧ w = env' (A.place name)) env j env'

theorem scalar_proceeds (strict : site.options.strict = true) (straight : x.isStraight = true)
    (scalar : x.isScalar = true) (suits : Suits A site b) (range : x.isInRange = true)
    (track : ∀ name ∈ x.uses, tracked (A.place name)) (agrees : Agrees A tracked b.store env m)
    (lowers : lower site x b = .ok ((), c)) (emits : Emits b is c) (executes : A.Executes is m l m') :
    Proceeds A tracked body k x env c l m' := by
  cases runs : x.run A.place body k env with
  | some o =>
    obtain ⟨env', rfl, is', m₁, emits', ran, agrees', _⟩ :=
      scalar_simulates straight strict suits range track agrees runs lowers
    cases emits.unique emits'
    obtain ⟨rfl, rfl⟩ := executes.ends ran
    refine ⟨env', agrees', by simp, fun j next => ?_⟩
    cases Option.some.inj next
    exact .runs runs
  | none =>
    cases x with
    | binary op left right res =>
      simp only [Instr.isInRange, Bool.and_eq_true] at range
      obtain ⟨y, z, r, is', ls, b', d, m₁, before, ran, _, _, _, left_value, right_value, assigned, later⟩ :=
        binary_operands strict suits range track agrees lowers
      cases emits.unique (before.trans (assigned.emits.trans later.lines))
      obtain ⟨m₂, computes, _⟩ := (executes.after ran).plain assigned.plain
      rw [binary_stops] at computes
      · contradiction
      · rw [left_value, right_value]
        exact Option.map_eq_none_iff.mp runs
    | unary | imm | copy => simp [Instr.run] at runs
    | _ => simp [Instr.isScalar, Instr.isStraight] at scalar straight

theorem straight_proceeds (strict : site.options.strict = true) (straight : x.isStraight = true)
    (suits : Suits A site b) (consistent : Consistent b.store) (range : x.isInRange = true)
    (track : ∀ name ∈ x.uses, tracked (A.place name)) (agrees : Agrees A tracked b.store env m)
    (lowers : lower site x b = .ok ((), c)) (emits : Emits b is c) (executes : A.Executes is m l m') :
    Proceeds A tracked body k x env c l m' := by
  by_cases scalar : x.isScalar = true
  · exact scalar_proceeds strict straight scalar suits range track agrees lowers emits executes
  obtain ⟨d, is', js, effect, moves⟩ := lower_effect straight suits.sound lowers
  cases emits.unique (effect.emits.trans moves.lines)
  obtain ⟨env', m₁, later, assigns, suits₁, agrees₁⟩ := effect.executes suits agrees executes
  rw [← List.append_nil js] at later
  obtain ⟨m₂, last, agrees₂, _⟩ := moves.executes suits₁ (Nat.zero_le _) agrees₁ later
  cases last
  refine ⟨env', agrees₂, by simp, fun j next => ?_⟩
  cases Option.some.inj next
  -- The result of a load is known behind it, so its word is what the machine holds for it there.
  cases x with
  | load =>
    obtain ⟨w, rfl⟩ := assigns
    have knows := straight_gives consistent lowers fun _ => loadElement_ok suits.sound
    exact .load ⟨rfl, knows, (env.set_same _ w).symm⟩
  | loadInd =>
    obtain ⟨w, rfl⟩ := assigns
    have knows := straight_gives consistent lowers fun _ => loadIndirect_ok suits.sound
    exact .loadInd ⟨rfl, knows, (env.set_same _ w).symm⟩
  | store => exact (show env' = env from assigns) ▸ .store
  | storeInd => exact (show env' = env from assigns) ▸ .storeInd
  | param => exact (show env' = env from assigns) ▸ .param
  | _ => simp [Instr.isScalar, Instr.isStraight] at scalar straight

/-! Flow of control -/

theorem Flushed.executes (flushed : Flushed site b is c) (suits : Suits A site b)
    (agrees : Agrees A tracked b.store env m) (executes : A.Executes (is ++ js) m l m') :
    ∃ m₁, A.Executes js m₁ l m' ∧ Agrees A tracked c.store env m₁ ∧ ∀ q, m₁.read q = m.read q := by
  obtain ⟨m₁, ran, agrees₁, _, kept⟩ := flushed.run suits agrees
  exact ⟨m₁, executes.after ran, agrees₁, kept⟩

/-- A jump takes the machine to its label. -/
theorem executes_jump {target : String} {options : Options}
    (executes : A.Executes (jumpInstrs options (.j target)) m l m') : l = some target ∧ m' = m := by
  cases executes with
  | next exec => simp [Machine.exec] at exec
  | leave jumps => exact ⟨jumps.symm, rfl⟩
  | pass branch => contradiction

/-- A branch takes the machine to its label or behind its code. -/
theorem executes_branch {target : String} {options : Options} {ifTrue : Bool} {y : MachineReg}
    (executes : A.Executes (jumpInstrs options (branchInstr ifTrue y target)) m l m') :
    m' = m ∧ l = if decide (m.read y ≠ 0) = ifTrue then some target else none := by
  have zero : m.read .zero = 0 := rfl
  have decides : m.jump? (branchInstr ifTrue y target) =
      if decide (m.read y ≠ 0) = ifTrue then some target else none := by
    cases ifTrue <;> simp [branchInstr, Machine.jump?, zero]
  have stuck : m.exec A.data (branchInstr ifTrue y target) = none := by
    cases ifTrue <;> rfl
  have links (f : String) : branchInstr ifTrue y target ≠ .jal f := by
    cases ifTrue <;> simp [branchInstr]
  unfold jumpInstrs at executes
  generalize branchInstr ifTrue y target = i at *
  cases executes with
  | next exec => simp [stuck] at exec
  | call => exact absurd rfl (links _)
  | leave jumps => exact ⟨rfl, jumps.symm.trans decides⟩
  | pass _ stays later =>
    obtain ⟨rfl, rfl⟩ := later.ends (execAll_delay ..)
    exact ⟨rfl, stays.symm.trans decides⟩

theorem branch_proceeds {cond : Operand} {ifTrue : Bool} {target : String}
    (strict : site.options.strict = true) (suits : Suits A site b) (consistent : Consistent b.store)
    (range : cond.isInRange = true) (track : ∀ name ∈ cond.names, tracked (A.place name))
    (agrees : Agrees A tracked b.store env m)
    (lowers : lower site (.branch cond ifTrue target) b = .ok ((), c)) (emits : Emits b is c)
    (executes : A.Executes is m l m') :
    Proceeds A tracked body k (.branch cond ifTrue target) env c l m' := by
  obtain ⟨y, is', js, b₁, b₂, located, flushed, rfl⟩ := branch_ok suits.sound lowers
  have code := Emits.trans (Emits.trans located.moves.lines flushed.moves.lines)
    (emits_append b₂ (jumpInstrs site.options (branchInstr ifTrue y target)))
  cases emits.unique code
  obtain ⟨m₁, ran, agrees₁, _, value⟩ := located.run suits range (located.quiet strict)
    (fun name same => track name (by simp [same, Operand.names])) agrees
  rw [List.append_assoc] at executes
  obtain ⟨m₂, later, agrees₂, kept⟩ :=
    flushed.executes (located.moves.suits suits) agrees₁ (executes.after ran)
  obtain ⟨rfl, leads⟩ := executes_branch later
  rw [kept, value] at leads
  refine ⟨env, agrees₂.narrow fun p track => track.resolve_left (by simp [Instr.assigned?]),
    fun _ => flushed.settled (located.moves.consistent rfl consistent), fun j next => .runs ?_⟩
  rw [leads] at next
  simp only [Instr.run]
  split at next <;> rename_i taken
  · rw [if_pos taken, show target? body target = some j from next]
    rfl
  · rw [if_neg taken, ← Option.some.inj next]

theorem goto_proceeds {target : String} (suits : Suits A site b) (consistent : Consistent b.store)
    (agrees : Agrees A tracked b.store env m) (lowers : lower site (.goto target) b = .ok ((), c))
    (emits : Emits b is c) (executes : A.Executes is m l m') :
    Proceeds A tracked body k (.goto target) env c l m' := by
  obtain ⟨is', b₁, flushed, rfl⟩ := jump_ok suits.sound lowers
  cases emits.unique (Emits.trans flushed.moves.lines (emits_append b₁ (jumpInstrs site.options (.j target))))
  obtain ⟨m₁, later, agrees₁, _⟩ := flushed.executes suits agrees executes
  obtain ⟨rfl, rfl⟩ := executes_jump later
  refine ⟨env, agrees₁.narrow fun p track => track.resolve_left (by simp [Instr.assigned?]),
    fun _ => flushed.settled consistent, fun j next => .runs ?_⟩
  simp [Instr.run, show target? body target = some j from next]

theorem label_proceeds {name : String} (suits : Suits A site b) (agrees : Agrees A tracked b.store env m)
    (lowers : lower site (.label ⟨name, .plain⟩) b = .ok ((), c))
    (lines : c.out.lines.toList = b.out.lines.toList ++ linesOf (.label ⟨name, .plain⟩) is)
    (executes : A.Executes is m l m') :
    Proceeds A tracked body k (.label ⟨name, .plain⟩) env c l m' := by
  obtain ⟨is', b₁, flushed, rfl⟩ := label_ok suits.sound lowers
  have same : b.out.lines.toList ++ linesOf (.label ⟨name, .plain⟩) is' =
      b.out.lines.toList ++ linesOf (.label ⟨name, .plain⟩) is := by
    rw [← lines]
    simp [linesOf, Output.push, Instr.plainLabel?, flushed.moves.lines]
  have code : is' = is :=
    (List.map_inj_right fun _ _ => Line.instr.inj).mp
      (List.append_cancel_right (List.append_cancel_left same))
  subst code
  obtain ⟨m₁, ran, agrees₁, _⟩ := flushed.run suits agrees
  obtain ⟨rfl, rfl⟩ := executes.ends ran
  refine ⟨env, agrees₁.narrow fun p track => track.resolve_left (by simp [Instr.assigned?]), by simp,
    fun j next => ?_⟩
  cases Option.some.inj next
  exact .runs rfl

/-- No path goes on behind a return. -/
theorem ret_stops {y : Option Operand} (suits : Suits A site b) (agrees : Agrees A tracked b.store env m)
    (lowers : lower site (.ret y) b = .ok ((), c)) (emits : Emits b is c) : ¬ A.Executes is m l m' := by
  intro executes
  obtain ⟨is', js, b₁, b₂, returned, flushed, same⟩ := ret_ok suits.sound lowers
  have leaves : Emits b₂ (epilogue site.options b₂.layout) c := by
    rw [same]
    exact Output.lines_append b₂.out (epilogue site.options b₂.layout)
  cases emits.unique (Emits.trans (Emits.trans returned.moves.lines flushed.moves.lines) leaves)
  rw [List.append_assoc] at executes
  obtain ⟨m₁, later, agrees₁, suits₁⟩ := returned.moves.executes suits (Nat.zero_le _) agrees executes
  obtain ⟨m₂, last, _⟩ := flushed.executes suits₁ agrees₁ later
  rw [← List.append_nil (epilogue _ _)] at last
  obtain ⟨m₃, ran, _⟩ := last.plain (isPlain_epilogue _ _)
  exact absurd ((epilogue_stops ..).symm.trans ran) (Option.some_ne_none m₃).symm

/-! Calls and whole procedures -/

theorem returns_other {res : Option String} {q : Place} (m : Machine) (env : Env)
    (other : ∀ g, q ≠ .global g) (given : res.map A.place ≠ some q) : A.returns res m env q = env q := by
  have kept : A.returns none m env q = env q := by
    cases q with
    | global g => exact absurd rfl (other g)
    | _ => rfl
  cases res with
  | none => exact kept
  | some res => exact (Env.set_other _ (fun same => given (congrArg some same.symm)) _).trans kept

section Runs

variable {options : Options} {table : Scope} {code : List Quad} {instrs : List Instr}
variable {listing : Listing} {name : String} {p : Nat} {m₀ : Machine}

/-- An activation of a procedure that strict compilation accepts, with all the words of its frame. -/
structure Activation.Spans (A : Activation) (options : Options) (table : Scope) (code : List Quad)
    (instrs : List Instr) (listing : Listing) (name : String) (p : Nat) (body : List Instr) : Prop where
  strict : options.strict = true
  calls : options.assumeLeaf = false
  built : ∃ symbols, Scope.insertAll {} symbols = .ok table
  compiles : Compiles options table code instrs listing
  procedure : HasProcedure instrs name p body
  named : name ≠ ""
  few : ∀ s ∈ table.symbols, s.params.length < 2 ^ 63
  isOf : A.IsOf options table code listing name
  whole : A = .whole A.data A.table A.function A.layout A.sp
  placed : A.Placed

theorem Activation.Spans.suits (spans : A.Spans options table code instrs listing name p body)
    (bound : k ≤ body.length) (reached : stateAt options table code (p + 1 + k) = .ok (.inside b)) (n : Nat) :
    Suits A (siteAt options table code n) b := by
  obtain ⟨_, _, layout⟩ := Frame.find_plan spans.isOf.layout
  have runs : A.Runs options table code listing name := ⟨spans.isOf, spans.placed.separate ⟨_, layout⟩⟩
  obtain ⟨function, layout⟩ := spans.isOf.frame spans.procedure spans.compiles bound reached
  obtain ⟨_, ends, _⟩ := spans.procedure.exit
  have inside := (List.getElem?_eq_some_iff.mp ends).1
  have housed : (State.inside b).Housed table := stateAt_housed reached
  have provided : (State.inside b).Provided table (Frame.plan options table code) :=
    stateAt_provided spans.compiles.decoded (by omega) reached
  refine runs.suits spans.procedure spans.compiles bound reached ?_ n
  rw [spans.whole, function, layout]
  exact provided.roomy.few housed.first provided.limit

/-- Arguments wait in the generator as they do in the code. -/
theorem HasProcedure.pending (procedure : HasProcedure instrs name p body)
    (compiles : Compiles options table code instrs listing) (bound : k ≤ body.length)
    (reached : stateAt options table code (p + 1 + k) = .ok (.inside b)) :
    b.pending = waiting (body.take k) := by
  induction k generalizing b with
  | zero =>
    obtain ⟨out, f, l, _, _, _, start, _⟩ := procedure.stateAt_inside compiles bound
    cases Except.ok.inj (reached.symm.trans start)
    rfl
  | succ k ih =>
    obtain ⟨_, _, _, b', _, _, _, before, _⟩ := procedure.stateAt_inside compiles (Nat.le_of_succ_le bound)
    have found := List.getElem?_eq_getElem bound
    obtain ⟨c, next, steps⟩ := procedure.step_inside compiles found before
    cases Except.ok.inj (reached.symm.trans next)
    have consistent : (State.inside b').Consistent := stateAt_consistent before
    rw [List.take_add_one, found, waiting, List.foldl_append, ← waiting,
      ← ih (Nat.le_of_succ_le bound) before]
    generalize body[k] = x at steps
    cases steps with
    | nop => rfl
    | lower _ _ lowers =>
      exact lower_pending (b := { b' with reserved := [], returned := false }) consistent lowers

theorem Activation.Spans.call_proceeds {function : String} {res : Option String}
    (spans : A.Spans options table code instrs listing name p body)
    (found : body[k]? = some (.call function res))
    (reached : stateAt options table code (p + 1 + k) = .ok (.inside b))
    (accepted : stateAt options table code (p + 1 + (k + 1)) = .ok (.inside c))
    (track : ∀ name ∈ readsAt body k, tracked (A.place name)) (agrees : Agrees A tracked b.store env m)
    (emits : Emits b is c) (executes : A.Executes is m l m') :
    Proceeds A tracked body k (.call function res) env c l m' := by
  obtain ⟨bound, _⟩ := List.getElem?_eq_some_iff.mp found
  have decoded := spans.compiles.decoded
  have occurs := spans.procedure.inside k bound
  rw [found] at occurs
  obtain ⟨inside, _⟩ := List.getElem?_eq_some_iff.mp occurs
  have provided : (State.inside b).Provided table (Frame.plan options table code) :=
    stateAt_provided decoded (Nat.le_of_lt inside) reached
  obtain ⟨same, layout⟩ := spans.isOf.frame spans.procedure spans.compiles (Nat.le_of_lt bound) reached
  have whole : A = .whole A.data table b.function b.layout A.sp := by
    rw [← same, ← layout, ← spans.isOf.scope]
    exact spans.whole
  obtain ⟨is', js, ks, ls, b₁, b₂, b₃, b₄, called, room⟩ :=
    stateAt_called decoded occurs reached accepted A.data A.sp
  have named : b.function.name ≠ "" := by
    have symbol := List.find?_some spans.isOf.function
    rw [← same, show A.function.name = name by simpa using symbol]
    exact spans.named
  have slots : b.pending.length ≤ A.outgoing := by
    rw [whole]
    exact stateAt_slots decoded occurs reached accepted spans.calls named spans.few
  have suits := (spans.suits (Nat.le_of_lt bound) reached (p + 1 + k)).advance
  have quiet := (called.passed.moves (Nat.le_refl _)).warnings.2 spans.strict
  have wanted (name : String) (waits : .variable name ∈ b.pending) : tracked (A.place name) := by
    refine track name ?_
    rw [spans.procedure.pending spans.compiles (Nat.le_of_lt bound) reached] at waits
    rw [readsAt_eq found]
    exact List.mem_flatMap.mpr ⟨_, waits, by simp [Operand.names]⟩
  obtain ⟨m₁, ran, agrees₁, suits₁, _⟩ :=
    called.prepare suits slots (by rw [whole]; exact room) provided.pending (Nat.le_of_eq quiet) wanted agrees
  cases emits.unique (called.emits_before.trans called.emits_after)
  have jumps : A.Executes (.jal function :: (delay options 1 ++ ls)) m₁ l m' := executes.after ran
  cases jumps with
  | next exec => simp [Machine.exec] at exec
  | call respects later =>
    obtain ⟨m₃, rest, agrees₃⟩ := called.resume suits₁ agrees₁ respects
    obtain ⟨rfl, rfl⟩ := later.ends rest
    refine ⟨_, agrees₃, by simp, fun j next => ?_⟩
    cases Option.some.inj next
    refine .call (fun q other given => returns_other _ env other given) fun name same => ⟨same, ?_, rfl⟩
    subst same
    exact called.knows (called.forgets.sound suits₁.sound)
  | leave jumps => contradiction
  | pass branch => contradiction

/-- The code of every instruction takes the machine on. -/
theorem Activation.Spans.proceeds (spans : A.Spans options table code instrs listing name p body)
    (found : body[k]? = some x) (reached : stateAt options table code (p + 1 + k) = .ok (.inside b))
    (accepted : stateAt options table code (p + 1 + (k + 1)) = .ok (.inside c))
    (lines : c.out.lines.toList = b.out.lines.toList ++ linesOf x is)
    (track : ∀ name ∈ readsAt body k, tracked (A.place name)) (agrees : Agrees A tracked b.store env m)
    (executes : A.Executes is m l m') : Proceeds A tracked body k x env c l m' := by
  obtain ⟨bound, _⟩ := List.getElem?_eq_some_iff.mp found
  have occurs := spans.procedure.inside k bound
  rw [found] at occurs
  have range := decodeFrom_isInRange spans.compiles.decoded x (List.mem_of_getElem? occurs)
  have consistent : (State.inside b).Consistent := stateAt_consistent reached
  have suits := (spans.suits (Nat.le_of_lt bound) reached (p + 1 + k)).advance
  have emits (plain : x.plainLabel? = none) : Emits b is c := by
    rw [linesOf, plain, Option.toList_none, List.map_nil, List.append_nil] at lines
    exact lines
  obtain ⟨c', next, steps⟩ := spans.procedure.step_inside spans.compiles found reached
  cases Except.ok.inj (accepted.symm.trans next)
  cases steps with
  | nop =>
    cases (emits rfl).unique (show Emits b [] b by simp [Emits])
    cases executes
    refine ⟨env, agrees.narrow fun p track => track.resolve_left (by simp [Instr.assigned?]), by simp,
      fun j next => ?_⟩
    cases Option.some.inj next
    exact .runs rfl
  | lower real boundary lowers =>
    by_cases straight : x.isStraight = true
    · have reads := (readsAt_eq found).trans (Instr.reads_of_straight straight _)
      exact straight_proceeds spans.strict straight suits consistent range (reads ▸ track) agrees lowers
        (emits (Instr.plainLabel?_of_straight straight)) executes
    · cases x with
      | call function res =>
        exact spans.call_proceeds found reached accepted track agrees (emits rfl) executes
      | branch cond ifTrue target =>
        have reads : readsAt body k = cond.names := readsAt_eq found
        exact branch_proceeds spans.strict suits consistent range (reads ▸ track) agrees lowers (emits rfl)
          executes
      | goto target => exact goto_proceeds suits consistent agrees lowers (emits rfl) executes
      | label l =>
        obtain ⟨_, _⟩ := l
        cases boundary _ rfl
        exact label_proceeds suits agrees lowers lines executes
      | ret y => exact absurd executes (ret_stops suits agrees lowers (emits rfl))
      | nop => exact absurd rfl real
      | _ => simp [Instr.isStraight] at straight

/-! What is needed -/

/-- Every place but those of temporaries that are not needed. -/
def Activation.Wanted (A : Activation) (body : List Instr) (k : Nat) (q : Place) : Prop :=
  ∀ t, A.place t = .temporary t → q = .temporary t → Needed body k t

theorem wanted_of_reads {t : String} (reads : t ∈ readsAt body k) : A.Wanted body k (A.place t) := by
  intro u temporary same
  cases placeOf_injective (same.trans temporary.symm)
  exact .read reads

theorem Activation.Wanted.before {q : Place} (wanted : A.Wanted body j q) (found : body[k]? = some x)
    (leads : x.Leads body k j) : x.assigned?.map A.place = some q ∨ A.Wanted body k q := by
  by_cases assigns : x.assigned?.map A.place = some q
  · exact .inl assigns
  · refine .inr fun t temporary same => .later found ?_ leads (wanted t temporary same)
    intro assigned
    rw [assigned, Option.map_some, temporary, same] at assigns
    exact assigns rfl

/-- Where the machine agrees with the descriptors, it has the value of a name that the generator knows. -/
theorem Agrees.finds {t : String} (agrees : Agrees A tracked b.store env m) (suits : Suits A site b)
    (kept : Kept b.store none) (knows : b.Knows t) (track : tracked (A.place t)) :
    A.Finds b.store m t (env (A.place t)) := by
  obtain ⟨v, e, known, rfl⟩ := knows
  have every (u : Word) (copies : A.Copies e m u) : u = env (A.place e.name) := by
    cases copies with
    | register inside => exact agrees.regs v e _ known track inside
    | home valid home address => exact agrees.homes v e _ _ known track valid home address
  refine ⟨v, e, known, rfl, ?_, every⟩
  rcases kept v e known (by simp) with valid | ⟨r, inside⟩
  · obtain ⟨h, home⟩ := Option.isSome_iff_exists.mp (suits.sound.housed v e known.1 valid)
    obtain ⟨s, a, _, _, _, address⟩ := suits.home known home
    have copies : A.Copies e m (m.mem a) := .home valid home address
    exact every _ copies ▸ copies
  · have copies : A.Copies e m (m.read (.pool r)) := .register inside
    exact every _ copies ▸ copies

/-- The machine agrees with the descriptors behind the prologue. -/
theorem Activation.Spans.enter (spans : A.Spans options table code instrs listing name p body)
    (enters : A.Enters m₀ env) (ran : m₀.execAll A.data (prologue A.layout A.function.params.length) = some m) :
    ∃ b, stateAt options table code (p + 1) = .ok (.inside b) ∧ Agrees A tracked b.store env m := by
  obtain ⟨out, f, l, _, _, _, start, _⟩ := spans.procedure.stateAt_inside spans.compiles (Nat.zero_le _)
  obtain ⟨function, layout⟩ := spans.isOf.frame spans.procedure spans.compiles (Nat.zero_le _) start
  obtain ⟨_, _, planned⟩ := Frame.find_plan spans.isOf.layout
  obtain ⟨symbols, built⟩ := spans.built
  have names := Scope.nodup_of_insertAll built (by simp) _ (List.mem_of_find?_eq_some spans.isOf.function)
  obtain ⟨m', again, agrees, _⟩ : ∃ m', _ ∧ Agrees A tracked _ env m' ∧ _ :=
    prologue_run options out (spans.placed.separate ⟨_, planned⟩) (spans.placed.fits ⟨_, planned⟩) enters names
  cases Option.some.inj (ran.symm.trans again)
  rw [function, layout] at agrees
  exact ⟨_, start, agrees⟩

/-- The machine takes one step of a path and agrees with the descriptors behind it. -/
theorem Activation.Spans.step (spans : A.Spans options table code instrs listing name p body)
    (passes : Passes options table code p body A k m j m')
    (steady : Steady options table code p body k j)
    (reached : stateAt options table code (p + 1 + k) = .ok (.inside b))
    (agrees : Agrees A (A.Wanted body k) b.store env m) :
    ∃ x env' c, body[k]? = some x ∧
      x.Yields A.place body k (FindsAt options table code p A (k + 1) m') env j env' ∧
      j ≤ body.length ∧ stateAt options table code (p + 1 + j) = .ok (.inside c) ∧
      Agrees A (A.Wanted body j) c.store env' m' := by
  obtain ⟨x, _, c, is, l, found, here, accepted, lines, executes, next⟩ := passes
  cases Except.ok.inj (reached.symm.trans here)
  obtain ⟨bound, _⟩ := List.getElem?_eq_some_iff.mp found
  obtain ⟨env', agrees', settled, gives⟩ :=
    spans.proceeds found reached accepted lines (fun _ => wanted_of_reads) agrees executes
  have after : (State.inside c).Consistent := stateAt_consistent accepted
  have suits := spans.suits bound accepted 0
  have yields : x.Yields A.place body k (FindsAt options table code p A (k + 1) m') env j env' := by
    refine (gives j next).mono ?_
    rintro res w ⟨assigned, knows, rfl⟩
    exact ⟨c, accepted, agrees'.finds suits after.kept knows (.inl (by rw [assigned, Option.map_some]))⟩
  have narrower (q : Place) (wanted : A.Wanted body j q) := wanted.before found yields.leads
  cases l with
  | none =>
    cases Option.some.inj next
    exact ⟨x, env', c, found, yields, bound, accepted, agrees'.narrow narrower⟩
  | some target =>
    -- The descriptors behind the label come from the code in front of it, not from the jump. Declared
    -- names have one word everywhere, and for temporaries this is what a steady jump gives.
    obtain ⟨_, d, bound', _, _, there, empty, _⟩ := spans.procedure.behind_label spans.compiles next
    have suits' := spans.suits bound' there 0
    refine ⟨x, env', d, found, yields, bound', there, ?_⟩
    refine agrees'.jump suits suits' (settled (by simp)) empty narrower ?_
    intro v e h known home temporary wanted
    refine steady c d v e h accepted there known home ?_ (wanted _ temporary temporary)
    rw [← suits'.function, ← spans.isOf.scope]
    exact temporary

/-- The machine agrees with the descriptors at the end of every path. -/
theorem Activation.Spans.walk {env₀ : Env} {path : List (Nat × Machine)}
    (spans : A.Spans options table code instrs listing name p body) (enters : A.Enters m₀ env₀)
    (walks : Walks options table code p body A m₀ path)
    (steady : (path.map Prod.fst).IsChain fun j k => Steady options table code p body k j) :
    ∃ k m rest b env, path = (k, m) :: rest ∧ k ≤ body.length ∧
      stateAt options table code (p + 1 + k) = .ok (.inside b) ∧
      Evaluates options table code p body A env₀ path env ∧
      Agrees A (A.Wanted body k) b.store env m := by
  -- On places that are not wanted any more the agreement is given up from step to step.
  induction walks with
  | enter ran =>
    obtain ⟨b, start, agrees⟩ := spans.enter enters ran
    exact ⟨0, _, [], b, env₀, rfl, Nat.zero_le _, start, .enter, agrees⟩
  | @step k j path m m' walks passes ih =>
    obtain ⟨taken, earlier⟩ := List.isChain_cons_cons.mp steady
    obtain ⟨_, _, _, b, env, same, bound, reached, evaluates, agrees⟩ := ih earlier
    cases same
    obtain ⟨x, env', c, found, yields, bound', there, agrees'⟩ := spans.step passes taken reached agrees
    exact ⟨j, m', _, c, env', rfl, bound', there, .step evaluates found yields, agrees'⟩

/-- The name has no declaration in the function. -/
def Undeclared (table : Scope) (f : Symbol) (name : String) : Prop :=
  name ∉ (f.params ++ f.locals).map Decl.name ∧ table.lookup name = none

theorem Undeclared.place {f : Symbol} {t : String} (undeclared : Undeclared table f t) :
    placeOf table f t = .temporary t := by
  have scalar : t ∉ (scalarDecls f).map Decl.name := fun inside =>
    undeclared.1 (((List.Sublist.refl _).append List.filter_sublist).map Decl.name |>.subset inside)
  simp [placeOf, scalar, isGlobalScalar, undeclared.2]

/-- The generator knows a temporary that an instruction reads. -/
theorem Activation.Spans.knows {t : String} (spans : A.Spans options table code instrs listing name p body)
    (reached : stateAt options table code (p + 1 + k) = .ok (.inside b)) (reads : t ∈ readsAt body k)
    (undeclared : Undeclared table A.function t) : b.Knows t := by
  obtain ⟨x, found⟩ : ∃ x, body[k]? = some x := by
    cases found : body[k]? with
    | none => simp [readsAt, found] at reads
    | some x => exact ⟨x, rfl⟩
  obtain ⟨bound, _⟩ := List.getElem?_eq_some_iff.mp found
  rw [readsAt_eq found] at reads
  have consistent : (State.inside b).Consistent := stateAt_consistent reached
  have arranged : (State.inside b).Arranged := stateAt_arranged reached
  obtain ⟨function, _⟩ := spans.isOf.frame spans.procedure spans.compiles (Nat.le_of_lt bound) reached
  have arrays : b.arrays.lookup t = none := by
    rw [show b.arrays = _ from arranged, ← function]
    refine List.lookup_eq_none_iff.mpr fun q inside => bne_iff_ne.mpr fun same => undeclared.1 ?_
    rw [same]
    exact (map_arrayPlaces_sublist ..).subset (List.mem_map_of_mem inside)
  obtain ⟨c, _, steps⟩ := spans.procedure.step_inside spans.compiles found reached
  rw [← spans.procedure.pending spans.compiles (Nat.le_of_lt bound) reached] at reads
  cases steps with
  | nop => contradiction
  | lower _ _ lowers =>
    obtain ⟨v, e, known, same⟩ := lower_knows (b := { b with reserved := [], returned := false })
      spans.strict consistent arrays undeclared.2 lowers reads
    exact ⟨v, e, known, same⟩

/-- Where control reaches an instruction that reads a temporary, the machine has the value that the path has
given to it, in every place where the generator notes a copy. -/
theorem temporaries_kept {env₀ : Env} {path : List (Nat × Machine)}
    (spans : A.Spans options table code instrs listing name p body) (enters : A.Enters m₀ env₀)
    (walks : Walks options table code p body A m₀ ((k, m) :: path))
    (steady : (k :: path.map Prod.fst).IsChain fun j i => Steady options table code p body i j) :
    ∃ env, Evaluates options table code p body A env₀ ((k, m) :: path) env ∧
      ∀ t ∈ readsAt body k, Undeclared table A.function t →
        FindsAt options table code p A k m t (env (.temporary t)) := by
  obtain ⟨_, _, _, b, env, same, bound, reached, evaluates, agrees⟩ := spans.walk enters walks steady
  cases same
  refine ⟨env, evaluates, fun t reads undeclared => ⟨b, reached, ?_⟩⟩
  have consistent : (State.inside b).Consistent := stateAt_consistent reached
  have place : A.place t = .temporary t := by
    rw [Activation.place, spans.isOf.scope]
    exact undeclared.place
  rw [← place]
  exact agrees.finds (spans.suits bound reached 0) consistent.kept (spans.knows reached reads undeclared)
    (wanted_of_reads reads)

end Runs

/-- A function with an argument, and one for it to call. -/
def walkFunction : Symbol := { name := "f", kind := .function, params := [{ name := "a" }] }

def walkTable : Scope := ⟨[{ name := "h", kind := .function }, walkFunction]⟩

def walkInstrs (body : List Instr) : List Instr :=
  .label ⟨"func_f", .entry "f"⟩ :: body ++ [.label ⟨"end_f", .exit "f"⟩]

def walkListing (code : List Quad) : Listing := listingOf {} walkTable code

/-- All local words of the frame are spare. -/
def walkActivation (data : Data) : Activation :=
  .whole data walkTable walkFunction ⟨"f", false, 10, 4, 4, 0, 1⟩ 0x7fd8

theorem walkActivation_placed (data : Data) : (walkActivation data).Placed := by
  have none : ∀ name, isGlobalScalar walkTable name ≠ true := not_isGlobalScalar (by decide +kernel)
  have placed : (walkActivation fun _ => .none).Placed :=
    ⟨by decide +kernel, by decide +kernel, by decide +kernel, by decide +kernel, by decide +kernel,
      fun name global => absurd global (none name), fun name _ global => absurd global (none name)⟩
  exact ⟨placed.room, placed.outgoing, placed.small, placed.aligned, placed.top,
    fun name global => absurd global (none name), fun name _ global => absurd global (none name)⟩

theorem walkActivation_enters (data : Data) (w : Word) :
    (walkActivation data).Enters (startMachine w) (startEnv walkFunction (startMachine w)) := by
  have sp : (0x7fd8 : Word) = 0x8000 - BitVec.ofInt 32 (walkActivation fun _ => none).layout.bytes.toInt := by
    decide +kernel
  exact ⟨sp, fun _ _ _ _ => rfl, fun _ _ _ _ => rfl⟩

theorem walkActivation_spans (code : List Quad) (body : List Instr) {data : Data}
    (same : data = (Image.ofLines (walkListing code).lines).data)
    (accepted : (compile {} walkTable code).toOption.isSome = true)
    (decoded : (decodeFrom 0 code).toOption = some (walkInstrs body))
    (labels : DistinctLabels walkTable (walkInstrs body))
    (inner : ∀ x ∈ body, ∀ l, x = .label l → l.boundary = .plain)
    (layout : (Frame.find (Frame.plan {} walkTable code) "f").toOption =
      some ⟨"f", false, 10, 4, 4, 0, 1⟩) :
    (walkActivation data).Spans {} walkTable code (walkInstrs body) (walkListing code) "f" 0 body where
  strict := rfl
  calls := rfl
  built := ⟨walkTable.symbols, eq_ok_of_toOption (by decide +kernel)⟩
  compiles := ⟨compile_eq_listingOf accepted, eq_ok_of_toOption decoded, labels⟩
  procedure := by
    refine ⟨⟨_, rfl, rfl⟩, inner, fun k bound => ?_, ⟨⟨"end_f", .exit "f"⟩, ?_, rfl⟩⟩
    · rw [Nat.zero_add, Nat.add_comm, walkInstrs, List.cons_append, List.getElem?_cons_succ,
        List.getElem?_append_left bound]
    · rw [Nat.zero_add, Nat.add_comm, walkInstrs, List.cons_append, List.getElem?_cons_succ]
      simp
  named := by decide
  few := by decide
  isOf := ⟨same, rfl, rfl, eq_ok_of_toOption layout⟩
  whole := rfl
  placed := walkActivation_placed data

/-- The callee leaves nothing in the first register. -/
def walkCallee (r : Reg) (m : Machine) : Machine := m.write (.pool r) 0

theorem walkCallee_respects (A : Activation) (m : Machine) : A.Respects m (walkCallee 0 m) := by
  refine ⟨rfl, fun r saved => Machine.read_write_ne ?_ 0, fun _ _ _ _ _ => rfl⟩
  rintro same
  cases same
  contradiction

/-- A temporary is kept over a call and returned behind a loop. -/
def loopCode : List Quad :=
  Quad.numberedFrom 0 [
    { op := "label", arg1 := "func_f" },
    { op := "=", arg1 := "5", res := "t" },
    { op := "call", arg1 := "h" },
    { op := "label", arg1 := "again" },
    { op := "-", arg1 := "a", arg2 := "1", res := "a" },
    { op := "ifGoto", arg1 := "a", res := "again" },
    { op := "return", res := "t" },
    { op := "label", arg1 := "end_f" }]

def loopBody : List Instr :=
  [.imm 5 "t", .call "h" none, .label ⟨"again", .plain⟩,
    .binary .sub (.variable "a") (.literal 1) "a", .branch (.variable "a") true "again",
    .ret (some (.variable "t"))]

def loopData : Data := (Image.ofLines (walkListing loopCode).lines).data

theorem temporaries_kept_in_loop :
    ∃ m path env, path.map Prod.fst = [4, 3, 4, 3, 2, 1, 0] ∧
      Evaluates {} walkTable loopCode 0 loopBody (walkActivation loopData)
        (startEnv walkFunction (startMachine 2)) ((5, m) :: path) env ∧
      FindsAt {} walkTable loopCode 0 (walkActivation loopData) 5 m "t" (env (.temporary "t")) := by
  have spans := walkActivation_spans loopCode loopBody (show loopData = _ from rfl) (by decide +kernel)
    (by decide +kernel) ⟨by decide +kernel, by decide +kernel⟩ (by simp [loopBody]) (by decide +kernel)
  have walked : (travel {} walkTable loopCode 0 loopBody (walkActivation loopData) (walkCallee 0)
      (startMachine 2) 7).any (fun path => path.map Prod.fst = [5, 4, 3, 4, 3, 2, 1, 0] &&
        path.head?.any fun _ => true) = true := by
    decide +kernel
  have chain : [5, 4, 3, 4, 3, 2, 1, 0].IsChain fun j i =>
      insideWith (fun b => insideWith (keepsHomes b) (stateAt {} walkTable loopCode (0 + 1 + j)))
        (stateAt {} walkTable loopCode (0 + 1 + (i + 1))) = true := by
    decide +kernel
  obtain ⟨m, path, earlier, _, walks⟩ := exists_walk _ _ _ _ _ (fun _ => true) (walkCallee_respects _) walked
  have steady := chain.imp fun j i => steady_of_keepsHomes {} walkTable loopCode 0 loopBody (k := i) (j := j)
  obtain ⟨env, evaluates, finds⟩ :=
    temporaries_kept spans (walkActivation_enters _ _) walks (earlier.symm ▸ steady)
  exact ⟨m, path, env, earlier, evaluates,
    finds "t" (by decide +kernel) ⟨by decide +kernel, by decide +kernel⟩⟩

/-- A temporary gets a word at a call that one path leaves out. -/
def skipCode : List Quad :=
  Quad.numberedFrom 0 [
    { op := "label", arg1 := "func_f" },
    { op := "=", arg1 := "1", res := "t" },
    { op := "ifGoto", arg1 := "a", res := "L" },
    { op := "=", arg1 := "2", res := "t" },
    { op := "call", arg1 := "h" },
    { op := "label", arg1 := "L" },
    { op := "return", res := "t" },
    { op := "label", arg1 := "end_f" }]

def skipBody : List Instr :=
  [.imm 1 "t", .branch (.variable "a") true "L", .imm 2 "t", .call "h" none, .label ⟨"L", .plain⟩,
    .ret (some (.variable "t"))]

def skipData : Data := (Image.ofLines (walkListing skipCode).lines).data

/-- The path gives one to the temporary. The machine has zero in the word that the code reads for it. -/
theorem skipped_word_stale :
    ∃ m path env, (walkActivation skipData).Spans {} walkTable skipCode (walkInstrs skipBody)
        (walkListing skipCode) "f" 0 skipBody ∧
      (walkActivation skipData).Enters (startMachine 1) (startEnv walkFunction (startMachine 1)) ∧
      Walks {} walkTable skipCode 0 skipBody (walkActivation skipData) (startMachine 1) ((5, m) :: path) ∧
      Evaluates {} walkTable skipCode 0 skipBody (walkActivation skipData)
        (startEnv walkFunction (startMachine 1)) ((5, m) :: path) env ∧
      "t" ∈ readsAt skipBody 5 ∧ Undeclared walkTable walkFunction "t" ∧ env (.temporary "t") = 1 ∧
      FindsAt {} walkTable skipCode 0 (walkActivation skipData) 5 m "t" 0 := by
  have spans := walkActivation_spans skipCode skipBody (show skipData = _ from rfl) (by decide +kernel)
    (by decide +kernel) ⟨by decide +kernel, by decide +kernel⟩ (by simp [skipBody]) (by decide +kernel)
  have walked : (travel {} walkTable skipCode 0 skipBody (walkActivation skipData) (walkCallee 0)
      (startMachine 1) 2).any (fun path => path.map Prod.fst = [5, 1, 0] &&
        path.head?.any fun q => q.2.mem 0x7fe8 = 0) = true := by
    decide +kernel
  have entry : insideWith (fun b => b.store.entries[2]? = some ⟨"t", some (.offset 16 .sp), {}, true, false⟩)
      (stateAt {} walkTable skipCode (0 + 1 + 5)) = true := by
    decide +kernel
  obtain ⟨m, path, earlier, word, walks⟩ :=
    exists_walk _ _ _ _ _ (·.mem 0x7fe8 = 0) (walkCallee_respects _) walked
  obtain ⟨b, reached, entry⟩ := exists_of_insideWith entry
  have address : (walkActivation skipData).address (.offset 16 .sp) = some 0x7fe8 := by decide +kernel
  obtain ⟨⟨_, m₁⟩, _, rfl, rfl, first⟩ := List.map_eq_cons_iff.mp earlier
  obtain ⟨⟨_, m₂⟩, _, rfl, rfl, start⟩ := List.map_eq_cons_iff.mp first
  obtain rfl := List.map_eq_nil_iff.mp start
  refine ⟨m, _, _, spans, walkActivation_enters _ _, walks,
    .step (.step .enter rfl (.runs rfl)) rfl (.runs rfl), by decide, ⟨by decide, by decide⟩, rfl,
    b, reached, ?_⟩
  rw [← of_decide_eq_true word]
  exact Activation.finds_home ⟨of_decide_eq_true entry, rfl⟩ KeySet.not_mem_empty rfl rfl address

end ThreeAddress.Codegen
