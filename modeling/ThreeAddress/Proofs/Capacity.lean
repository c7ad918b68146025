import ThreeAddress.Proofs.Denotation
import ThreeAddress.Proofs.FrameWords
import ThreeAddress.Proofs.Positions

/-! A frame has room for what calls need: a spare word for each of the temporaries that own one,
and an outgoing slot for each argument of a call. -/
namespace ThreeAddress

/-! Quads that are labels and calls -/

/-- A quad is decoded to a label, to a call or to neither as its opcode says. -/
theorem Instr.ofQuad_cases {q : Quad} {x : Instr} (ran : ofQuad q = .ok x) :
    (∃ l, x = .label l ∧ q.label? = some l) ∨
    (∃ res, x = .call q.arg1 res ∧ q.label? = none ∧ q.op = "call") ∨
    ((∀ l, x ≠ .label l) ∧ (∀ f res, x ≠ .call f res) ∧ q.label? = none ∧ q.op ≠ "call") := by
  obtain ⟨_, denotes⟩ := ofQuad_denotes ran
  cases denotes with
  | label op => exact .inl ⟨_, rfl, if_pos op⟩
  | call op => exact .inr (.inl ⟨_, rfl, by simp [Quad.label?, op], op⟩)
  | branch ifTrue op => cases ifTrue <;> simp [Quad.label?, op]
  | binary other | unary other => simp_all [Quad.label?, opcodes]
  | nop op => simp_all [Quad.label?]; grind
  | _ op => simp [Quad.label?, op]

namespace Codegen

theorem decodeFrom_getElem? {start n : Nat} {code : List Quad} {instrs : List Instr} {x : Instr}
    (decoded : decodeFrom start code = .ok instrs) (found : instrs[n]? = some x) :
    ∃ q, code[n]? = some q ∧ Instr.ofQuad q = .ok x := by
  induction code generalizing start instrs n with
  | nil =>
    cases Except.ok.inj decoded
    simp at found
  | cons q code ih =>
    obtain ⟨_, y, ys, first, rest, rfl⟩ := decodeFrom_cons_ok.mp decoded
    cases n with
    | zero => exact ⟨q, rfl, Option.some.inj found ▸ first⟩
    | succ n => exact ih rest found

variable {site : Site} {b c : Body} {x : Instr}

/-! Waiting arguments -/

theorem Called.before {function : String} {res : Option String} {is js ks ls : List Asm.Instr}
    {b₁ b₂ b₃ b₄ : Body} (called : Called site function res b c is js ks ls b₁ b₂ b₃ b₄) :
    SameProcedure { b with pending := [] } b₂ :=
  (called.passed.moves (Nat.le_refl _)).sameProcedure.trans called.wrote.sameProcedure

theorem Called.after {function : String} {res : Option String} {is js ks ls : List Asm.Instr}
    {b₁ b₂ b₃ b₄ : Body} (called : Called site function res b c is js ks ls b₁ b₂ b₃ b₄) :
    SameProcedure b₃ c := by
  have forgets := called.forgets.sameProcedure
  have first : SameProcedure b₃ b₄ := ⟨forgets.function, forgets.layout, forgets.arrays, forgets.spare,
    forgets.pending, forgets.returned⟩
  cases called.answered with
  | nothing => exact first
  | result moves assigned => exact (first.trans moves.sameProcedure).trans assigned.sameProcedure

theorem KeepAll.pending {rs : List Reg} {is : List Asm.Instr} (keeps : KeepAll site rs b is c) :
    c.pending = b.pending := by
  induction keeps with
  | nil => rfl
  | cons keep _ ih => exact ih.trans keep.pending

/-- The generator lets arguments wait as the code says. -/
theorem lower_pending (consistent : Consistent b.store) (ran : lower site x b = .ok ((), c)) :
    c.pending = x.waits b.pending := by
  have sound := consistent.sound
  have computes {res : String} (straight : x.isStraight = true) (assigned : x.assigned? = some res) :
      c.pending = b.pending := by
    obtain ⟨d, is, js, effect, moves⟩ := lower_effect straight sound ran
    rw [assigned] at effect
    cases effect with
    | result before assigned =>
      exact moves.sameProcedure.pending.trans (before.sameProcedure.trans assigned.sameProcedure).pending
  cases x with
  | binary | unary | imm | load | loadInd => exact computes rfl rfl
  | copy src res =>
    obtain ⟨d, first, rest⟩ := straight_ok ran
    rcases copy_ok sound first with ⟨_, rfl⟩ | ⟨other, _⟩
    · obtain ⟨js, moves⟩ := rest sound
      exact moves.sameProcedure.pending
    · exact computes rfl (if_neg other)
  | store array index value =>
    obtain ⟨d, first, rest⟩ := straight_ok ran
    obtain ⟨is, b₁, z, mem, moves, _, rfl⟩ := storeElement_ok sound first
    obtain ⟨js, more⟩ := rest (moves.sound sound)
    exact more.sameProcedure.pending.trans moves.sameProcedure.pending
  | storeInd pointer value =>
    obtain ⟨d, first, rest⟩ := straight_ok ran
    obtain ⟨is, b₁, z, mem, moves, _, rfl⟩ := storeIndirect_ok sound first
    obtain ⟨js, more⟩ := rest (moves.sound sound)
    exact more.sameProcedure.pending.trans moves.sameProcedure.pending
  | param z =>
    obtain ⟨d, first, rest⟩ := straight_ok ran
    obtain rfl := modify_ok.mp first
    obtain ⟨js, moves⟩ := rest sound
    exact moves.sameProcedure.pending
  | call function res =>
    obtain ⟨_, _, _, _, _, _, _, _, called, _⟩ := call_ok consistent ran
    exact called.after.pending.trans (called.kept.pending.trans called.before.pending)
  | branch cond ifTrue target =>
    obtain ⟨z, is, js, b₁, b₂, located, flushed, rfl⟩ := branch_ok sound ran
    exact (located.moves.sameProcedure.trans flushed.moves.sameProcedure).pending
  | goto target =>
    obtain ⟨is, b₁, flushed, rfl⟩ := jump_ok sound ran
    exact flushed.moves.sameProcedure.pending
  | ret z =>
    obtain ⟨is, js, b₁, b₂, returned, flushed, rfl⟩ := ret_ok sound ran
    exact (returned.moves.sameProcedure.trans flushed.moves.sameProcedure).pending
  | label l =>
    obtain ⟨is, b₁, flushed, rfl⟩ := label_ok sound ran
    exact flushed.moves.sameProcedure.pending
  | nop =>
    obtain ⟨_, rfl⟩ := pure_ok.mp ran
    rfl

theorem mem_waits {ys : List Operand} {y : Operand} (waits : y ∈ x.waits ys) : y ∈ ys ∨ x = .param y := by
  cases x with
  | param z => simpa [Instr.waits, eq_comm] using waits
  | call => simp [Instr.waits] at waits
  | _ => exact .inl waits

/-! Spare words -/

/-- There is a word for every owner. -/
def Roomy (spare : SpareWords) : Prop := spare.first.toInt + spare.owners.length ≤ spare.limit.toInt

/-- The words themselves stay as they are. -/
abbrev SameWords (s t : SpareWords) : Prop := t.first = s.first ∧ t.limit = s.limit

theorem Spared.roomy {name : String} {i : Nat} (spared : Spared site b name i c) (roomy : Roomy b.spare) :
    Roomy c.spare ∧ SameWords b.spare c.spare := by
  unfold Roomy at *
  cases spared with
  | reuse => exact ⟨by simpa using roomy, rfl, rfl⟩
  | stale => exact ⟨by simpa using roomy, rfl, rfl⟩
  | new _ more =>
    have top := b.spare.limit.toInt_lt
    have bottom := b.spare.first.le_toInt
    rw [Int64.lt_iff_toInt_lt, Int64.toInt_add, Int64.toInt_ofNat',
      show Int64.size = 2 ^ 64 from rfl, Int.add_bmod_bmod,
      Int.bmod_eq_of_le (by omega) (by omega)] at more
    simp only [List.length_append, List.length_singleton]
    exact ⟨by omega, rfl, rfl⟩

theorem Keep.roomy {r : Reg} {is : List Asm.Instr} (keep : Keep site r b is c) (roomy : Roomy b.spare) :
    Roomy c.spare ∧ SameWords b.spare c.spare := by
  cases keep with
  | skip => exact ⟨roomy, rfl, rfl⟩
  | register => exact ⟨roomy, rfl, rfl⟩
  | word _ _ _ _ spared => exact spared.roomy roomy

theorem KeepAll.roomy {rs : List Reg} {is : List Asm.Instr} (keeps : KeepAll site rs b is c)
    (roomy : Roomy b.spare) : Roomy c.spare ∧ SameWords b.spare c.spare := by
  induction keeps with
  | nil => exact ⟨roomy, rfl, rfl⟩
  | cons keep _ ih =>
    obtain ⟨roomy, first, limit⟩ := keep.roomy roomy
    obtain ⟨roomy, first', limit'⟩ := ih roomy
    exact ⟨roomy, first'.trans first, limit'.trans limit⟩

theorem Called.roomy {function : String} {res : Option String} {is js ks ls : List Asm.Instr}
    {b₁ b₂ b₃ b₄ : Body} (called : Called site function res b c is js ks ls b₁ b₂ b₃ b₄)
    (roomy : Roomy b.spare) : Roomy b₃.spare ∧ SameWords b.spare b₃.spare := by
  have before : b₂.spare = b.spare := called.before.spare
  exact before ▸ called.kept.roomy (before ▸ roomy)

theorem lower_roomy (consistent : Consistent b.store) (ran : lower site x b = .ok ((), c))
    (roomy : Roomy b.spare) : Roomy c.spare ∧ SameWords b.spare c.spare := by
  by_cases calls : ∃ f res, x = .call f res
  · obtain ⟨f, res, rfl⟩ := calls
    obtain ⟨_, _, _, _, _, _, _, _, called, _⟩ := call_ok consistent ran
    rw [called.after.spare]
    exact called.roomy roomy
  · have same := (lower_marks consistent (fun f res call => calls ⟨f, res, call⟩) ran).1
    rw [same]
    exact ⟨roomy, rfl, rfl⟩

/-! Every state of the generator -/

/-- The procedure has its own frame with room for the owners of spare words, and the arguments that
wait can be passed. -/
structure Provided (table : Scope) (frames : List Frame.Layout) (b : Body) : Prop where
  symbol : table.lookup b.function.name = some b.function
  function : b.function.isFunction = true
  frame : Frame.find frames b.function.name = .ok b.layout
  limit : b.spare.limit = b.layout.localWords
  roomy : Roomy b.spare
  pending : ∀ y ∈ b.pending, y.isInRange = true

def State.Provided (table : Scope) (frames : List Frame.Layout) : State → Prop
  | .idle _ => True
  | .inside b => Codegen.Provided table frames b

theorem lower_provided {table : Scope} {frames : List Frame.Layout} (consistent : Consistent b.store)
    (range : x.isInRange = true) (ran : lower site x b = .ok ((), c)) (provided : Provided table frames b) :
    Provided table frames c := by
  obtain ⟨function, layout, _⟩ := lower_frame consistent ran
  obtain ⟨roomy, _, limit⟩ := lower_roomy consistent ran provided.roomy
  refine ⟨?_, ?_, ?_, ?_, roomy, fun y waits => ?_⟩
  · rw [function]
    exact provided.symbol
  · rw [function]
    exact provided.function
  · rw [function, layout]
    exact provided.frame
  · rw [limit, layout]
    exact provided.limit
  · rw [lower_pending consistent ran] at waits
    rcases mem_waits waits with old | rfl
    · exact provided.pending y old
    · exact range

theorem start_provided {name : String} {out : Output} {f : Symbol} {l : Frame.Layout}
    (entered : Entered site name out b f l) : Provided site.table site.frames b := by
  have named : f.name = name := by simpa using List.find?_some entered.symbol
  have room := Int64.le_iff_toInt_le.mp entered.room
  rw [entered.start]
  refine ⟨named ▸ entered.symbol, entered.function, entered.frame, rfl, ?_, fun y waits => absurd waits List.not_mem_nil⟩
  simpa [Roomy, Body.start] using room

section Runs

variable {options : Options} {table : Scope} {code : List Quad} {instrs : List Instr} {n : Nat}
variable {st : State}

theorem stateAt_provided (decoded : decodeFrom 0 code = .ok instrs) (bound : n ≤ instrs.length)
    (reached : stateAt options table code n = .ok st) :
    st.Provided table (Frame.plan options table code) := by
  refine (stateAt_positions (P := fun _ st => st.Consistent ∧
    st.Provided table (Frame.plan options table code)) decoded ⟨trivial, trivial⟩ ?_ bound reached).2
  rintro n x st st' found ⟨consistent, provided⟩ steps
  refine ⟨step_consistent consistent steps, ?_⟩
  cases step_stepped steps with
  | nop => exact provided
  | outside => trivial
  | entry _ entered =>
    obtain ⟨f, l, entered⟩ := enter_ok entered
    exact start_provided entered
  | exit => trivial
  | @lower x b c real plain lowers =>
    have range := decodeFrom_isInRange decoded x (List.mem_of_getElem? found)
    exact lower_provided (b := { b with reserved := [], returned := false }) consistent range lowers
      ⟨provided.symbol, provided.function, provided.frame, provided.limit, provided.roomy, provided.pending⟩

/-! Outgoing slots -/

/-- The procedure that the generator is in. -/
def State.caller : State → String
  | .idle _ => ""
  | .inside b => b.function.name

/-- The calls that are counted for an instruction. -/
def ownSites (table : Scope) (caller : String) : Instr → List Frame.CallSite
  | .call function _ => if caller = "" then [] else [⟨caller, Frame.arityOf table function⟩]
  | _ => []

theorem callSites_unlabelled {q : Quad} {x : Instr} (decodes : Instr.ofQuad q = .ok x)
    (unlabelled : ∀ l, x ≠ .label l) (caller : String) (rest : List Quad) :
    Frame.callSites table caller (q :: rest) =
      ownSites table caller x ++ Frame.callSites table caller rest := by
  rcases Instr.ofQuad_cases decodes with ⟨l, rfl, _⟩ | ⟨res, rfl, label, op⟩ | ⟨_, plain, label, op⟩
  · exact absurd rfl (unlabelled l)
  · by_cases nameless : caller = ""
    · simp [Frame.callSites, label, op, ownSites, nameless]
    · simp [Frame.callSites, label, op, ownSites, nameless]
  · have none : ownSites table caller x = [] := by
      cases x with
      | call f res => exact absurd rfl (plain f res)
      | _ => rfl
    simp [Frame.callSites, label, op, none]

theorem label?_of_label {q : Quad} {l : Label} (decodes : Instr.ofQuad q = .ok (.label l)) :
    q.label? = some l := by
  rcases Instr.ofQuad_cases decodes with ⟨l', same, label⟩ | ⟨_, other, _⟩ | ⟨other, _⟩
  · cases same
    exact label
  · cases other
  · exact absurd rfl (other l)

/-- The scan of the calls and the generator go from procedure to procedure together. -/
theorem step_callSites {q : Quad} {x : Instr} {st st' : State} (decodes : Instr.ofQuad q = .ok x)
    (consistent : st.Consistent) (steps : step site x st = .ok st') (rest : List Quad) :
    Frame.callSites table st.caller (q :: rest) =
      ownSites table st.caller x ++ Frame.callSites table st'.caller rest := by
  cases step_stepped steps with
  | nop => exact callSites_unlabelled decodes (by simp) _ rest
  | @outside l out plain =>
    obtain ⟨name, boundary⟩ := l
    cases plain
    simp [Frame.callSites, label?_of_label decodes, State.caller, ownSites]
  | @entry l out name b opens entered =>
    obtain ⟨_, boundary⟩ := l
    cases opens
    obtain ⟨f, l, entered⟩ := enter_ok entered
    have named : f.name = name := by simpa using List.find?_some entered.symbol
    have caller : (State.inside b).caller = name := by
      rw [entered.start]
      exact named
    simp [Frame.callSites, label?_of_label decodes, caller, ownSites]
  | @exit l b c closes left =>
    obtain ⟨_, boundary⟩ := l
    cases closes
    simp [Frame.callSites, label?_of_label decodes, State.caller, ownSites]
  | @lower x b c real plain lowers =>
    have same := lower_frame (b := { b with reserved := [], returned := false }) consistent lowers
    have caller : (State.inside c).caller = (State.inside b).caller := congrArg Symbol.name same.function
    rw [caller]
    by_cases labelled : ∃ l, x = .label l
    · obtain ⟨⟨_, boundary⟩, rfl⟩ := labelled
      cases plain _ rfl
      simp [Frame.callSites, label?_of_label decodes, ownSites]
    · exact callSites_unlabelled decodes (fun l same => labelled ⟨l, same⟩) _ rest

/-- An instruction of a procedure that calls. -/
structure CallsAt (options : Options) (table : Scope) (code : List Quad) (instrs : List Instr) (n : Nat)
    (b : Body) (function : String) : Prop where
  call : ∃ res, instrs[n]? = some (.call function res)
  reached : stateAt options table code n = .ok (.inside b)

theorem mem_ownSites {x : Instr} {caller : String} {s : Frame.CallSite} :
    s ∈ ownSites table caller x ↔
      caller ≠ "" ∧ ∃ function res, x = .call function res ∧ s = ⟨caller, Frame.arityOf table function⟩ := by
  cases x with
  | call function res =>
    by_cases nameless : caller = ""
    · simp [ownSites, nameless]
    · simp [ownSites, nameless]
  | _ => simp [ownSites]

/-- The calls of the code are those before a position, which the generator has seen, and those from
there on. -/
theorem stateAt_callSites (decoded : decodeFrom 0 code = .ok instrs) (bound : n ≤ instrs.length)
    (reached : stateAt options table code n = .ok st) :
    ∃ before, Frame.callSites table "" code = before ++ Frame.callSites table st.caller (code.drop n) ∧
      ∀ s ∈ before, ∃ m b function, CallsAt options table code instrs m b function ∧
        s = ⟨b.function.name, Frame.arityOf table function⟩ := by
  refine (stateAt_positions (P := fun n st => stateAt options table code n = .ok st ∧ ∃ before,
    Frame.callSites table "" code = before ++ Frame.callSites table st.caller (code.drop n) ∧
      ∀ s ∈ before, ∃ m b function, CallsAt options table code instrs m b function ∧
        s = ⟨b.function.name, Frame.arityOf table function⟩)
    decoded ⟨stateAt_zero decoded, [], rfl, by simp⟩ ?_ bound reached).2
  rintro n x st st' found ⟨reached, before, calls, seen⟩ steps
  refine ⟨(stateAt_succ decoded found).mpr ⟨st, reached, steps⟩, before ++ ownSites table st.caller x, ?_, ?_⟩
  · obtain ⟨q, here, decodes⟩ := decodeFrom_getElem? decoded found
    obtain ⟨inside, rfl⟩ := List.getElem?_eq_some_iff.mp here
    rw [calls, List.drop_eq_getElem_cons inside,
      step_callSites decodes (stateAt_consistent reached) steps, List.append_assoc]
  · refine List.forall_mem_append.mpr ⟨seen, fun s member => ?_⟩
    obtain ⟨named, function, res, rfl, rfl⟩ := mem_ownSites.mp member
    cases st with
    | idle out => exact absurd rfl named
    | inside b => exact ⟨n, b, function, ⟨⟨res, found⟩, reached⟩, rfl⟩

/-- A call in a procedure with a name is counted. -/
theorem CallsAt.counted {function : String} (calls : CallsAt options table code instrs n b function)
    (decoded : decodeFrom 0 code = .ok instrs) (named : b.function.name ≠ "") :
    ⟨b.function.name, Frame.arityOf table function⟩ ∈ Frame.callSites table "" code := by
  obtain ⟨res, found⟩ := calls.call
  obtain ⟨bound, _⟩ := List.getElem?_eq_some_iff.mp found
  obtain ⟨before, sites, _⟩ := stateAt_callSites decoded (Nat.le_of_lt bound) calls.reached
  obtain ⟨q, here, decodes⟩ := decodeFrom_getElem? decoded found
  obtain ⟨inside, rfl⟩ := List.getElem?_eq_some_iff.mp here
  rw [sites, List.drop_eq_getElem_cons inside, callSites_unlabelled decodes (by simp)]
  refine List.mem_append_right _ (List.mem_append_left _ ?_)
  exact mem_ownSites.mpr ⟨named, function, res, rfl, rfl⟩

theorem foldl_arity (own : List Frame.CallSite) (k : Nat) :
    k ≤ own.foldl (fun n s => max n s.arity) k ∧
    (∀ s ∈ own, s.arity ≤ own.foldl (fun n s => max n s.arity) k) ∧
    ∀ bound, k < bound → (∀ s ∈ own, s.arity < bound) → own.foldl (fun n s => max n s.arity) k < bound := by
  induction own generalizing k with
  | nil => simp
  | cons x own ih =>
    obtain ⟨start, each, below⟩ := ih (max k x.arity)
    simp only [List.foldl_cons, List.forall_mem_cons]
    refine ⟨by omega, ⟨by omega, each⟩, fun bound less others => ?_⟩
    exact below bound (by omega) others.2

theorem maxArity?_of_mem {sites : List Frame.CallSite} {site : Frame.CallSite} (member : site ∈ sites) :
    Frame.maxArity? sites site.caller =
      some ((sites.filter (·.caller = site.caller)).foldl (fun n s => max n s.arity) 0) := by
  have counted : site ∈ sites.filter (·.caller = site.caller) := by simp [member]
  unfold Frame.maxArity?
  split
  · rename_i none
    rw [none] at counted
    contradiction
  · rfl

/-- A function that calls has at least four outgoing slots, and as many as one of its callees has
parameters. -/
theorem arity_le_outgoingSlots {sites : List Frame.CallSite} {f : Symbol} {site : Frame.CallSite}
    (calls : options.assumeLeaf = false) (member : site ∈ sites) (own : site.caller = f.name)
    (few : ∀ s ∈ sites, s.arity < 2 ^ 63) :
    max 4 (site.arity : Int) ≤ (Frame.layout (Frame.demand options sites f)).outgoingSlots.toInt := by
  obtain ⟨_, each, below⟩ := foldl_arity (sites.filter (·.caller = f.name)) 0
  have most := maxArity?_of_mem member
  rw [own] at most
  have small := below (2 ^ 63) (by decide) fun s inside => few s (List.mem_filter.mp inside).1
  have large := each site (by simp [member, own])
  have leaf : (Frame.demand options sites f).leaf = false := by simp [Frame.demand, calls, most]
  have arity : (Frame.demand options sites f).maxCalleeParams =
      Int64.ofNat ((sites.filter (·.caller = f.name)).foldl (fun n s => max n s.arity) 0) := by
    simp [Frame.demand, calls, most]
  rw [Frame.toInt_outgoingSlots, leaf, arity, Int64.toInt_ofNat_of_lt small]
  simp only [Bool.false_eq_true, if_false]
  omega

theorem callSites_arity {k : Nat} (few : ∀ s ∈ table.symbols, s.params.length < k) (some : 0 < k)
    (caller : String) (code : List Quad) :
    ∀ s ∈ Frame.callSites table caller code, s.arity < k := by
  have arity (callee : String) : Frame.arityOf table callee < k := by
    unfold Frame.arityOf
    split
    · rename_i s found
      exact few s (List.mem_of_find?_eq_some found)
    · exact some
  induction code generalizing caller with
  | nil => simp [Frame.callSites]
  | cons q code ih =>
    unfold Frame.callSites
    split
    · exact ih _
    · exact ih _
    · exact ih _
    · split
      · exact List.forall_mem_cons.mpr ⟨arity _, ih _⟩
      · exact ih _

/-- The procedure has an outgoing slot for every argument of a call. -/
theorem stateAt_outgoing {function : String} {res : Option String}
    (decoded : decodeFrom 0 code = .ok instrs) (found : instrs[n]? = some (.call function res))
    (reached : stateAt options table code n = .ok (.inside b)) (calls : options.assumeLeaf = false)
    (named : b.function.name ≠ "") (few : ∀ s ∈ table.symbols, s.params.length < 2 ^ 63) :
    max 4 (Frame.arityOf table function : Int) ≤ b.layout.outgoingSlots.toInt := by
  obtain ⟨bound, _⟩ := List.getElem?_eq_some_iff.mp found
  have provided : (State.inside b).Provided table (Frame.plan options table code) :=
    stateAt_provided decoded (Nat.le_of_lt bound) reached
  have callsAt : CallsAt options table code instrs n b function := ⟨⟨res, found⟩, reached⟩
  obtain ⟨f, own, layout⟩ := Frame.find_plan provided.frame
  rw [layout]
  exact arity_le_outgoingSlots calls (callsAt.counted decoded named) own.symm
    (callSites_arity few (by decide) "" code)

end Runs

end Codegen

end ThreeAddress
