import ThreeAddress.Proofs.Separation
import ThreeAddress.Proofs.Spelling

/-! Code that compiles is a sequence of plain labels, empty instructions and procedures. Code of that form
never brings the generator out of order. -/
namespace ThreeAddress

namespace Quad

/-- Quads that bear their positions. -/
def Numbered (code : List Quad) : Prop := ∀ (i : Nat) (q : Quad), code[i]? = some q → q.index = i

/-- What a label says about procedures. -/
def boundary? (q : Quad) : Option Boundary := q.label?.map Label.boundary

/-- The quad does nothing. -/
def isNop (q : Quad) : Bool := q.op = "nop" || q.op = "alloc" || q.op = "alloc_global"

/-- Plain labels, empty instructions and procedures. A procedure starts and ends with labels of the same
function, with no such label between them. -/
inductive Bracketed : List Quad → Prop
  | nil : Bracketed []
  | label {q : Quad} {rest : List Quad} : q.boundary? = some .plain → Bracketed rest → Bracketed (q :: rest)
  | nop {q : Quad} {rest : List Quad} : q.isNop = true → Bracketed rest → Bracketed (q :: rest)
  | procedure {f : String} {entry exit : Quad} {body rest : List Quad} :
      entry.boundary? = some (.entry f) → (∀ q ∈ body, q.isBoundary = false) →
      exit.boundary? = some (.exit f) → Bracketed rest → Bracketed (entry :: body ++ exit :: rest)

/-- The code first closes the procedure that it starts in. -/
inductive Closes (f : String) : List Quad → Prop
  | exit {q : Quad} {rest : List Quad} : q.boundary? = some (.exit f) → Bracketed rest → Closes f (q :: rest)
  | inner {q : Quad} {rest : List Quad} : q.isBoundary = false → Closes f rest → Closes f (q :: rest)

theorem Closes.of_body {f : String} {exit : Quad} {body rest : List Quad}
    (inner : ∀ q ∈ body, q.isBoundary = false) (closing : exit.boundary? = some (.exit f))
    (bracketed : Bracketed rest) : Closes f (body ++ exit :: rest) := by
  induction body with
  | nil => exact .exit closing bracketed
  | cons q body ih =>
    obtain ⟨here, others⟩ := List.forall_mem_cons.mp inner
    exact .inner here (ih others)

theorem Closes.bracketed {f : String} {code : List Quad} (closes : Closes f code) {entry : Quad}
    (opening : entry.boundary? = some (.entry f)) : Bracketed (entry :: code) := by
  suffices parts : ∃ body exit rest, code = body ++ exit :: rest ∧ (∀ q ∈ body, q.isBoundary = false) ∧
      exit.boundary? = some (.exit f) ∧ Bracketed rest by
    obtain ⟨body, exit, rest, rfl, inner, closing, bracketed⟩ := parts
    exact .procedure opening inner closing bracketed
  induction closes with
  | @exit q rest closing bracketed => exact ⟨[], q, rest, rfl, by simp, closing, bracketed⟩
  | @inner q rest here _ ih =>
    obtain ⟨body, exit, rest, rfl, inner, closing, bracketed⟩ := ih
    exact ⟨q :: body, exit, rest, rfl, List.forall_mem_cons.mpr ⟨here, inner⟩, closing, bracketed⟩

theorem isBoundary_eq (q : Quad) : q.isBoundary = (q.boundary?.any (· ≠ .plain)) := by
  unfold isBoundary boundary?
  cases q.label? <;> rfl

theorem boundary?_of_entry? {q : Quad} {f : String} (opens : q.entry? = some f) :
    q.boundary? = some (.entry f) := by
  unfold entry? at opens
  split at opens
  · rename_i label
    rw [boundary?, label, ← Option.some.inj opens]
    rfl
  · cases opens

end Quad

/-! Decoded labels and empty instructions -/

namespace Instr

def boundary? : Instr → Option Boundary
  | .label l => some l.boundary
  | _ => none

theorem boundary?_of_read {q : Quad} {x : Instr} (read : ofQuad q = .ok x) : q.boundary? = x.boundary? := by
  rcases ofQuad_cases read with ⟨l, rfl, label⟩ | ⟨res, rfl, label, _⟩ | ⟨plain, _, label, _⟩
  · rw [Quad.boundary?, label]
    rfl
  · rw [Quad.boundary?, label]
    rfl
  · rw [Quad.boundary?, label]
    cases x with
    | label l => exact absurd rfl (plain l)
    | _ => rfl

theorem label_of_boundary? {x : Instr} {boundary : Boundary} (labels : x.boundary? = some boundary) :
    ∃ l, x = .label l ∧ l.boundary = boundary := by
  cases x with
  | label l => exact ⟨l, rfl, Option.some.inj labels⟩
  | _ => cases labels

theorem eq_nop_of_read {q : Quad} {x : Instr} (read : ofQuad q = .ok x) (isNop : q.isNop = true) :
    x = .nop := by
  obtain ⟨_, _, read⟩ := Codegen.except_bind_ok.mp read
  simp only [Quad.isNop, Bool.or_eq_true, decide_eq_true_eq] at isNop
  rcases isNop with (op | op) | op
  all_goals
    simp only [ofOpcode, op] at read
    exact (Except.ok.inj read).symm

theorem ofOperation_ne_nop {q : Quad} : ofOperation q ≠ .ok .nop := by
  intro read
  unfold ofOperation at read
  split at read
  · simp only [Codegen.except_bind_ok] at read
    obtain ⟨_, _, _, _, same⟩ := read
    cases same
  · split at read
    · simp only [Codegen.except_bind_ok] at read
      obtain ⟨_, _, _, _, same⟩ := read
      cases same
    · simp [fail] at read

theorem isNop_of_read {q : Quad} (read : ofQuad q = .ok .nop) : q.isNop = true := by
  obtain ⟨_, _, read⟩ := Codegen.except_bind_ok.mp read
  unfold ofOpcode at read
  split at read
  · obtain ⟨_, _, read⟩ := Codegen.except_bind_ok.mp read
    split at read <;> cases read
  all_goals first
    | exact absurd read ofOperation_ne_nop
    | (rename_i op
       simp [Quad.isNop, op]
       done)
    | (simp only [Codegen.except_bind_ok] at read
       obtain ⟨_, _, _, _, same⟩ := read
       cases same)
    | (simp only [Codegen.except_bind_ok] at read
       obtain ⟨_, _, same⟩ := read
       cases same)
    | cases read

end Instr

namespace Codegen

variable {site : Site} {st st' : State} {q : Quad} {x : Instr} {code : List Quad}

/-- The code closes the procedure that the generator is in and is well bracketed otherwise. -/
def State.Awaits : State → List Quad → Prop
  | .idle _, code => Quad.Bracketed code
  | .inside b, code => Quad.Closes b.function.name code

/-- The name is that of a function. -/
def IsFunction (table : Scope) (name : String) : Prop := ∃ f, table.lookup name = some f ∧ f.isFunction = true

theorem Entered.named {name : String} {out : Output} {b : Body} {f : Symbol} {l : Frame.Layout}
    (entered : Entered site name out b f l) : b.function.name = name := by
  have named : f.name = name := by simpa using List.find?_some entered.symbol
  rw [entered.start]
  exact named

/-- A step leads to what is awaited only from what is awaited. -/
theorem State.Awaits.of_step (read : Instr.ofQuad q = .ok x) (consistent : st.Consistent)
    (steps : step site x st = .ok st') (awaits : st'.Awaits code) : st.Awaits (q :: code) := by
  have boundary := Instr.boundary?_of_read read
  cases step_stepped steps with
  | nop =>
    cases st with
    | idle out => exact .nop (Instr.isNop_of_read read) awaits
    | inside b =>
      refine .inner ?_ awaits
      rw [Quad.isBoundary_eq, boundary]
      rfl
  | outside plain =>
    rw [Instr.boundary?, plain] at boundary
    exact .label boundary awaits
  | entry opening entered =>
    rw [Instr.boundary?, opening] at boundary
    obtain ⟨f, l, entered⟩ := enter_ok entered
    exact Quad.Closes.bracketed (entered.named ▸ awaits) boundary
  | exit closing left =>
    rw [Instr.boundary?, closing] at boundary
    exact .exit boundary awaits
  | @lower x b c real plain lowers =>
    have function := (lower_frame (b := { b with reserved := [], returned := false }) consistent lowers).function
    have inner : q.isBoundary = false := by
      rw [Quad.isBoundary_eq, boundary]
      cases x with
      | label l => simp [Instr.boundary?, plain l rfl]
      | _ => rfl
    have closes : Quad.Closes b.function.name code := by
      have closes : Quad.Closes c.function.name code := awaits
      rwa [function] at closes
    exact .inner inner closes

/-- A procedure is opened only of a function. -/
theorem isFunction_of_step {f : String} (read : Instr.ofQuad q = .ok x) (steps : step site x st = .ok st')
    (opens : q.boundary? = some (.entry f)) : IsFunction site.table f := by
  rw [Instr.boundary?_of_read read] at opens
  cases step_stepped steps with
  | nop => cases opens
  | outside plain => simp [Instr.boundary?, plain] at opens
  | @entry l out name b opening entered =>
    have same : name = f := by simpa [Instr.boundary?, opening] using opens
    obtain ⟨g, l, entered⟩ := enter_ok entered
    exact ⟨g, same ▸ entered.symbol, entered.function⟩
  | exit closing left => simp [Instr.boundary?, closing] at opens
  | @lower x b c real plain lowers =>
    cases x with
    | label l => simp [Instr.boundary?, plain l rfl] at opens
    | _ => cases opens

/-- A run that ends outside of procedures was over code that the first state awaits. -/
theorem runFrom_awaits {options : Options} {table : Scope} {frames : List Frame.Layout} {start : Nat}
    {instrs : List Instr} {out : Output} (consistent : st.Consistent)
    (decoded : decodeFrom start code = .ok instrs)
    (ran : runFrom options table frames start code instrs st = .ok (.idle out)) :
    st.Awaits code ∧ ∀ f ∈ Quad.entries code, IsFunction table f := by
  induction code generalizing start instrs st with
  | nil =>
    cases Except.ok.inj decoded
    cases Except.ok.inj ran
    exact ⟨.nil, by simp [Quad.entries]⟩
  | cons q code ih =>
    obtain ⟨_, x, xs, read, rest, rfl⟩ := decodeFrom_cons_ok.mp decoded
    obtain ⟨st', stepped, ran⟩ := except_bind_ok.mp ran
    have steps := inContext_ok.mp stepped
    obtain ⟨awaits, functions⟩ := ih (step_consistent consistent steps) rest ran
    refine ⟨awaits.of_step read consistent steps, fun f opened => ?_⟩
    obtain ⟨p, member, opens⟩ := List.mem_filterMap.mp opened
    rcases List.mem_cons.mp member with rfl | later
    · exact isFunction_of_step read steps (Quad.boundary?_of_entry? opens)
    · exact functions f (List.mem_filterMap.mpr ⟨p, later, opens⟩)

/-! The generator in order -/

/-- A success of the kind that is described, or a failure that is not about the order of the code. -/
inductive Orderly {α : Type} (P : α → Prop) : Except Error α → Prop
  | ok {a : α} : P a → Orderly P (.ok a)
  | error {e : Error} : e.kind ≠ .state → Orderly P (.error e)

theorem Orderly.bind {α β : Type} {P : α → Prop} {Q : β → Prop} {x : Except Error α}
    {f : α → Except Error β} (first : Orderly P x) (rest : ∀ a, x = .ok a → P a → Orderly Q (f a)) :
    Orderly Q (x >>= f) := by
  cases first with
  | error kind => exact .error kind
  | ok holds => exact rest _ rfl holds

theorem Orderly.inContext {α : Type} {P : α → Prop} {x : Except Error α} (orderly : Orderly P x)
    (c : Context) : Orderly P (ThreeAddress.inContext c x) := by
  cases orderly with
  | error kind => exact .error kind
  | ok holds => exact .ok holds

theorem Orderly.of_errors {α : Type} {P : α → Prop} {x : Except Error α}
    (failed : ∀ e, x = .error e → e.kind ≠ .state) (ran : ∀ a, x = .ok a → P a) : Orderly P x := by
  cases x with
  | error e => exact .error (failed e rfl)
  | ok a => exact .ok (ran a rfl)

theorem ne_state_of_inner {e : Error} (inner : e.kind.isInner = true) : e.kind ≠ .state := by
  intro kind
  rw [kind] at inner
  cases inner

theorem enter_orderly (site : Site) (name : String) (out : Output) :
    Orderly (fun b => b.function.name = name) (enter site name out) := by
  apply Orderly.of_errors
  · intro e failed kind
    unfold enter at failed
    split at failed
    · cases failed
      cases kind
    · split at failed
      · cases failed
        cases kind
      · rename_i f _ _
        cases found : Frame.find site.frames f.name with
        | error e' =>
          rw [found] at failed
          cases failed
          exact ne_state_of_inner (find_inner site.frames f.name e found) kind
        | ok l =>
          simp only [found, bind, Except.bind] at failed
          split at failed
          · cases failed
            cases kind
          · cases failed
  · intro b entered
    obtain ⟨f, l, entered⟩ := enter_ok entered
    exact entered.named

theorem advance_orderly {b : Body} (consistent : Consistent b.store) (x : Instr) :
    Orderly (fun c => c.function = b.function) (b.advance (lower site x)) := by
  apply Orderly.of_errors
  · intro e failed
    cases lowered : lower site x { b with reserved := [], returned := false } with
    | ok p => simp [Body.advance, lowered, bind, Except.bind, pure, Except.pure] at failed
    | error e' =>
      simp only [Body.advance, lowered, bind, Except.bind, Except.error.injEq] at failed
      exact failed ▸ ne_state_of_inner (lower_inner lowered)
  · intro c advanced
    exact (lower_frame (b := { b with reserved := [], returned := false }) consistent
      (advance_ok.mp advanced)).function

theorem step_inside {b : Body} (real : x ≠ .nop) (plain : ∀ l, x = .label l → l.boundary = .plain) :
    step site x (.inside b) = (do return .inside (← b.advance (lower site x))) := by
  cases x with
  | nop => exact absurd rfl real
  | label l => simp [step, stepLabel, plain l rfl]
  | _ => rfl

/-- A step over the code that is awaited leads to a state that awaits the rest of the code. -/
theorem step_orderly (read : Instr.ofQuad q = .ok x) (consistent : st.Consistent)
    (awaits : st.Awaits (q :: code)) : Orderly (·.Awaits code) (step site x st) := by
  have boundary := Instr.boundary?_of_read read
  cases st with
  | idle out =>
    have bracketed : Quad.Bracketed (q :: code) := awaits
    cases bracketed with
    | label plain rest =>
      obtain ⟨l, rfl, plain⟩ := Instr.label_of_boundary? (boundary.symm.trans plain)
      simp only [step, stepLabel, plain]
      exact .ok rest
    | nop isNop rest =>
      rw [Instr.eq_nop_of_read read isNop]
      exact .ok rest
    | procedure opening inner closing rest =>
      obtain ⟨l, rfl, opening⟩ := Instr.label_of_boundary? (boundary.symm.trans opening)
      simp only [step, stepLabel, opening]
      refine (enter_orderly site _ out).bind fun b _ named => .ok ?_
      exact .of_body inner (named ▸ closing) rest
  | inside b =>
    have closes : Quad.Closes b.function.name (q :: code) := awaits
    cases closes with
    | exit closing rest =>
      obtain ⟨l, rfl, closing⟩ := Instr.label_of_boundary? (boundary.symm.trans closing)
      simp only [step, stepLabel, closing, ne_eq, not_true_eq_false, if_false]
      apply Orderly.bind (P := fun _ => True)
      · exact .of_errors (fun e failed => ne_state_of_inner (leave_inner failed)) fun _ _ => trivial
      · exact fun _ _ _ => .ok rest
    | inner inside rest =>
      by_cases empty : x = .nop
      · rw [empty]
        exact .ok rest
      have plain (l : Label) (same : x = .label l) : l.boundary = .plain := by
        rw [Quad.isBoundary_eq, boundary, same] at inside
        simpa [Instr.boundary?] using inside
      rw [step_inside empty plain]
      refine (advance_orderly consistent x).bind fun c _ function => .ok ?_
      have closes : Quad.Closes c.function.name code := by
        rw [function]
        exact rest
      exact closes

theorem runFrom_orderly {options : Options} {table : Scope} {frames : List Frame.Layout} {start : Nat}
    {instrs : List Instr} (decoded : decodeFrom start code = .ok instrs) (consistent : st.Consistent)
    (awaits : st.Awaits code) :
    Orderly (fun st' => ∃ out, st' = .idle out) (runFrom options table frames start code instrs st) := by
  induction code generalizing start instrs st with
  | nil =>
    cases st with
    | idle out => exact .ok ⟨out, rfl⟩
    | inside b => cases (awaits : Quad.Closes b.function.name [])
  | cons q code ih =>
    obtain ⟨_, x, xs, read, rest, rfl⟩ := decodeFrom_cons_ok.mp decoded
    refine ((step_orderly read consistent awaits).inContext _).bind fun st' stepped awaits => ?_
    exact ih rest (step_consistent consistent (inContext_ok.mp stepped)) awaits

/-! Numbered code -/

theorem decodeFrom_index {start : Nat} {instrs : List Instr} (decoded : decodeFrom start code = .ok instrs)
    (i : Nat) (found : code[i]? = some q) : q.index = (start + i : Nat) := by
  induction code generalizing start instrs i with
  | nil => cases found
  | cons p code ih =>
    obtain ⟨index, x, xs, _, rest, rfl⟩ := decodeFrom_cons_ok.mp decoded
    cases i with
    | zero =>
      cases Option.some.inj found
      exact index
    | succ i =>
      rw [ih rest i found, Nat.add_right_comm]
      rfl

theorem decodeFrom_orderly {start : Nat}
    (numbered : ∀ (i : Nat) (q : Quad), code[i]? = some q → q.index = (start + i : Nat)) :
    Orderly (fun _ => True) (decodeFrom start code) := by
  induction code generalizing start with
  | nil => exact .ok trivial
  | cons q code ih =>
    have index : q.index = start := numbered 0 q rfl
    rw [decodeFrom, if_neg (not_not_intro index)]
    have reads : Orderly (fun _ => True) (Instr.ofQuad q) := by
      refine .of_errors (fun e failed kind => ?_) fun _ _ => trivial
      rcases Instr.ofQuad_misread failed with other | other <;> rw [other] at kind <;> cases kind
    refine (reads.inContext _).bind fun x _ _ => Orderly.bind (P := fun _ => True) (ih ?_) fun xs _ _ => .ok trivial
    intro i q found
    rw [numbered (i + 1) q found, Nat.add_right_comm]
    rfl

/-- Code that compiles is numbered and well bracketed, and its procedures are functions of the table.
Numbered and well bracketed code does not fail for its order. -/
theorem compile_bracketed (options : Options) (table : Scope) (code : List Quad) :
    (∀ listing, compile options table code = .ok listing →
      Quad.Numbered code ∧ Quad.Bracketed code ∧ ∀ f ∈ Quad.entries code, IsFunction table f) ∧
    (Quad.Numbered code → Quad.Bracketed code →
      ∀ e, compile options table code = .error e → e.kind ≠ .state) := by
  have start : (State.idle { lines := (header table).toArray }).Consistent := trivial
  constructor
  · intro listing compiled
    obtain ⟨instrs, decoded, ran⟩ := except_bind_ok.mp compiled
    obtain ⟨st, ran, ended⟩ := except_bind_ok.mp ran
    cases st with
    | inside b => cases ended
    | idle out =>
      have run := runFrom_awaits start decoded ran
      refine ⟨fun i q found => ?_, run.1, run.2⟩
      rw [decodeFrom_index decoded i found, Nat.zero_add]
  · intro numbered bracketed
    have orderly : Orderly (fun _ => True) (compile options table code) := by
      apply Orderly.bind (P := fun _ => True)
      · apply decodeFrom_orderly
        intro i q found
        rw [numbered i q found, Nat.zero_add]
      · intro instrs decoded _
        refine (runFrom_orderly decoded start bracketed).bind ?_
        rintro _ _ ⟨out, rfl⟩
        exact .ok trivial
    intro e failed
    rw [failed] at orderly
    cases orderly with
    | error kind => exact kind

/-- The table of a program does not matter for the order of its code. -/
theorem compile_bracketed_caller :
    (∃ listing, compile {} pairTable callerCode = .ok listing) ∧
    Quad.Numbered callerCode ∧ Quad.Bracketed callerCode ∧ IsFunction pairTable "f" ∧
    ∃ e, compile {} {} callerCode = .error e ∧ e.kind ≠ .state := by
  have accepted : (compile {} pairTable callerCode).toOption.isSome = true := by decide +kernel
  have refused : (compile {} {} callerCode).toOption = none := by decide +kernel
  obtain ⟨listing, compiled⟩ := Option.isSome_iff_exists.mp accepted
  have compiled := eq_ok_of_toOption compiled
  obtain ⟨numbered, bracketed, functions⟩ := (compile_bracketed {} pairTable callerCode).1 listing compiled
  refine ⟨⟨listing, compiled⟩, numbered, bracketed, functions "f" (by decide), ?_⟩
  cases failed : compile {} {} callerCode with
  | ok other =>
    rw [failed] at refused
    cases refused
  | error e => exact ⟨e, rfl, (compile_bracketed {} {} callerCode).2 numbered bracketed e failed⟩

end Codegen

end ThreeAddress
