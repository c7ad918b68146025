import ThreeAddress.Proofs.Strictness
import ThreeAddress.Proofs.Temporaries

/-! What a call passes. An argument waits as an operand and is fetched by the code of the call, so the callee gets
the value that the operand has there. This is the value that it had where it began to wait, unless it is assigned
in between. -/
namespace ThreeAddress

open Codegen (Activation Env)

variable {A : Activation} {body : List Instr} {k j : Nat} {given : String → Word → Prop} {env env' : Env} {x : Instr}

/-- An instruction that takes control to the next one and does not call. -/
def Instr.IsLinear (x : Instr) : Prop := x.isStraight = true ∨ x = .nop

theorem Instr.Yields.assigns (yields : x.Yields A.place body k given env j env') (linear : x.IsLinear) :
    env.Assigns A x.assigned? env' := by
  cases yields with
  | runs runs =>
    cases x with
    | binary =>
      obtain ⟨w, _, same⟩ := Option.map_eq_some_iff.mp runs
      cases same
      exact ⟨w, rfl⟩
    | unary | imm =>
      cases runs
      exact ⟨_, rfl⟩
    | copy src res =>
      cases runs
      by_cases same : src = res
      · subst same
        simp only [assigned?, if_true]
        funext q
        by_cases here : q = A.place src
        · rw [here, Env.set_same]
        · exact Env.set_other env here _
      · simp only [assigned?, same, if_false]
        exact ⟨_, rfl⟩
    | nop =>
      cases runs
      rfl
    | load | store | loadInd | storeInd | param | call => cases runs
    | branch | goto | label | ret => simp [IsLinear, Instr.isStraight] at linear
  | load | loadInd => exact ⟨_, rfl⟩
  | store | storeInd | param => rfl
  | call => simp [IsLinear, Instr.isStraight] at linear

end ThreeAddress

namespace ThreeAddress.Codegen

open Descriptor (Store Var Entry)

variable {A : Activation} {options : Options} {table : Scope} {code : List Quad} {instrs : List Instr}
variable {p k n : Nat} {b c d : Body} {is js : List Asm.Instr} {env env' : Env} {m m' : Machine} {x : Instr}

/-- Code that is run to its end is run part by part. -/
theorem Activation.Executes.split (executes : A.Executes (is ++ js) m none m') :
    ∃ m₁, A.Executes is m none m₁ ∧ A.Executes js m₁ none m' := by
  induction is generalizing m with
  | nil => exact ⟨m, .done, executes⟩
  | cons i is ih =>
    cases executes with
    | next exec spares rest =>
      obtain ⟨m₁, first, later⟩ := ih rest
      exact ⟨m₁, .next exec spares first, later⟩
    | call respects rest =>
      obtain ⟨m₁, first, later⟩ := ih rest
      exact ⟨m₁, .call respects first, later⟩
    | pass branch stays rest =>
      obtain ⟨m₁, first, later⟩ := ih rest
      exact ⟨m₁, .pass branch stays first, later⟩

/-- What is not assigned keeps its value. -/
theorem Env.Assigns.keeps {res : Option String} {name : String} (assigns : env.Assigns A res env')
    (other : res ≠ some name) : env' (A.place name) = env (A.place name) := by
  cases res with
  | none => rw [show env' = env from assigns]
  | some res =>
    obtain ⟨w, rfl⟩ := assigns
    exact Env.set_other env (fun same => other (congrArg some (placeOf_injective same).symm)) w

section Crossing

variable (options : Options) (table : Scope) (code : List Quad) (instrs : List Instr) (A : Activation)

/-- The machine runs the code of the instructions from one position to another, and the values become what the
instructions say. A load gives the word that the machine has for its result, and an instruction with a warning may
give any. -/
inductive Crosses (p : Nat) (env : Env) (m : Machine) : Nat → Env → Machine → Prop
  | start : Crosses p env m p env m
  | step {k : Nat} {x : Instr} {b c : Body} {is : List Asm.Instr} {env₁ env₂ : Env} {m₁ m₂ : Machine} :
      Crosses p env m k env₁ m₁ → instrs[k]? = some x →
      stateAt options table code k = .ok (.inside b) → stateAt options table code (k + 1) = .ok (.inside c) →
      Emits b is c → A.Executes is m₁ none m₂ → env₁.Assigns A x.assigned? env₂ →
      (c.out.warnings.size ≤ b.out.warnings.size →
        x.Yields A.place instrs k (A.Finds c.store m₂) env₁ (k + 1) env₂) →
      Crosses p env m (k + 1) env₂ m₂

end Crossing

theorem Crosses.le (crosses : Crosses options table code instrs A p env m n env' m') : p ≤ n := by
  induction crosses with
  | start => exact Nat.le_refl p
  | step _ _ _ _ _ _ _ _ ih => omega

/-- What no instruction on the way assigns keeps its value. -/
theorem Crosses.keeps {name : String} (crosses : Crosses options table code instrs A p env m n env' m')
    (other : ∀ k x, p ≤ k → k < n → instrs[k]? = some x → x.assigned? ≠ some name) :
    env' (A.place name) = env (A.place name) := by
  induction crosses with
  | start => rfl
  | @step k x _ _ _ _ _ _ _ before found _ _ _ _ assigns _ ih =>
    rw [assigns.keeps (other k x before.le (Nat.lt_succ_self k) found)]
    exact ih fun j y after less => other j y after (Nat.lt_succ_of_lt less)

/-- The instructions from one position up to another are linear. -/
def Linear (instrs : List Instr) (p n : Nat) : Prop :=
  ∀ k x, p ≤ k → k < n → instrs[k]? = some x → x.IsLinear

theorem Linear.init (linear : Linear instrs p (n + 1)) : Linear instrs p n :=
  fun k x first less => linear k x first (Nat.lt_succ_of_lt less)

theorem Linear.last (linear : Linear instrs p (n + 1)) (first : p ≤ n) (found : instrs[n]? = some x) : x.IsLinear :=
  linear n x first (Nat.lt_succ_self n) found

theorem Linear.cons (linear : Linear instrs (p + 1) n) (found : instrs[p]? = some x) (here : x.IsLinear) :
    Linear instrs p n := by
  intro k y first less there
  rcases Nat.eq_or_lt_of_le first with rfl | after
  · cases found.symm.trans there
    exact here
  · exact linear k y after less there

/-- What instructions that do not call leave as it is, and what they only add to. -/
structure Stretch (b : Body) (is : List Asm.Instr) (c : Body) : Prop where
  emits : Emits b is c
  frame : SameFrame b c
  waits : b.pending <+: c.pending

theorem Stretch.refl (b : Body) : Stretch b [] b :=
  ⟨by simp [Emits], ⟨rfl, rfl, rfl⟩, List.prefix_rfl⟩

theorem Stretch.trans (first : Stretch b is c) (second : Stretch c js d) : Stretch b (is ++ js) d :=
  ⟨first.emits.trans second.emits, first.frame.trans second.frame, first.waits.trans second.waits⟩

section Runs

variable {data : Data} {sp : Word}

/-- Before and behind a linear instruction the generator is inside of the same procedure. -/
theorem stateAt_linear (decoded : decodeFrom 0 code = .ok instrs) (found : instrs[k]? = some x) (linear : x.IsLinear)
    (accepted : stateAt options table code (k + 1) = .ok (.inside c)) :
    ∃ b is, stateAt options table code k = .ok (.inside b) ∧ Stretch b is c := by
  obtain ⟨st, reached, steps⟩ := (stateAt_succ decoded found).mp accepted
  have consistent := stateAt_consistent reached
  cases step_stepped steps with
  | nop => exact ⟨c, [], reached, .refl c⟩
  | entry => simp [Instr.IsLinear, Instr.isStraight] at linear
  | @lower _ b _ real _ lowers =>
    have consistent : Consistent b.store := consistent
    have straight := linear.resolve_right real
    obtain ⟨d, is, js, effect, moves⟩ :=
      lower_effect (b := { b with reserved := [], returned := false }) straight consistent.sound lowers
    obtain ⟨function, layout, arrays⟩ :=
      lower_frame (b := { b with reserved := [], returned := false }) consistent lowers
    refine ⟨b, is ++ js, reached, effect.emits.trans moves.lines, ⟨function, layout, arrays⟩, ?_⟩
    rw [lower_pending (b := { b with reserved := [], returned := false }) consistent lowers]
    cases x with
    | param y => exact List.prefix_append _ _
    | call => simp [Instr.isStraight] at straight
    | _ => exact List.prefix_rfl

theorem stateAt_stretch (decoded : decodeFrom 0 code = .ok instrs)
    (reached : stateAt options table code p = .ok (.inside b)) (first : p ≤ n) (bound : n ≤ instrs.length)
    (linear : Linear instrs p n) (accepted : stateAt options table code n = .ok (.inside c)) :
    ∃ is, Stretch b is c := by
  induction n, first using Nat.le_induction generalizing c with
  | base =>
    cases reached.symm.trans accepted
    exact ⟨[], .refl b⟩
  | succ n first ih =>
    have found := List.getElem?_eq_getElem bound
    obtain ⟨d, js, before, last⟩ := stateAt_linear decoded found (linear.last first found) accepted
    obtain ⟨is, stretch⟩ := ih (Nat.le_of_lt bound) linear.init before
    exact ⟨is ++ js, stretch.trans last⟩

/-- The activation of a procedure is the same at all of its positions. -/
theorem Stretch.whole (stretch : Stretch b is c) (whole : A = .whole data table b.function b.layout sp) :
    A = .whole data table c.function c.layout sp := by
  rw [stretch.frame.function, stretch.frame.layout]
  exact whole

/-- The code of a linear instruction does what the instruction says. -/
theorem stateAt_yields (decoded : decodeFrom 0 code = .ok instrs) (found : instrs[k]? = some x) (linear : x.IsLinear)
    (reached : stateAt options table code k = .ok (.inside b))
    (accepted : stateAt options table code (k + 1) = .ok (.inside c)) (stretch : Stretch b is c)
    (whole : A = .whole data table b.function b.layout sp) (placed : A.Placed)
    (agrees : Agrees A everything b.store env m) (executes : A.Executes is m none m') :
    ∃ env', env.Assigns A x.assigned? env' ∧
      (c.out.warnings.size ≤ b.out.warnings.size →
        x.Yields A.place instrs k (A.Finds c.store m') env (k + 1) env') ∧
      Agrees A everything c.store env' m' := by
  obtain ⟨bound, _⟩ := List.getElem?_eq_some_iff.mp found
  obtain ⟨_, before, steps⟩ := (stateAt_succ decoded found).mp accepted
  cases reached.symm.trans before
  cases step_stepped steps with
  | nop =>
    cases stretch.emits.unique (Stretch.refl b).emits
    cases executes
    exact ⟨env, rfl, fun _ => .runs rfl, agrees⟩
  | lower real _ lowers =>
    have straight := linear.resolve_right real
    have consistent : Consistent b.store := stateAt_consistent reached
    have after : Consistent c.store := stateAt_consistent accepted
    have range : x.isInRange = true := decodeFrom_isInRange decoded x (List.mem_of_getElem? found)
    have suits : Suits A (siteAt options table code k) { b with reserved := [], returned := false } := by
      subst whole
      exact (stateAt_suits decoded (Nat.le_of_lt bound) reached placed k).advance
    have suits' : Suits A (siteAt options table code k) c := by
      have same := stretch.whole whole
      subst same
      exact stateAt_suits decoded bound accepted placed k
    by_cases quiet : c.out.warnings.size ≤ b.out.warnings.size
    · -- without a warning the step is the one of strict mode, where every operand has its value
      have strictly : Suits A (siteAt options table code k).strictly { b with reserved := [], returned := false } :=
        ⟨suits.table, suits.function, suits.layout, suits.few, suits.sound, suits.housed, suits.separate⟩
      obtain ⟨env', agrees', _, yields⟩ := straight_proceeds rfl straight strictly consistent range
        (fun _ _ => trivial) agrees (lower_strictly lowers quiet) stretch.emits executes
      have agrees' : Agrees A everything c.store env' m' := agrees'.narrow fun _ _ => .inr trivial
      have yields := yields (k + 1) rfl
      refine ⟨env', yields.assigns linear, fun _ => yields.mono ?_, agrees'⟩
      rintro name w ⟨_, knows, rfl⟩
      exact agrees'.finds suits' after.kept knows trivial
    · obtain ⟨d, is', js, effect, moves⟩ := lower_effect straight suits.sound lowers
      cases stretch.emits.unique (effect.emits.trans moves.lines)
      obtain ⟨env', m₁, later, assigns, suits₁, agrees₁⟩ := effect.executes suits agrees executes
      rw [← List.append_nil js] at later
      obtain ⟨m₂, last, agrees₂, _⟩ := moves.executes suits₁ (Nat.zero_le _) agrees₁ later
      cases last
      exact ⟨env', assigns, fun silent => absurd silent quiet, agrees₂.narrow fun _ _ => .inr trivial⟩

/-- The code of linear instructions does what the instructions say, one after the other. -/
theorem stateAt_crosses (decoded : decodeFrom 0 code = .ok instrs)
    (reached : stateAt options table code p = .ok (.inside b)) (first : p ≤ n) (bound : n ≤ instrs.length)
    (linear : Linear instrs p n) (accepted : stateAt options table code n = .ok (.inside c))
    (whole : A = .whole data table b.function b.layout sp) (placed : A.Placed)
    (agrees : Agrees A everything b.store env m) (emits : Emits b is c) (executes : A.Executes is m none m') :
    ∃ env', Crosses options table code instrs A p env m n env' m' ∧ Agrees A everything c.store env' m' := by
  induction n, first using Nat.le_induction generalizing c is m' with
  | base =>
    cases reached.symm.trans accepted
    cases emits.unique (Stretch.refl b).emits
    cases executes
    exact ⟨env, .start, agrees⟩
  | succ n first ih =>
    have found := List.getElem?_eq_getElem bound
    have here := linear.last first found
    -- the code is that of the instructions before the last one and that of the last one
    obtain ⟨d, js, before, last⟩ := stateAt_linear decoded found here accepted
    obtain ⟨is', stretch⟩ := stateAt_stretch decoded reached first (Nat.le_of_lt bound) linear.init before
    cases emits.unique (stretch.trans last).emits
    obtain ⟨m₁, ran, runs⟩ := executes.split
    obtain ⟨env₁, crosses, agrees₁⟩ := ih (Nat.le_of_lt bound) linear.init before stretch.emits ran
    obtain ⟨env', assigns, yields, agrees'⟩ :=
      stateAt_yields decoded found here before accepted last (stretch.whole whole) placed agrees₁ runs
    exact ⟨env', .step crosses found before accepted last.emits runs assigns yields, agrees'⟩

variable {function : String} {res : Option String} {y : Operand}

/-- The code of a call that is accepted without a warning passes the values that the waiting operands have. -/
theorem stateAt_delivers (decoded : decodeFrom 0 code = .ok instrs)
    (found : instrs[n]? = some (.call function res)) (reached : stateAt options table code n = .ok (.inside b))
    (accepted : stateAt options table code (n + 1) = .ok (.inside c))
    (quiet : c.out.warnings.size ≤ b.out.warnings.size)
    (room : b.pending.length ≤ 4 ∨ options.assumeLeaf = false ∧ b.function.name ≠ "" ∧
      ∀ s ∈ table.symbols, s.params.length < 2 ^ 63)
    (whole : A = .whole data table b.function b.layout sp) (placed : A.Placed)
    (agrees : Agrees A everything b.store env m) :
    ∃ is js m₁, Emits b (is ++ .jal function :: js) c ∧ m.execAll data is = some m₁ ∧
      ∀ i y, b.pending[i]? = some y → A.argument m₁ i = some (y.eval A.place env) := by
  subst whole
  obtain ⟨bound, _⟩ := List.getElem?_eq_some_iff.mp found
  have provided : (State.inside b).Provided table (Frame.plan options table code) :=
    stateAt_provided decoded (Nat.le_of_lt bound) reached
  have suits := (stateAt_suits decoded (Nat.le_of_lt bound) reached placed n).advance
  obtain ⟨is, js, ks, ls, b₁, b₂, b₃, b₄, called, few⟩ := stateAt_called decoded found reached accepted data sp
  have slots (i : Nat) (many : 4 ≤ i) (less : i < b.pending.length) :
      i < (Activation.whole data table b.function b.layout sp).outgoing := by
    rcases room with registers | ⟨leaves, named, short⟩
    · omega
    · exact Nat.lt_of_lt_of_le less (stateAt_slots decoded found reached accepted leaves named short)
  obtain ⟨m₁, ran, _, _, arguments⟩ := called.delivers suits slots few provided.pending
    (Nat.le_trans called.warnings quiet) (fun _ _ => trivial) agrees
  exact ⟨is ++ js ++ ks, delay options 1 ++ ls, m₁, called.emits_before.trans called.emits_after, ran, arguments⟩

/-- An operand that begins to wait is the next argument of its call. -/
theorem stateAt_queued (decoded : decodeFrom 0 code = .ok instrs) (queues : instrs[p]? = some (.param y))
    (before : p < n) (bound : n ≤ instrs.length) (linear : Linear instrs (p + 1) n)
    (reached : stateAt options table code p = .ok (.inside b))
    (accepted : stateAt options table code n = .ok (.inside c)) : c.pending[b.pending.length]? = some y := by
  obtain ⟨k, rfl⟩ := Nat.exists_eq_add_of_lt before
  rw [Nat.add_right_comm] at accepted bound linear
  obtain ⟨st, _, next, _⟩ := stateAt_lines decoded accepted
  obtain ⟨_, here, steps⟩ := (stateAt_succ decoded queues).mp next
  cases reached.symm.trans here
  have consistent : Consistent b.store := stateAt_consistent reached
  cases step_stepped steps with
  | @lower _ _ d _ _ lowers =>
    have waits : d.pending = b.pending ++ [y] :=
      lower_pending (b := { b with reserved := [], returned := false }) consistent lowers
    obtain ⟨_, stretch⟩ := stateAt_stretch decoded next (Nat.le_add_right (p + 1) k) bound linear accepted
    obtain ⟨ys, more⟩ := stretch.waits
    simp [← more, waits]

/-- An operand begins to wait before linear instructions and a call that is accepted without a warning. The callee
gets the value that the operand has at the call. This is the value that it had before these instructions,
unless one of them assigns it. -/
theorem argument_delivered (decoded : decodeFrom 0 code = .ok instrs)
    (queues : instrs[p]? = some (.param y)) (calls : instrs[n]? = some (.call function res)) (before : p < n)
    (linear : Linear instrs (p + 1) n) (reached : stateAt options table code p = .ok (.inside b))
    (arrived : stateAt options table code n = .ok (.inside c))
    (accepted : stateAt options table code (n + 1) = .ok (.inside d))
    (quiet : d.out.warnings.size = c.out.warnings.size)
    (room : c.pending.length ≤ 4 ∨ options.assumeLeaf = false ∧ b.function.name ≠ "" ∧
      ∀ s ∈ table.symbols, s.params.length < 2 ^ 63)
    (whole : A = .whole data table b.function b.layout sp) (placed : A.Placed)
    (agrees : Agrees A everything b.store env m) (emits : Emits b is c) (executes : A.Executes is m none m') :
    c.pending[b.pending.length]? = some y ∧
    ∃ env' ks js m₁, Crosses options table code instrs A p env m n env' m' ∧
      Agrees A everything c.store env' m' ∧
      Emits c (ks ++ .jal function :: js) d ∧ m'.execAll data ks = some m₁ ∧
      A.argument m₁ b.pending.length = some (y.eval A.place env') ∧
      ((∀ k x name, p < k → k < n → instrs[k]? = some x → x.assigned? = some name → name ∉ y.names) →
        A.argument m₁ b.pending.length = some (y.eval A.place env)) := by
  obtain ⟨bound, _⟩ := List.getElem?_eq_some_iff.mp calls
  have linear' : Linear instrs p n := linear.cons queues (.inl rfl)
  obtain ⟨_, stretch⟩ := stateAt_stretch decoded reached (Nat.le_of_lt before) (Nat.le_of_lt bound) linear' arrived
  obtain ⟨env', crosses, agrees'⟩ := stateAt_crosses decoded reached (Nat.le_of_lt before) (Nat.le_of_lt bound)
    linear' arrived whole placed agrees emits executes
  obtain ⟨ks, js, m₁, prepares, ran, arguments⟩ := stateAt_delivers decoded calls arrived accepted
    (Nat.le_of_eq quiet) (stretch.frame.function ▸ room) (stretch.whole whole) placed agrees'
  have queued := stateAt_queued decoded queues before (Nat.le_of_lt bound) linear reached arrived
  have delivered := arguments _ y queued
  refine ⟨queued, env', ks, js, m₁, crosses, agrees', prepares, ran, delivered, fun unassigned => ?_⟩
  cases y with
  | literal => exact delivered
  | «variable» name =>
    rw [delivered]
    refine congrArg some (crosses.keeps fun k x first less found assigned => ?_)
    rcases Nat.eq_or_lt_of_le first with rfl | after
    · cases queues.symm.trans found
      cases assigned
    · exact unassigned k x name after less found assigned (by simp [Operand.names])

end Runs

/-- The first of five arguments gets another value before the call. -/
def reassigningCode : List Quad :=
  Quad.numberedFrom 0 [
    { op := "label", arg1 := "func_f" },
    { op := "=", arg1 := "7", res := "t" },
    { op := "param", arg1 := "t" },
    { op := "param", arg1 := "3" },
    { op := "param", arg1 := "4" },
    { op := "param", arg1 := "x" },
    { op := "param", arg1 := "p" },
    { op := "+", arg1 := "t", arg2 := "p", res := "t" },
    { op := "call", arg1 := "g", res := "u" },
    { op := "return", arg1 := "u" },
    { op := "label", arg1 := "end_f" }]

def reassigningEnv : Env
  | .frame "p" => 2
  | .temporary "t" => 7
  | _ => 0

/-- The code of the addition. -/
def addingInstrs (r s : Reg) : List Asm.Instr :=
  [.lw (.pool s) (.offset 48 .sp), .alu .add (.pool r) (.pool r) (.pool s)]

/-- The last argument is passed in a slot. -/
theorem argument_delivered_in_slot :
    ∃ b c d ks js m₁ m₂, stateAt {} boundaryTable reassigningCode 6 = .ok (.inside b) ∧
      stateAt {} boundaryTable reassigningCode 8 = .ok (.inside c) ∧
      stateAt {} boundaryTable reassigningCode 9 = .ok (.inside d) ∧ b.pending.length = 4 ∧
      Agrees boundaryActivation everything b.store reassigningEnv boundaryMachine ∧
      Emits b (addingInstrs 0 1) c ∧ boundaryActivation.Executes (addingInstrs 0 1) boundaryMachine none m₁ ∧
      Emits c (ks ++ .jal "g" :: js) d ∧ m₁.execAll (fun _ => none) ks = some m₂ ∧
      boundaryActivation.argument m₂ 4 = some 2 := by
  have decoded : decodeFrom 0 reassigningCode = .ok [.label ⟨"func_f", .entry "f"⟩, .imm 7 "t",
      .param (.variable "t"), .param (.literal 3), .param (.literal 4), .param (.variable "x"),
      .param (.variable "p"), .binary .add (.variable "t") (.variable "p") "t", .call "g" (some "u"),
      .ret (some (.variable "u")), .label ⟨"end_f", .exit "f"⟩] :=
    eq_ok_of_toOption (by decide +kernel)
  have before : insideWith (fun b => b.function = boundaryFunction && b.layout = boundaryActivation.layout &&
      b.pending.length = 4 && agreesWith boundaryActivation b.store reassigningEnv boundaryMachine &&
      insideWith (fun c => c.out.warnings.size = 0 &&
          c.out.lines.toList = b.out.lines.toList ++ (addingInstrs 0 1).map .instr)
        (stateAt {} boundaryTable reassigningCode 8)) (stateAt {} boundaryTable reassigningCode 6) = true := by
    decide +kernel
  have after : insideWith (·.out.warnings.size = 0) (stateAt {} boundaryTable reassigningCode 9) = true := by
    decide +kernel
  obtain ⟨b, reached, checked⟩ := exists_of_insideWith before
  simp only [Bool.and_eq_true, decide_eq_true_eq] at checked
  obtain ⟨⟨⟨⟨function, layout⟩, waits⟩, agrees⟩, ahead⟩ := checked
  obtain ⟨c, arrived, ahead⟩ := exists_of_insideWith ahead
  simp only [Bool.and_eq_true, decide_eq_true_eq] at ahead
  obtain ⟨quiet, lines⟩ := ahead
  obtain ⟨d, accepted, silent⟩ := exists_of_insideWith after
  simp only [decide_eq_true_eq] at silent
  have none : ∀ name, isGlobalScalar boundaryActivation.table name ≠ true :=
    not_isGlobalScalar (by decide +kernel)
  have placed : boundaryActivation.Placed :=
    ⟨by decide +kernel, by decide +kernel, by decide +kernel, by decide +kernel, by decide +kernel,
      fun name global => absurd global (none name), fun name _ global => absurd global (none name)⟩
  have agrees := agrees_of_agreesWith agrees none
  have runs : boundaryActivation.Executes (addingInstrs 0 1) boundaryMachine .none _ :=
    Activation.executes_of_follow (walkCallee_respects boundaryActivation) rfl
  obtain ⟨_, _, ks, js, m₂, _, _, prepares, ran, _, delivered⟩ :=
    argument_delivered (p := 6) (n := 8) decoded rfl rfl (by decide)
      (fun k x after less found => by
        obtain rfl : k = 7 := by omega
        cases found
        exact .inl rfl)
      reached arrived accepted (silent.trans quiet.symm) (.inr ⟨rfl, by rw [function]; decide, by decide⟩)
      (by rw [function, layout]; rfl) placed agrees lines runs
  refine ⟨b, c, d, ks, js, _, m₂, reached, arrived, accepted, waits, agrees, lines, runs, prepares, ran, ?_⟩
  rw [waits] at delivered
  refine delivered fun k x name after less found assigned => ?_
  obtain rfl : k = 7 := by omega
  cases found
  cases assigned
  decide

/-- A function that calls itself, with an argument that gets another value before the call. -/
def requeuingCode : List Quad :=
  Quad.numberedFrom 0 [
    { op := "label", arg1 := "func_f" },
    { op := "param", arg1 := "a" },
    { op := "=", arg1 := "5", res := "a" },
    { op := "call", arg1 := "f" },
    { op := "return" },
    { op := "label", arg1 := "end_f" }]

def requeuingMachine : Machine where
  regs
    | .sp => 0x7fd8
    | _ => 0
  mem a := if a = 0x8000 then 2 else 0

/-- The operand is two where it begins to wait, and the callee gets five. -/
theorem reassigned_argument_delivered :
    ∃ b c d js m₁ m₂, stateAt {} walkTable requeuingCode 1 = .ok (.inside b) ∧
      stateAt {} walkTable requeuingCode 3 = .ok (.inside c) ∧
      stateAt {} walkTable requeuingCode 4 = .ok (.inside d) ∧
      Agrees (walkActivation fun _ => none) everything b.store (startEnv walkFunction (startMachine 2))
        requeuingMachine ∧
      b.pending = [] ∧ c.pending = [.variable "a"] ∧
      Emits b [.aluImm .addi (.pool 0) .zero 5] c ∧
      requeuingMachine.execAll (fun _ => none) [.aluImm .addi (.pool 0) .zero 5] = some m₁ ∧
      Emits c ([.mv (.arg 0) (.pool 0), .sw (.pool 0) (.offset 40 .sp)] ++ .jal "f" :: js) d ∧
      m₁.execAll (fun _ => none) [.mv (.arg 0) (.pool 0), .sw (.pool 0) (.offset 40 .sp)] = some m₂ ∧
      (Operand.variable "a").eval (walkActivation fun _ => none).place (startEnv walkFunction (startMachine 2)) = 2 ∧
      (walkActivation fun _ => none).argument m₂ 0 = some 5 := by
  have before : insideWith (fun b => b.pending = [] &&
      agreesWith (walkActivation fun _ => none) b.store (startEnv walkFunction (startMachine 2)) requeuingMachine &&
      insideWith (fun c => c.pending = [.variable "a"] &&
          c.out.lines.toList = b.out.lines.toList ++ [.instr (.aluImm .addi (.pool 0) .zero 5)] &&
          insideWith (fun d => d.out.lines.toList = c.out.lines.toList ++
              [.instr (.mv (.arg 0) (.pool 0)), .instr (.sw (.pool 0) (.offset 40 .sp)), .instr (.jal "f")])
            (stateAt {} walkTable requeuingCode 4))
        (stateAt {} walkTable requeuingCode 3)) (stateAt {} walkTable requeuingCode 1) = true := by
    decide +kernel
  obtain ⟨b, reached, before⟩ := exists_of_insideWith before
  simp only [Bool.and_eq_true, decide_eq_true_eq] at before
  obtain ⟨⟨empty, agrees⟩, between⟩ := before
  obtain ⟨c, arrived, between⟩ := exists_of_insideWith between
  simp only [Bool.and_eq_true, decide_eq_true_eq] at between
  obtain ⟨⟨waits, sets⟩, last⟩ := between
  obtain ⟨d, accepted, calls⟩ := exists_of_insideWith last
  simp only [decide_eq_true_eq] at calls
  have agrees := agrees_of_agreesWith agrees (not_isGlobalScalar (by decide +kernel))
  exact ⟨b, c, d, [], _, _, reached, arrived, accepted, agrees, empty, waits, sets, rfl, calls, rfl,
    by decide +kernel, by decide +kernel⟩

end ThreeAddress.Codegen
