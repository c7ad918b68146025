import ThreeAddress.Proofs.CallBoundary

/-! Paths through a procedure. The machine runs the code of one instruction after the other and takes
calls as a whole. On the other side stand the values that the instructions give to names, and what of
them is needed later. -/
namespace ThreeAddress

/-! Values on a path -/

open Codegen (Place Env)

/-- What an instruction does to the values, and where control goes from it. Loads and calls give the words
that the machine has for their results, and a call may change global variables. -/
inductive Instr.Yields (place : String → Place) (body : List Instr) (k : Nat)
    (given : String → Word → Prop) (env : Env) : Instr → Nat → Env → Prop
  | runs {x : Instr} {j : Nat} {env' : Env} :
      x.run place body k env = some (.running j env') → Instr.Yields place body k given env x j env'
  | load {array res : String} {index : Operand} {w : Word} :
      given res w →
      Instr.Yields place body k given env (.load array index res) (k + 1) (env.set (place res) w)
  | loadInd {pointer res : String} {w : Word} :
      given res w →
      Instr.Yields place body k given env (.loadInd pointer res) (k + 1) (env.set (place res) w)
  | store {array : String} {index value : Operand} :
      Instr.Yields place body k given env (.store array index value) (k + 1) env
  | storeInd {pointer : String} {value : Operand} :
      Instr.Yields place body k given env (.storeInd pointer value) (k + 1) env
  | param {y : Operand} : Instr.Yields place body k given env (.param y) (k + 1) env
  | call {function : String} {res : Option String} {env' : Env} :
      (∀ p, (∀ g, p ≠ .global g) → res.map place ≠ some p → env' p = env p) →
      (∀ name, res = some name → given name (env' (place name))) →
      Instr.Yields place body k given env (.call function res) (k + 1) env'

/-- Where control may go from an instruction. -/
def Instr.Leads (body : List Instr) (k : Nat) : Instr → Nat → Prop
  | .goto target, j => target? body target = some j
  | .branch _ _ target, j => j = k + 1 ∨ target? body target = some j
  | .ret _, _ => False
  | _, j => j = k + 1

theorem Instr.Yields.leads {place : String → Place} {body : List Instr} {k j : Nat}
    {given : String → Word → Prop} {env env' : Env} {x : Instr}
    (yields : x.Yields place body k given env j env') : x.Leads body k j := by
  cases yields with
  | runs runs =>
    cases x with
    | binary =>
      obtain ⟨_, _, same⟩ := Option.map_eq_some_iff.mp runs
      cases same
      rfl
    | unary | imm | copy | label | nop =>
      cases Option.some.inj runs
      rfl
    | branch cond ifTrue target =>
      simp only [Instr.run] at runs
      split at runs
      · obtain ⟨_, found, same⟩ := Option.map_eq_some_iff.mp runs
        cases same
        exact .inr found
      · cases Option.some.inj runs
        exact .inl rfl
    | goto target =>
      obtain ⟨_, found, same⟩ := Option.map_eq_some_iff.mp runs
      cases same
      exact found
    | _ => simp [Instr.run] at runs
  | _ => rfl

theorem Instr.Yields.mono {place : String → Place} {body : List Instr} {k j : Nat}
    {given given' : String → Word → Prop} {env env' : Env} {x : Instr}
    (yields : x.Yields place body k given env j env') (wider : ∀ name w, given name w → given' name w) :
    x.Yields place body k given' env j env' := by
  cases yields with
  | runs runs => exact .runs runs
  | load word => exact .load (wider _ _ word)
  | loadInd word => exact .loadInd (wider _ _ word)
  | store => exact .store
  | storeInd => exact .storeInd
  | param => exact .param
  | call others word => exact .call others fun name same => wider _ _ (word name same)

/-- The arguments that wait behind instructions. -/
def waiting (xs : List Instr) : List Operand := xs.foldl (fun ys x => x.waits ys) []

/-- The names that the instruction at a position reads. -/
def readsAt (body : List Instr) (k : Nat) : List String :=
  (body[k]?).toList.flatMap fun x => x.reads (waiting (body.take k))

theorem readsAt_eq {body : List Instr} {k : Nat} {x : Instr} (found : body[k]? = some x) :
    readsAt body k = x.reads (waiting (body.take k)) := by
  simp [readsAt, found]

/-- A path from the position reads the name before it gets a value. -/
inductive Needed (body : List Instr) : Nat → String → Prop
  | read {k : Nat} {name : String} : name ∈ readsAt body k → Needed body k name
  | later {k j : Nat} {x : Instr} {name : String} :
      body[k]? = some x → x.assigned? ≠ some name → x.Leads body k j → Needed body j name →
      Needed body k name

/-! The machine on a path -/

/-- The label that an instruction takes the machine to. -/
def Machine.jump? (m : Machine) : Asm.Instr → Option String
  | .beq left right target => if m.read left = m.read right then some target else none
  | .bne left right target => if m.read left ≠ m.read right then some target else none
  | .j target => some target
  | _ => none

def Asm.Instr.isBranch : Asm.Instr → Bool
  | .beq _ _ _ => true
  | .bne _ _ _ => true
  | _ => false

namespace Codegen

open Asm (Line Mem Listing)
open Descriptor (Store Var Entry)

/-- The instruction stores through no register to a word of the procedure. -/
def Activation.Spares (A : Activation) (m : Machine) (i : Asm.Instr) : Prop :=
  ∀ src dst a s, i = .sw src dst → isPointed dst = true → m.address? A.data dst = some a →
    s ∈ A.slots → A.slot s ≠ some a

/-- The machine runs code of a procedure up to its end or to a jump. A call leads to any machine that a
callee may leave. -/
inductive Activation.Executes (A : Activation) :
    List Asm.Instr → Machine → Option String → Machine → Prop
  | done {m : Machine} : A.Executes [] m none m
  | next {i : Asm.Instr} {is : List Asm.Instr} {m m₁ m₂ : Machine} {l : Option String} :
      m.exec A.data i = some m₁ → A.Spares m i → A.Executes is m₁ l m₂ → A.Executes (i :: is) m l m₂
  | call {function : String} {is : List Asm.Instr} {m m₁ m₂ : Machine} {l : Option String} :
      A.Respects m m₁ → A.Executes is m₁ l m₂ → A.Executes (.jal function :: is) m l m₂
  | leave {i : Asm.Instr} {is : List Asm.Instr} {m : Machine} {target : String} :
      m.jump? i = some target → A.Executes (i :: is) m (some target) m
  | pass {i : Asm.Instr} {is : List Asm.Instr} {m m₁ : Machine} {l : Option String} :
      i.isBranch = true → m.jump? i = none → A.Executes is m l m₁ → A.Executes (i :: is) m l m₁

/-- A place where the generator notes a copy of a variable has the word. -/
inductive Activation.Copies (A : Activation) (e : Entry Mem) (m : Machine) : Word → Prop
  | register {r : Reg} : r ∈ e.regs → A.Copies e m (m.read (.pool r))
  | home {h : Mem} {a : Word} :
      e.homeValid = true → e.home = some h → A.address h = some a → A.Copies e m (m.mem a)

/-- The generator notes a copy of the name, and every copy that it notes is the word. -/
def Activation.Finds (A : Activation) (s : Store Mem) (m : Machine) (name : String) (w : Word) : Prop :=
  ∃ v e, s.Has v e ∧ e.name = name ∧ A.Copies e m w ∧ ∀ u, A.Copies e m u → u = w

/-- A variable that is only in its home. -/
theorem Activation.finds_home {A : Activation} {s : Store Mem} {m : Machine} {v : Var} {e : Entry Mem} {h : Mem}
    {a : Word} (known : s.Has v e) (empty : ∀ r, r ∉ e.regs) (valid : e.homeValid = true)
    (home : e.home = some h) (address : A.address h = some a) : A.Finds s m e.name (m.mem a) := by
  refine ⟨v, e, known, rfl, .home valid home address, fun u copies => ?_⟩
  cases copies with
  | register inside => exact absurd inside (empty _)
  | home _ home' address' =>
    cases Option.some.inj (home.symm.trans home')
    rw [Option.some.inj (address.symm.trans address')]

/-- The position that control goes to from an instruction. -/
def behind (body : List Instr) (k : Nat) : Option String → Option Nat
  | none => some (k + 1)
  | some target => target? body target

section Walks

variable (options : Options) (table : Scope) (code : List Quad) (p : Nat) (body : List Instr)
variable (A : Activation)

/-- The machine runs the code of the instruction at a position, and control goes to another one. -/
def Passes (k : Nat) (m : Machine) (j : Nat) (m' : Machine) : Prop :=
  ∃ x b c is l, body[k]? = some x ∧ stateAt options table code (p + 1 + k) = .ok (.inside b) ∧
    stateAt options table code (p + 1 + (k + 1)) = .ok (.inside c) ∧
    c.out.lines.toList = b.out.lines.toList ++ linesOf x is ∧ A.Executes is m l m' ∧
    behind body k l = some j

/-- The machine enters the procedure and runs along a path through its positions, the last one first. -/
inductive Walks (m₀ : Machine) : List (Nat × Machine) → Prop
  | enter {m : Machine} :
      m₀.execAll A.data (prologue A.layout A.function.params.length) = some m → Walks m₀ [(0, m)]
  | step {k j : Nat} {path : List (Nat × Machine)} {m m' : Machine} :
      Walks m₀ ((k, m) :: path) → Passes options table code p body A k m j m' →
      Walks m₀ ((j, m') :: (k, m) :: path)

/-- The machine has the word for the name before the instruction at a position. -/
def FindsAt (k : Nat) (m : Machine) (name : String) (w : Word) : Prop :=
  ∃ b, stateAt options table code (p + 1 + k) = .ok (.inside b) ∧ A.Finds b.store m name w

/-- The values at the end of a path that the machine takes. -/
inductive Evaluates (env : Env) : List (Nat × Machine) → Env → Prop
  | enter {m : Machine} : Evaluates env [(0, m)] env
  | step {k j : Nat} {path : List (Nat × Machine)} {m m' : Machine} {x : Instr} {env₁ env₂ : Env} :
      Evaluates env ((k, m) :: path) env₁ → body[k]? = some x →
      x.Yields A.place body k (FindsAt options table code p A (k + 1) m') env₁ j env₂ →
      Evaluates env ((j, m') :: (k, m) :: path) env₂

/-- A temporary that is needed where control goes to and has a word there has the same word where control
comes from. -/
def Steady (k j : Nat) : Prop :=
  ∀ b c v e h, stateAt options table code (p + 1 + (k + 1)) = .ok (.inside b) →
    stateAt options table code (p + 1 + j) = .ok (.inside c) → c.store.Has v e → e.home = some h →
    placeOf table c.function e.name = .temporary e.name → Needed body j e.name →
    ∃ w f, b.store.Has w f ∧ f.name = e.name ∧ f.home = some h

end Walks

/-! Code that runs -/

variable {A : Activation} {m m₁ m' : Machine} {l : Option String} {is js : List Asm.Instr}

theorem Activation.Executes.after (executes : A.Executes (is ++ js) m l m')
    (ran : m.execAll A.data is = some m₁) : A.Executes js m₁ l m' := by
  induction is generalizing m with
  | nil =>
    cases Option.some.inj ran
    exact executes
  | cons i is ih =>
    obtain ⟨m₂, first, rest⟩ := Option.bind_eq_some_iff.mp ran
    rw [List.cons_append] at executes
    cases executes with
    | next exec _ later =>
      cases Option.some.inj (first.symm.trans exec)
      exact ih later rest
    | call => simp [Machine.exec] at first
    | leave jumps => cases i <;> simp [Machine.exec, Machine.jump?] at first jumps
    | pass branch => cases i <;> simp [Machine.exec, Asm.Instr.isBranch] at first branch

/-- Code that runs to its end does not jump. -/
theorem Activation.Executes.ends (executes : A.Executes is m l m')
    (ran : m.execAll A.data is = some m₁) : l = none ∧ m' = m₁ := by
  rw [← List.append_nil is] at executes
  cases executes.after ran
  exact ⟨rfl, rfl⟩

/-- An instruction that the machine executes or that stops it. -/
def isPlain : Asm.Instr → Bool
  | .beq _ _ _ => false
  | .bne _ _ _ => false
  | .j _ => false
  | .jal _ => false
  | _ => true

theorem Activation.Executes.plain (executes : A.Executes (is ++ js) m l m')
    (plain : ∀ i ∈ is, isPlain i = true) : ∃ m₁, m.execAll A.data is = some m₁ ∧ A.Executes js m₁ l m' := by
  induction is generalizing m with
  | nil => exact ⟨m, rfl, executes⟩
  | cons i is ih =>
    have first := plain i (by simp)
    rw [List.cons_append] at executes
    cases executes with
    | @next _ _ _ m₂ _ _ exec _ later =>
      obtain ⟨m₁, ran, rest⟩ := ih later fun j member => plain j (by simp [member])
      exact ⟨m₁, by simp [Machine.execAll, exec, ran], rest⟩
    | call => simp [isPlain] at first
    | leave jumps => cases i <;> simp [isPlain, Machine.jump?] at first jumps
    | pass branch => cases i <;> simp [isPlain, Asm.Instr.isBranch] at first branch

/-! Paths that are computed -/

section Computed

def isPointedStore : Asm.Instr → Bool
  | .sw _ dst => isPointed dst
  | _ => false

/-- Runs code that stores through no register, with what calls do. -/
def Activation.follow (A : Activation) (callee : Machine → Machine) :
    List Asm.Instr → Machine → Option (Option String × Machine)
  | [], m => some (none, m)
  | .jal _ :: is, m => A.follow callee is (callee m)
  | i :: is, m =>
    match m.jump? i with
    | some target => some (some target, m)
    | none =>
      if i.isBranch then A.follow callee is m
      else if isPointedStore i then none
      else (m.exec A.data i).bind fun m₁ => A.follow callee is m₁

variable {callee : Machine → Machine}

theorem Activation.executes_of_follow (respects : ∀ m, A.Respects m (callee m))
    (follows : A.follow callee is m = some (l, m')) : A.Executes is m l m' := by
  fun_induction Activation.follow A callee is m with
  | case1 =>
    cases Option.some.inj follows
    exact .done
  | case2 _ is m ih => exact .call (respects m) (ih follows)
  | case3 _ _ _ _ _ jumps =>
    cases Option.some.inj follows
    exact .leave jumps
  | case4 _ _ _ _ stays branch ih => exact .pass branch stays (ih follows)
  | case5 => contradiction
  | case6 i _ _ _ _ _ inner ih =>
    obtain ⟨m₁, exec, later⟩ := Option.bind_eq_some_iff.mp follows
    refine .next exec ?_ (ih m₁ later)
    rintro src dst a s rfl pointed
    exact absurd pointed inner

variable (options : Options) (table : Scope) (code : List Quad) (p : Nat) (body : List Instr)

/-- Runs the code of the instruction at a position. -/
def advance (A : Activation) (callee : Machine → Machine) (k : Nat) (m : Machine) : Option (Nat × Machine) :=
  match body[k]?, stateAt options table code (p + 1 + k), stateAt options table code (p + 1 + (k + 1)) with
  | some x, .ok (.inside b), .ok (.inside c) =>
    let is := codeOf (c.out.lines.toList.drop b.out.lines.size)
    if c.out.lines.toList = b.out.lines.toList ++ linesOf x is then
      (A.follow callee is m).bind fun (l, m') => (behind body k l).map fun j => (j, m')
    else none
  | _, _, _ => none

theorem passes_of_advance {j k : Nat} (respects : ∀ m, A.Respects m (callee m))
    (advances : advance options table code p body A callee k m = some (j, m')) :
    Passes options table code p body A k m j m' := by
  unfold advance at advances
  split at advances
  · rename_i x b c found reached accepted
    dsimp only at advances
    split at advances
    · rename_i lines
      obtain ⟨⟨l, m₁⟩, follows, next⟩ := Option.bind_eq_some_iff.mp advances
      obtain ⟨_, target, same⟩ := Option.map_eq_some_iff.mp next
      cases same
      exact ⟨x, b, c, _, l, found, reached, accepted, lines, A.executes_of_follow respects follows, target⟩
    · contradiction
  · contradiction

/-- Enters the procedure and takes steps. -/
def travel (A : Activation) (callee : Machine → Machine) (m₀ : Machine) : Nat → Option (List (Nat × Machine))
  | 0 => (m₀.execAll A.data (prologue A.layout A.function.params.length)).map fun m => [(0, m)]
  | n + 1 => (travel A callee m₀ n).bind fun path =>
    path.head?.bind fun (k, m) => (advance options table code p body A callee k m).map (· :: path)

theorem walks_of_travel {m₀ : Machine} {n : Nat} {path : List (Nat × Machine)}
    (respects : ∀ m, A.Respects m (callee m))
    (travels : travel options table code p body A callee m₀ n = some path) :
    Walks options table code p body A m₀ path := by
  induction n generalizing path with
  | zero =>
    obtain ⟨m, ran, rfl⟩ := Option.map_eq_some_iff.mp travels
    exact .enter ran
  | succ n ih =>
    obtain ⟨before, first, next⟩ := Option.bind_eq_some_iff.mp travels
    obtain ⟨⟨k, m⟩, head, next⟩ := Option.bind_eq_some_iff.mp next
    obtain ⟨⟨j, m'⟩, advances, rfl⟩ := Option.map_eq_some_iff.mp next
    cases before with
    | nil => contradiction
    | cons q rest =>
      cases Option.some.inj head
      exact .step (ih first) (passes_of_advance options table code p body respects advances)

/-- A path with a machine that passes a check at its end. -/
theorem exists_walk {m₀ : Machine} {n k : Nat} {ks : List Nat} (check : Machine → Bool)
    (respects : ∀ m, A.Respects m (callee m))
    (travels : (travel options table code p body A callee m₀ n).any (fun path =>
      path.map Prod.fst = k :: ks && path.head?.any fun q => check q.2) = true) :
    ∃ m path, path.map Prod.fst = ks ∧ check m = true ∧
      Walks options table code p body A m₀ ((k, m) :: path) := by
  obtain ⟨path, travels, checked⟩ := (Option.any_eq_true ..).mp travels
  have walks := walks_of_travel options table code p body respects travels
  cases path with
  | nil => simp at checked
  | cons q path =>
    simp only [List.map_cons, List.cons.injEq, List.head?_cons, Option.any_some, Bool.and_eq_true,
      decide_eq_true_eq] at checked
    obtain ⟨⟨rfl, earlier⟩, checked⟩ := checked
    exact ⟨q.2, path, earlier, checked, walks⟩

/-- Every home of the second state is a home of its name in the first. -/
def keepsHomes (b c : Body) : Bool :=
  c.store.entries.all fun e => e.forgotten || e.home.isNone ||
    b.store.entries.any fun f => !f.forgotten && f.name = e.name && f.home = e.home

theorem steady_of_keepsHomes {k j : Nat}
    (checked : insideWith (fun b => insideWith (keepsHomes b) (stateAt options table code (p + 1 + j)))
      (stateAt options table code (p + 1 + (k + 1))) = true) : Steady options table code p body k j := by
  obtain ⟨b, reached, checked⟩ := exists_of_insideWith checked
  obtain ⟨c, there, checked⟩ := exists_of_insideWith checked
  rintro b' c' v e h reached' there' known home _ _
  cases Except.ok.inj (reached.symm.trans reached')
  cases Except.ok.inj (there.symm.trans there')
  have kept := List.all_eq_true.mp checked e (List.mem_of_getElem? known.1)
  simp only [known.2, home, Option.isNone_some, Bool.false_or, List.any_eq_true, Bool.and_eq_true,
    decide_eq_true_eq, Bool.not_eq_true'] at kept
  obtain ⟨f, member, ⟨valid, name⟩, same⟩ := kept
  obtain ⟨w, entry⟩ := List.getElem?_of_mem member
  exact ⟨w, f, ⟨entry, valid⟩, name, same⟩

end Computed

end Codegen

end ThreeAddress
