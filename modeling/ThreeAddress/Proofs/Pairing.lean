import ThreeAddress.Codegen.Compile

/-! Two computations side by side: both succeed, with results that correspond, or both fail, with errors
that do. -/
namespace ThreeAddress

section Outcomes

variable {α β γ δ : Type} {E F : Error → Error → Prop} {V : α → β → Prop} {W : γ → δ → Prop}

/-- How the outcomes of two computations correspond. -/
inductive Agree (E : Error → Error → Prop) (V : α → β → Prop) : Except Error α → Except Error β → Prop
  | ok {a : α} {b : β} : V a b → Agree E V (.ok a) (.ok b)
  | error {e f : Error} : E e f → Agree E V (.error e) (.error f)

theorem Agree.bind {x : Except Error α} {y : Except Error β} {f : α → Except Error γ}
    {g : β → Except Error δ} (first : Agree E V x y) (rest : ∀ a b, V a b → Agree E W (f a) (g b)) :
    Agree E W (x >>= f) (y >>= g) := by
  cases first with
  | error failed => exact .error failed
  | ok related => exact rest _ _ related

theorem Agree.mono {x : Except Error α} {y : Except Error β} {V' : α → β → Prop} (agree : Agree E V x y)
    (errors : ∀ e f, E e f → F e f) (results : ∀ a b, V a b → V' a b) : Agree F V' x y := by
  cases agree with
  | error failed => exact .error (errors _ _ failed)
  | ok related => exact .ok (results _ _ related)

theorem Agree.inContext {x : Except Error α} {y : Except Error β} {c d : Context} (agree : Agree E V x y)
    (errors : ∀ e f, E e f → F (e.within c) (f.within d)) :
    Agree F V (ThreeAddress.inContext c x) (ThreeAddress.inContext d y) := by
  cases agree with
  | error failed => exact .error (errors _ _ failed)
  | ok related => exact .ok related

theorem Agree.failed {x : Except Error α} {y : Except Error β} {e : Error} (agree : Agree E V x y)
    (failed : x = .error e) : ∃ f, y = .error f ∧ E e f := by
  subst failed
  cases agree with
  | error related => exact ⟨_, rfl, related⟩

theorem Agree.succeeded {x : Except Error α} {y : Except Error β} {a : α} (agree : Agree E V x y)
    (succeeded : x = .ok a) : ∃ b, y = .ok b ∧ V a b := by
  subst succeeded
  cases agree with
  | ok related => exact ⟨_, rfl, related⟩

end Outcomes

/-- Two failures of one kind. -/
def SameKind (e f : Error) : Prop := f.kind = e.kind

/-- The kinds of failures that an instruction of a procedure can end in. -/
def Kind.isInner : Kind → Bool
  | .noRegister | .unresolved | .noFrame | .other | .fault => true
  | _ => false

namespace Codegen

open Descriptor (Store)
open Asm (Line Mem)

/-- Two failures of one kind at the same place of an instruction. -/
structure Alike (e f : Error) : Prop where
  contexts : f.contexts = e.contexts
  kind : f.kind = e.kind
  inner : e.kind.isInner = true

theorem Alike.within {e f : Error} (alike : Alike e f) (c : Context) : Alike (e.within c) (f.within c) :=
  ⟨congrArg (c :: ·) alike.contexts, alike.kind, alike.inner⟩

section Steps

variable {α β γ δ : Type} {P R : Body → Body → Prop}

theorem bind_agree {V : α × Body → β × Body → Prop} {W : γ × Body → δ × Body → Prop} {x : Step α} {y : Step β}
    {f : α → Step γ} {g : β → Step δ} {b c : Body} (first : Agree Alike V (x b) (y c))
    (rest : ∀ p q, V p q → Agree Alike W (f p.1 p.2) (g q.1 q.2)) :
    Agree Alike W ((x >>= f) b) ((y >>= g) c) := first.bind rest

theorem reads_agree {W : γ × Body → δ × Body → Prop} {f : Body → Step γ} {g : Body → Step δ} {b c : Body}
    (rest : Agree Alike W (f b b) (g c c)) : Agree Alike W ((get >>= f) b) ((get >>= g) c) := rest

theorem within_agree {V : α × Body → β × Body → Prop} {x : Step α} {y : Step β} {b c : Body}
    (agree : Agree Alike V (x b) (y c)) (context : Context) :
    Agree Alike V (Codegen.within context x b) (Codegen.within context y c) :=
  agree.inContext fun _ _ alike => alike.within context

/-- From states in the first relation both steps succeed, with results and states in the second one, or
both fail alike. -/
def Pairs (P : Body → Body → Prop) (x : Step α) (y : Step β) (Q : α → β → Body → Body → Prop) : Prop :=
  ∀ b c, P b c → Agree Alike (fun p q => Q p.1 q.1 p.2 q.2) (x b) (y c)

/-- Both steps keep the states in the relation. -/
def InStep (R : Body → Body → Prop) (V : α → β → Prop) (x : Step α) (y : Step β) : Prop :=
  Pairs R x y fun a a' b c => V a a' ∧ R b c

theorem Pairs.bind {x : Step α} {y : Step β} {f : α → Step γ} {g : β → Step δ}
    {Q : α → β → Body → Body → Prop} {Q' : γ → δ → Body → Body → Prop} (first : Pairs P x y Q)
    (rest : ∀ a a', Pairs (Q a a') (f a) (g a') Q') : Pairs P (x >>= f) (y >>= g) Q' := by
  intro b c related
  exact bind_agree (first b c related) fun p q after => rest p.1 q.1 p.2 q.2 after

theorem Pairs.within {x : Step α} {y : Step β} {Q : α → β → Body → Body → Prop} (pairs : Pairs P x y Q)
    (c : Context) : Pairs P (Codegen.within c x) (Codegen.within c y) Q :=
  fun b d related => within_agree (pairs b d related) c

namespace InStep

variable {V : α → β → Prop} {W : γ → δ → Prop}

theorem returns {a : α} {a' : β} (same : V a a') : InStep R V (pure a) (pure a') :=
  fun _ _ related => .ok ⟨same, related⟩

theorem fails {c d : Cause} (kind : d.kind = c.kind) (inner : c.kind.isInner = true) :
    InStep R V (failWith c) (failWith d) := fun _ _ _ => .error ⟨rfl, kind, inner⟩

theorem bind {x : Step α} {y : Step β} {f : α → Step γ} {g : β → Step δ} (first : InStep R V x y)
    (rest : ∀ a a', V a a' → InStep R W (f a) (g a')) : InStep R W (x >>= f) (y >>= g) :=
  Pairs.bind first fun a a' b c after => rest a a' after.1 b c after.2

theorem reads {f : Body → Step γ} {g : Body → Step δ}
    (rest : ∀ b c, R b c → InStep R W (f b) (g c)) : InStep R W (get >>= f) (get >>= g) :=
  fun b c related => rest b c related b c related

theorem changes {f g : Body → Body} (kept : ∀ b c, R b c → R (f b) (g c)) :
    InStep R Eq (modify f) (modify g) := fun b c related => .ok ⟨rfl, kept b c related⟩

theorem within {x : Step α} {y : Step β} (inStep : InStep R V x y) (c : Context) :
    InStep R V (Codegen.within c x) (Codegen.within c y) := Pairs.within inStep c

theorem lifts {x : Except Error α} (inner : ∀ e, x = .error e → e.kind.isInner = true) :
    InStep R Eq (liftM x : Step α) (liftM x) := by
  intro b c related
  cases x with
  | error e => exact .error ⟨rfl, rfl, inner e rfl⟩
  | ok a => exact .ok ⟨rfl, related⟩

theorem ite {c d : Prop} [Decidable c] [Decidable d] {x x' : Step α} {y y' : Step β} (same : d ↔ c)
    (yes : InStep R V x y) (no : InStep R V x' y') :
    InStep R V (if c then x else x') (if d then y else y') := by
  by_cases holds : c
  · rw [if_pos holds, if_pos (same.mpr holds)]
    exact yes
  · rw [if_neg holds, if_neg fun other => holds (same.mp other)]
    exact no

theorem forM_map {f : α → Step Unit} {g : β → Step Unit} {h : α → β}
    (each : ∀ a, InStep R Eq (f a) (g (h a))) (xs : List α) :
    InStep R Eq (xs.forM f) ((xs.map h).forM g) := by
  induction xs with
  | nil => exact returns rfl
  | cons x xs ih => exact bind (each x) fun _ _ _ => ih

theorem forM {f g : α → Step Unit} (each : ∀ a, InStep R Eq (f a) (g a)) (xs : List α) :
    InStep R Eq (xs.forM f) (xs.forM g) := by
  have together := forM_map (h := id) each xs
  rwa [List.map_id] at together

theorem mapM {f : α → Step β} {g : α → Step γ} {h : β → γ}
    (each : ∀ a, InStep R (fun y z => z = h y) (f a) (g a)) (xs : List α) :
    InStep R (fun ys zs => zs = ys.map h) (xs.mapM f) (xs.mapM g) := by
  induction xs with
  | nil =>
    rw [List.mapM_nil, List.mapM_nil]
    exact returns rfl
  | cons x xs ih =>
    rw [List.mapM_cons, List.mapM_cons]
    refine bind (each x) ?_
    rintro y _ rfl
    refine bind ih ?_
    rintro ys _ rfl
    exact returns rfl

theorem emits (push : ∀ b c l, R b c → R { b with out := b.out.push l } { c with out := c.out.push l })
    (is : List Asm.Instr) : InStep R Eq (emitAll is) (emitAll is) :=
  forM (fun i => changes fun b c => push b c (.instr i)) is

end InStep

end Steps

/-- A step that keeps two procedures in a relation keeps their generators in it. -/
inductive States (idle : Output → Output → Prop) (inside : Body → Body → Prop) : State → State → Prop
  | idle {o p : Output} : idle o p → States idle inside (.idle o) (.idle p)
  | inside {b c : Body} : inside b c → States idle inside (.inside b) (.inside c)

theorem advance_agree {O : Output → Output → Prop} {R : Body → Body → Prop} {x y : Step Unit} {b c : Body}
    (agree : Agree Alike (fun p q => R p.2 q.2) (x { b with reserved := [], returned := false })
      (y { c with reserved := [], returned := false })) :
    Agree Alike (States O R) (do return .inside (← b.advance x)) (do return .inside (← c.advance y)) := by
  refine Agree.bind ?_ fun b' c' related => .ok (.inside related)
  exact agree.bind fun _ _ related => .ok related

end Codegen

end ThreeAddress
