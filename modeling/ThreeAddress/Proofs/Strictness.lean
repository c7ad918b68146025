import ThreeAddress.Proofs.Coupling

/-! A program compiles in strict mode if and only if it compiles without a warning, and then to the
same listing. -/
namespace ThreeAddress.Codegen

open Asm (Listing)

/-- A lenient generator beside a strict one that has not failed: nothing was unresolved. -/
def lenientAfterStrict : Coupling := .lasting (fun o p => o = p ∧ o.warnings = #[]) <| by
  rintro o _ l ⟨rfl, none⟩
  exact ⟨rfl, none⟩

/-- A strict generator beside a lenient one, which is stray from its first warning on. -/
def strictAfterLenient : Coupling where
  related o p := o = p
  stray o := o.warnings ≠ #[]
  faithful := False
  slotted := False
  calm := fun impossible => impossible.elim
  push := by
    rintro o _ l _ rfl
    rfl
  stray_push := fun _ _ stray => stray

theorem unresolved_strict {site : Site} (strict : site.options.strict = true) (c : Cause) :
    unresolved site c = failWith c := if_pos strict

theorem unresolved_lenient {site : Site} (lenient : site.options.strict = false) (c : Cause) :
    unresolved site c = modify fun b =>
      { b with out := b.out.warn { contexts := [.instr site.position], cause := c } } := by
  simp [unresolved, lenient]

theorem lenientAfterStrict_unresolved {s t : Site} (strict : s.options.strict = true) (c : Cause) :
    lenientAfterStrict.Follows (unresolved s c) (unresolved t c) := by
  rw [unresolved_strict strict]
  constructor
  · intro b o related impossible
    exact impossible.elim
  · exact fun _ _ _ stray => stray.elim

theorem strictAfterLenient_unresolved {s t : Site} (lenient : s.options.strict = false) (c : Cause) :
    strictAfterLenient.Follows (unresolved s c) (unresolved t c) := by
  rw [unresolved_lenient lenient]
  have warned (b : Body) (e : Error) : (b.out.warn e).warnings ≠ #[] := by simp [Output.warn]
  constructor
  · intro b o related
    exact .inl (warned b _)
  · intro b d u stray ran
    obtain rfl := modify_ok.mp ran
    exact warned b _

section Modes

variable {k : Coupling} (options : Options) (table : Scope) (frames : List Frame.Layout) (n : Nat)
  (rest : List Quad)

theorem writes_of_modes (strict strict' : Bool) (slots : ¬ k.slotted) :
    k.Writes ⟨{ options with strict := strict }, table, frames, n, rest⟩
      ⟨{ options with strict := strict' }, table, frames, n, rest⟩ where
  load := fun _ _ _ _ related => Coupling.related_append related _ fun slotted => absurd slotted slots
  jump := fun _ _ _ _ related => Coupling.related_append related _ fun slotted => absurd slotted slots

/-- The mode is of importance only where something is unresolved. -/
theorem meets_of_modes (strict strict' : Bool)
    (unresolved : ∀ c, k.Follows (unresolved ⟨{ options with strict := strict }, table, frames, n, rest⟩ c)
      (unresolved ⟨{ options with strict := strict' }, table, frames, n, rest⟩ c))
    (slots : ¬ k.slotted := by exact id) (x : Instr) (st : State) :
    k.Meets ⟨{ options with strict := strict }, table, frames, n, rest⟩
      ⟨{ options with strict := strict' }, table, frames, n, rest⟩ x st where
  table := rfl
  entry := rfl
  frame := fun _ _ _ _ => rfl
  writes := writes_of_modes options table frames n rest strict strict' slots
  joins := fun _ _ _ =>
    { writes_of_modes options table frames n rest strict strict' slots with
      table := rfl
      flushEach := rfl
      ahead := fun _ => rfl
      framed := fun _ => Iff.rfl
      unresolved := unresolved }

end Modes

theorem compile_strict_iff_unwarned (options : Options) (table : Scope) (code : List Quad) (listing : Listing) :
    compile { options with strict := true } table code = .ok listing ↔
      compile { options with strict := false } table code = .ok listing ∧ listing.warnings = [] := by
  constructor
  · intro compiled
    obtain ⟨o, rfl, impossible | ⟨_, ⟨rfl, none⟩, lenient⟩⟩ :=
      compile_follows (k := lenientAfterStrict) ⟨rfl, rfl⟩ (fun n rest => meets_of_modes options table _ n rest
        true false (lenientAfterStrict_unresolved rfl)) compiled
    · exact impossible.elim
    · exact ⟨lenient, by simp [none]⟩
  · rintro ⟨compiled, clean⟩
    obtain ⟨o, rfl, stray | ⟨_, rfl, strict⟩⟩ :=
      compile_follows (k := strictAfterLenient) rfl (fun n rest => meets_of_modes options table _ n rest
        false true (strictAfterLenient_unresolved rfl)) compiled
    · exact absurd (Array.toList_eq_nil_iff.mp clean) stray
    · exact strict

/-! A step without warnings -/

/-- A strict generator beside a lenient one, which is stray once it has warned more often than that. -/
def strictSince (warned : Nat) : Coupling where
  related o p := o = p ∧ warned ≤ o.warnings.size
  stray o := warned < o.warnings.size
  faithful := False
  slotted := False
  calm := fun impossible => impossible.elim
  push := by
    rintro o _ l _ ⟨rfl, before⟩
    exact ⟨rfl, before⟩
  stray_push := fun _ _ stray => stray

theorem strictSince_unresolved {s t : Site} {warned : Nat} (lenient : s.options.strict = false) (c : Cause) :
    (strictSince warned).Follows (unresolved s c) (unresolved t c) := by
  rw [unresolved_lenient lenient]
  have more (b : Body) (e : Error) : (b.out.warn e).warnings.size = b.out.warnings.size + 1 := by simp [Output.warn]
  constructor
  · rintro b _ ⟨rfl, before⟩
    exact .inl (Nat.lt_of_lt_of_eq (Nat.lt_succ_of_le before) (more b _).symm)
  · intro b d u stray ran
    obtain rfl := modify_ok.mp ran
    exact Nat.lt_of_lt_of_eq (Nat.lt_succ_of_lt stray) (more b _).symm

/-- The same site in strict mode. -/
def Site.strictly (site : Site) : Site := { site with options := { site.options with strict := true } }

theorem strictSince_joins {site : Site} {warned : Nat} (lenient : site.options.strict = false) :
    (strictSince warned).Joins site site.strictly where
  load := fun _ _ _ _ related => Coupling.related_append related _ fun slotted => slotted.elim
  jump := fun _ _ _ _ related => Coupling.related_append related _ fun slotted => slotted.elim
  table := rfl
  flushEach := rfl
  ahead := fun _ => rfl
  framed := fun _ => Iff.rfl
  unresolved := strictSince_unresolved lenient

/-- What is lowered without a warning is lowered in strict mode as well. -/
theorem lower_strictly {site : Site} {x : Instr} {b c : Body} (lowers : lower site x b = .ok ((), c))
    (quiet : c.out.warnings.size ≤ b.out.warnings.size) : lower site.strictly x b = .ok ((), c) := by
  cases mode : site.options.strict with
  | true =>
    have same : site.strictly = site := by simp [Site.strictly, ← mode]
    rwa [same]
  | false =>
    have follows := (lower_follows (strictSince_joins mode) x).follows b b.out ⟨rfl, Nat.le_refl b.out.warnings.size⟩
    rw [lowers] at follows
    rcases follows with stray | ⟨_, ⟨rfl, _⟩, strict⟩
    · exact absurd stray (Nat.not_lt.mpr quiet)
    · exact strict

end ThreeAddress.Codegen
