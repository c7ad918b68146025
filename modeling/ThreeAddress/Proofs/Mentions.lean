import ThreeAddress.Proofs.Capacity
import ThreeAddress.Proofs.Renaming
import ThreeAddress.Proofs.Semantics

/-! What an instruction mentions. A quad refers to each variable that its instruction touches, so that these are
in use up to the instruction. A name is in use at a position exactly if an argument that waits has it or a quad
refers to it before the procedure returns or ends. -/
namespace ThreeAddress

theorem Operand.mem_names {x : Operand} {n : String} : n ∈ x.names ↔ x.name? = some n := by
  cases x <;> simp [names, name?, eq_comm]

namespace Instr

/-- An instruction without arrays, pointers and calls. -/
def isSimple : Instr → Bool
  | .load _ _ _ => false
  | .store _ _ _ => false
  | .loadInd _ _ => false
  | .storeInd _ _ => false
  | .call _ _ => false
  | _ => true

/-- The variables whose values an instruction uses or queues. -/
def mentions (x : Instr) : List String := x.uses ++ (x.waits []).flatMap Operand.names

theorem mem_touches_of_mentions {x : Instr} {n : String} (mentioned : n ∈ x.mentions) : n ∈ x.touches := by
  cases x <;> simp_all [mentions, uses, waits, touches, operands, base?, Operand.mem_names, Operand.name?] <;> grind

theorem refers_of_decoded {q : Quad} {x : Instr} {n : String} (decodes : ofQuad q = .ok x)
    (mentioned : n ∈ x.mentions) : q.refers n = true :=
  (ofQuad_denotes decodes).2.refers (mem_touches_of_mentions mentioned)

theorem isBoundary_of_decoded {q : Quad} {x : Instr} (decodes : ofQuad q = .ok x)
    (plain : ∀ l, x = .label l → l.boundary = .plain) : q.isBoundary = false := by
  unfold Quad.isBoundary
  rcases ofQuad_cases decodes with ⟨l, isLabel, label⟩ | ⟨_, _, label, _⟩ | ⟨_, _, label, _⟩
  · simp [label, plain l isLabel]
  · simp [label]
  · simp [label]

theorem ofQuad_return {q : Quad} {x : Instr} (decodes : ofQuad q = .ok x) (op : q.op = "return") :
    ∃ y, x = .ret y := by
  obtain ⟨_, _, decodes⟩ := Codegen.except_bind_ok.mp decodes
  simp only [ofOpcode, op] at decodes
  exact ⟨_, (Except.ok.inj decodes).symm⟩

end Instr

namespace Codegen

/-- What the code behind an instruction uses is used from the instruction on, unless it returns or is at the
boundary of a procedure. -/
theorem usedLater_cons {pending : List Operand} {q : Quad} {rest : List Quad} {n : String}
    (inner : q.op ≠ "return" ∧ q.isBoundary = false) (used : usedLater pending rest n = true) :
    usedLater pending (q :: rest) n = true := by
  unfold usedLater at used ⊢
  unfold usedAhead
  grind

theorem usedLater_of_refers {pending : List Operand} {q : Quad} {rest : List Quad} {n : String}
    (refers : q.refers n = true) : usedLater pending (q :: rest) n = true := by
  simp [usedLater, usedAhead, refers]

/-- The first quad that refers to the name comes before the code stops. -/
theorem usedAhead_iff {n : String} {ahead : List Quad} :
    usedAhead n ahead = true ↔ ∃ (j : Nat) (q : Quad), ahead[j]? = some q ∧ q.refers n = true ∧
      ∀ (k : Nat) (r : Quad), k < j → ahead[k]? = some r → r.op ≠ "return" ∧ r.isBoundary = false := by
  induction ahead with
  | nil => simp [usedAhead]
  | cons q rest ih =>
    unfold usedAhead
    by_cases refers : q.refers n = true
    · rw [if_pos refers]
      exact ⟨fun _ => ⟨0, q, rfl, refers, by simp⟩, fun _ => rfl⟩
    rw [if_neg refers]
    constructor
    · intro used
      split at used
      · cases used
      · rename_i inner
        obtain ⟨j, r, found, refers, between⟩ := ih.mp used
        refine ⟨j + 1, r, found, refers, fun k s less found => ?_⟩
        cases k with
        | zero =>
          cases found
          simpa using inner
        | succ k => exact between k s (Nat.lt_of_succ_lt_succ less) found
    · rintro ⟨j, r, found, found_refers, between⟩
      cases j with
      | zero =>
        cases found
        exact absurd found_refers refers
      | succ j =>
        obtain ⟨op, inner⟩ := between 0 q (Nat.succ_pos j) rfl
        rw [if_neg (by simp [op, inner])]
        exact ih.mpr ⟨j, r, found, found_refers, fun k s less found =>
          between (k + 1) s (Nat.succ_lt_succ less) found⟩

/-- A name is in use if an argument waits for it or a quad behind the position refers to it in time. -/
theorem laterUse_iff {options : Options} {table : Scope} {code : List Quad} {i : Nat} {b : Body} {n : String} :
    laterUse (siteAt options table code i) b n = true ↔ (∃ y ∈ b.pending, y.name? = some n) ∨
      ∃ (j : Nat) (q : Quad), i < j ∧ code[j]? = some q ∧ q.refers n = true ∧
        ∀ (k : Nat) (r : Quad), i < k → k < j → code[k]? = some r → r.op ≠ "return" ∧ r.isBoundary = false := by
  simp only [laterUse, usedLater, siteAt, Bool.or_eq_true, List.any_eq_true, decide_eq_true_eq, usedAhead_iff,
    List.getElem?_drop]
  refine or_congr Iff.rfl ⟨?_, ?_⟩
  · rintro ⟨j, q, found, refers, between⟩
    refine ⟨i + 1 + j, q, by omega, found, refers, fun k r after before found => ?_⟩
    obtain ⟨d, rfl⟩ : ∃ d, k = i + 1 + d := ⟨k - (i + 1), by omega⟩
    exact between d r (by omega) found
  · rintro ⟨j, q, after, found, refers, between⟩
    obtain ⟨d, rfl⟩ : ∃ d, j = i + 1 + d := ⟨j - (i + 1), by omega⟩
    exact ⟨d, q, found, refers, fun k r less found => between _ r (by omega) (by omega) found⟩

/-- Next-use information is exact on quads and sound for instructions: where a name is not in use, no instruction
up to the next return or procedure label touches it. -/
theorem laterUse_sound {code : List Quad} {instrs : List Instr} (decoded : decodeFrom 0 code = .ok instrs) :
    (∀ options table i (b : Body) n, laterUse (siteAt options table code i) b n = true ↔
      (∃ y ∈ b.pending, y.name? = some n) ∨
        ∃ (j : Nat) (q : Quad), i < j ∧ code[j]? = some q ∧ q.refers n = true ∧
          ∀ (k : Nat) (r : Quad), i < k → k < j → code[k]? = some r → r.op ≠ "return" ∧ r.isBoundary = false) ∧
    (∀ q x, Instr.ofQuad q = .ok x → ∀ n ∈ x.touches, q.refers n = true) ∧
    ∀ options table i (b : Body) n, laterUse (siteAt options table code i) b n = false →
      (∀ y ∈ b.pending, y.name? ≠ some n) ∧
      ∀ (j : Nat) (x : Instr), i < j → instrs[j]? = some x →
        (∀ (k : Nat) (y : Instr), i < k → k < j → instrs[k]? = some y →
          (∀ v, y ≠ .ret v) ∧ ∀ l, y = .label l → l.boundary = .plain) →
        n ∉ x.touches := by
  refine ⟨fun _ _ _ _ _ => laterUse_iff, fun q x decodes n touched => (Instr.ofQuad_denotes decodes).2.refers touched,
    fun options table i b n unused => ?_⟩
  have unused := mt laterUse_iff.mpr (Bool.eq_false_iff.mp unused)
  refine ⟨fun y waits named => unused (.inl ⟨y, waits, named⟩),
    fun j x after found between touched => unused (.inr ?_)⟩
  obtain ⟨q, foundQuad, decodes⟩ := decodeFrom_getElem? decoded found
  refine ⟨j, q, after, foundQuad, (Instr.ofQuad_denotes decodes).2.refers touched,
    fun k r above below foundThere => ?_⟩
  obtain ⟨bound, _⟩ := List.getElem?_eq_some_iff.mp found
  obtain ⟨y, foundInstr⟩ : ∃ y, instrs[k]? = some y := ⟨_, List.getElem?_eq_getElem (by omega)⟩
  obtain ⟨r', foundThere', decodesThere⟩ := decodeFrom_getElem? decoded foundInstr
  cases foundThere.symm.trans foundThere'
  obtain ⟨unreturned, plain⟩ := between k y above below foundInstr
  refine ⟨fun op => ?_, Instr.isBoundary_of_decoded decodesThere plain⟩
  obtain ⟨v, rfl⟩ := Instr.ofQuad_return decodesThere op
  exact unreturned v rfl

/-- The second procedure has a variable of the same name as the first. -/
def sharingCode : List Quad :=
  Quad.numberedFrom 0 [
    { op := "label", arg1 := "func_f" },
    { op := "=", arg1 := "1", res := "x" },
    { op := "+", arg1 := "x", arg2 := "2", res := "y" },
    { op := "return", arg1 := "y" },
    { op := "label", arg1 := "end_f" },
    { op := "label", arg1 := "func_g" },
    { op := "=", arg1 := "3", res := "x" },
    { op := "return", arg1 := "x" },
    { op := "label", arg1 := "end_g" }]

theorem laterUse_sound_sharing :
    laterUse (siteAt {} ⟨[]⟩ sharingCode 1) (.start {} {} default default) "x" = true ∧
    laterUse (siteAt {} ⟨[]⟩ sharingCode 2) (.start {} {} default default) "x" = false ∧
    "x" ∉ (Instr.ret (some (.variable "y"))).touches := by
  have decoded : (decodeFrom 0 sharingCode).toOption.isSome = true := by decide +kernel
  obtain ⟨instrs, decoded⟩ := Option.isSome_iff_exists.mp decoded
  have returns : (decodeFrom 0 sharingCode).toOption.bind (·[3]?) = some (.ret (some (.variable "y"))) := by
    decide +kernel
  rw [decoded] at returns
  have unused : laterUse (siteAt {} ⟨[]⟩ sharingCode 2) (.start {} {} default default) "x" = false := by
    decide +kernel
  obtain ⟨exact_use, _, sound⟩ := laterUse_sound (eq_ok_of_toOption decoded)
  refine ⟨(exact_use {} ⟨[]⟩ 1 _ "x").mpr (.inr ⟨2, _, by omega, rfl, by decide +kernel, by omega⟩), unused, ?_⟩
  exact (sound {} ⟨[]⟩ 2 _ "x" unused).2 3 _ (by omega) returns (by omega)

end Codegen

end ThreeAddress
