import ThreeAddress.Proofs.Capacity

/-! Strict compilation accepts a read of a temporary only where the generator has an entry for it, and
loads and calls leave an entry for their result. -/
namespace ThreeAddress.Codegen

open Asm (Mem)
open Descriptor (Store Var Entry)

variable {site : Site} {limits : Limits} {b c : Body} {is : List Asm.Instr} {name : String}

/-- The generator has an entry for the name. -/
def Body.Knows (b : Body) (name : String) : Prop := ∃ v e, b.store.Has v e ∧ e.name = name

theorem Resides.knows {r : Reg} (resides : Resides b r name) (sound : b.store.Sound) : b.Knows name := by
  obtain ⟨v, e, entry, listed, same⟩ := resides
  exact ⟨v, e, sound.known_of_reg entry listed, same⟩

/-- Moves make no entry but for global variables. -/
theorem Moves.knows_before (moves : Moves site limits b is c) (sound : b.store.Sound)
    (undeclared : site.table.lookup name = none) (knows : c.Knows name) : b.Knows name := by
  induction moves with
  | refl => exact knows
  | step before move ih =>
    obtain ⟨v, f, known, rfl⟩ := knows
    rcases move.entry_before (before.sound sound) known.1 with
      ⟨e, entry, change⟩ | ⟨_, _, _, _, _, x, symbol, _⟩
    · exact ih ⟨v, e, ⟨entry, change.known known.2⟩, change.name.symm⟩
    · rw [undeclared] at symbol
      contradiction

/-! Operands -/

theorem Located.knows {needs : Needs} {i : Fin 8} {x : Operand} {y : MachineReg}
    (located : Located site needs (.arg i) b x y is c) (strict : site.options.strict = true)
    (sound : b.store.Sound) (undeclared : site.table.lookup name = none) (member : name ∈ x.names) :
    b.Knows name := by
  have quiet := Nat.le_of_eq (located.moves.warnings.2 strict)
  cases located with
  | zero | literal => contradiction
  | «variable» moves _ resides =>
    cases List.mem_singleton.mp member
    exact moves.knows_before sound undeclared ((resides quiet).knows (moves.sound sound))

theorem Copied.knows {i : Fin 8} {x : Operand} (copied : Copied site i b x is c)
    (strict : site.options.strict = true) (sound : b.store.Sound)
    (undeclared : site.table.lookup name = none) (member : name ∈ x.names) : b.Knows name := by
  have quiet := Nat.le_of_eq (copied.moves.warnings.2 strict)
  cases copied with
  | literal => contradiction
  | register moves resides =>
    cases List.mem_singleton.mp member
    exact moves.knows_before sound undeclared (resides.knows (moves.sound sound))
  | home moves known =>
    cases List.mem_singleton.mp member
    exact moves.knows_before sound undeclared ⟨_, _, known, rfl⟩
  | unresolved _ loud => exact absurd quiet loud

theorem Passed.knows {i : Nat} {x : Operand} (passed : Passed site b i x is c)
    (strict : site.options.strict = true) (sound : b.store.Sound)
    (undeclared : site.table.lookup name = none) (member : name ∈ x.names) : b.Knows name := by
  cases passed with
  | register _ _ copied => exact copied.knows strict sound undeclared member
  | resident _ moves resides =>
    cases List.mem_singleton.mp member
    exact moves.knows_before sound undeclared (resides.knows (moves.sound sound))
  | slot _ moves copied =>
    exact moves.knows_before sound undeclared
      (copied.knows strict (moves.sound sound) undeclared member)

theorem PassedAll.knows {i : Nat} {xs : List Operand} (passed : PassedAll site i xs b is c)
    (strict : site.options.strict = true) (sound : b.store.Sound)
    (undeclared : site.table.lookup name = none) (member : name ∈ xs.flatMap Operand.names) :
    b.Knows name := by
  induction passed with
  | nil => contradiction
  | @cons i x xs b c d is js first _ ih =>
    have moves := first.moves (Nat.lt_succ_self i)
    rcases List.mem_append.mp member with here | later
    · exact first.knows strict sound undeclared here
    · exact moves.knows_before sound undeclared (ih (moves.sound sound) later)

/-! Elements and pointers -/

theorem loaded_knows {needs : Needs} {r : Reg} (strict : site.options.strict = true)
    (sound : b.store.Sound) (undeclared : site.table.lookup name = none)
    (ran : loaded site name needs b = .ok (r, c)) : b.Knows name := by
  obtain ⟨⟨is, moves⟩, _, resides⟩ := loaded_moves sound ran
  have quiet := Nat.le_of_eq (moves.warnings.2 strict)
  exact moves.knows_before sound undeclared ((resides quiet).knows (moves.sound sound))

theorem operand_knows {x : Operand} {needs : Needs} {i : Fin 8} {y : MachineReg}
    (strict : site.options.strict = true) (sound : b.store.Sound)
    (undeclared : site.table.lookup name = none) (ran : operand site x needs (.arg i) b = .ok (y, c))
    (member : name ∈ x.names) : b.Knows name := by
  obtain ⟨is, located⟩ := operand_located sound ran
  exact located.knows strict sound undeclared member

theorem arrayPlace_knows {place : ArrayPlace} (arrays : b.arrays.lookup name = none)
    (undeclared : site.table.lookup name = none) (ran : arrayPlace site name b = .ok (place, c)) :
    b.Knows name := by
  simp only [arrayPlace, bind_ok, get_ok] at ran
  obtain ⟨_, _, ⟨rfl, rfl⟩, ran⟩ := ran
  cases known : b.store.lookup name with
  | some v =>
    obtain ⟨e, known, same⟩ := Store.lookup_spec known
    exact ⟨v, e, known, same⟩
  | none =>
    simp only [arrays, known, undeclared] at ran
    exact (failWith_ok.mp ran).elim

theorem element_knows {array : String} {index : Operand} {needs : Needs} {mem : Mem}
    (strict : site.options.strict = true) (sound : b.store.Sound)
    (arrays : b.arrays.lookup name = none) (undeclared : site.table.lookup name = none)
    (ran : element site array index needs b = .ok (mem, c)) (member : name ∈ array :: index.names) :
    b.Knows name := by
  simp only [element, bind_ok, within_ok, emitInstr_ok] at ran
  obtain ⟨i, b₁, first, _, _, rfl, place, d, placed, ran⟩ := ran
  rcases List.mem_cons.mp member with rfl | inside
  · obtain ⟨is, located⟩ := operand_located sound first
    have moves := located.moves
    have knows := arrayPlace_knows (by rw [moves.sameProcedure.arrays, arrays]) undeclared placed
    exact moves.knows_before sound undeclared knows
  · exact operand_knows strict sound undeclared first inside

/-! Instructions -/

/-- Strict compilation of an instruction that reads an undeclared name. -/
theorem lower_knows {x : Instr} (strict : site.options.strict = true) (consistent : Consistent b.store)
    (arrays : b.arrays.lookup name = none) (undeclared : site.table.lookup name = none)
    (ran : lower site x b = .ok ((), c)) (member : name ∈ x.reads b.pending) : b.Knows name := by
  have sound := consistent.sound
  cases x with
  | binary op left right res =>
    obtain ⟨d, first, _⟩ := straight_ok ran
    obtain ⟨_, _, _, _, _, _, b₁, _, _, left_at, right_at, _⟩ := binary_ok sound first
    rcases List.mem_append.mp member with inside | inside
    · exact left_at.knows strict sound undeclared inside
    · have moves := left_at.moves
      exact moves.knows_before sound undeclared
        (right_at.knows strict (moves.sound sound) undeclared inside)
  | unary op x res =>
    obtain ⟨d, first, _⟩ := straight_ok ran
    obtain ⟨_, _, _, _, _, _, located, _⟩ := unary_ok sound first
    exact located.knows strict sound undeclared member
  | copy src res =>
    obtain ⟨d, first, _⟩ := straight_ok ran
    rcases copy_ok sound first with ⟨same, _⟩ | ⟨other, _, _, _, _, _, _, located, _⟩
    · simp [Instr.reads, Instr.uses, same] at member
    · have read : name ∈ (Instr.copy src res).uses := member
      rw [Instr.uses, if_neg other] at read
      exact located.knows strict sound undeclared read
  | load array index res =>
    obtain ⟨d, first, _⟩ := straight_ok ran
    simp only [loadElement, bind_ok] at first
    obtain ⟨_, _, addressed, _⟩ := first
    exact element_knows strict sound arrays undeclared addressed member
  | store array index value =>
    obtain ⟨d, first, _⟩ := straight_ok ran
    simp only [storeElement, bind_ok, within_ok] at first
    obtain ⟨_, b₁, addressed, _, _, filled, _⟩ := first
    rcases List.mem_append.mp (show name ∈ (array :: index.names) ++ value.names from member) with
      inside | inside
    · exact element_knows strict sound arrays undeclared addressed inside
    · obtain ⟨is, moves⟩ := element_moves sound addressed
      exact moves.knows_before sound undeclared
        (operand_knows strict (moves.sound sound) undeclared filled inside)
  | loadInd pointer res =>
    obtain ⟨d, first, _⟩ := straight_ok ran
    simp only [loadIndirect, bind_ok, within_ok] at first
    obtain ⟨_, _, filled, _⟩ := first
    cases List.mem_singleton.mp member
    exact loaded_knows strict sound undeclared filled
  | storeInd pointer value =>
    obtain ⟨d, first, _⟩ := straight_ok ran
    simp only [storeIndirect, bind_ok, within_ok] at first
    obtain ⟨_, _, filled, _, _, filled', _⟩ := first
    rcases List.mem_cons.mp member with rfl | inside
    · exact loaded_knows strict sound undeclared filled
    · obtain ⟨⟨is, moves⟩, _⟩ := loaded_moves sound filled
      exact moves.knows_before sound undeclared
        (operand_knows strict (moves.sound sound) undeclared filled' inside)
  | branch cond ifTrue target =>
    obtain ⟨_, _, _, _, _, located, _⟩ := branch_ok sound ran
    exact located.knows strict sound undeclared member
  | call function res =>
    obtain ⟨_, _, _, _, _, _, _, _, called, _⟩ := call_ok consistent ran
    exact called.passed.knows strict sound undeclared member
  | ret y =>
    obtain ⟨_, _, _, _, returned, _⟩ := ret_ok sound ran
    cases returned with
    | nothing => contradiction
    | value copied =>
      exact copied.knows strict sound undeclared (by simpa [Instr.reads, Instr.uses] using member)
  | _ => contradiction

/-! Results -/

theorem Assigned.knows {res : String} {r : Reg} (assigned : Assigned site res b r is c)
    (sound : b.store.Sound) : c.Knows res := by
  cases assigned with
  | intro _ _ moves _ ready => exact Body.assign_known (moves.sound sound) ready.owned

theorem unbindAll_stays {s : Store Mem} {v w : Var} {e : Entry Mem} (rs : List Reg) (known : s.Has w e) :
    ∃ f, (rs.foldl (fun s r => s.unbind r v) s).Has w f ∧ f.name = e.name := by
  induction rs generalizing s e with
  | nil => exact ⟨e, known, rfl⟩
  | cons r rs ih =>
    by_cases same : w = v
    · subst same
      exact ih (e := { e with regs := e.regs.erase r }) ⟨by simp [known.1], known.2⟩
    · exact ih (e := e) ⟨by simp [same, known.1], known.2⟩

/-- No variable gets lost when those with a home leave the registers. -/
theorem evictAll_knows {vs : List Var} (ran : vs.forM evictOne b = .ok ((), c)) (knows : b.Knows name) :
    c.Knows name := by
  induction vs generalizing b with
  | nil =>
    obtain rfl := forM_nil_ok.mp ran
    exact knows
  | cons v vs ih =>
    obtain ⟨d, first, rest⟩ := forM_cons_ok.mp ran
    refine ih rest ?_
    simp only [evictOne, bind_ok, entryOf_ok] at first
    obtain ⟨_, _, ⟨_, rfl⟩, first⟩ := first
    split at first
    · obtain rfl := modifyStore_ok.mp first
      obtain ⟨w, e, known, rfl⟩ := knows
      obtain ⟨f, stays, same⟩ := unbindAll_stays _ known
      exact ⟨w, f, stays, same⟩
    · obtain ⟨_, rfl⟩ := pure_ok.mp first
      exact knows

theorem writeBack_knows (site : Site) (consistent : Consistent b.store) (ran : writeBack b = .ok ((), c))
    (knows : b.Knows name) : c.Knows name := by
  obtain ⟨⟨is, moves, _⟩, _⟩ : (∃ is, Moves site .still b is c ∧ _) ∧ _ := writeBack_moves ran
  obtain ⟨v, e, known, rfl⟩ := knows
  have located : e.home.isSome = true ∨ ∃ r, r ∈ e.regs :=
    (consistent.kept v e known (by simp)).imp_left (consistent.sound.housed v e known.1)
  obtain ⟨f, stays, same⟩ := moves.stays mem_regs_all consistent.sound known located
  exact ⟨v, f, stays, same⟩

/-- What an instruction inside of a block has assigned is known behind it. -/
theorem straight_gives {x : Step Unit} {res : String} (consistent : Consistent b.store)
    (ran : straight site x b = .ok ((), c))
    (assigns : ∀ d, x b = .ok ((), d) → ∃ r is b₁ mem,
      Moves site ⟨b.reserved, some res, [6, 7], 0⟩ b is b₁ ∧
      Assigned site res b₁ r (loadInstrs site.options (.pool r) mem) d) : c.Knows res := by
  simp only [straight, bind_ok] at ran
  obtain ⟨_, d, first, ran⟩ := ran
  obtain ⟨r, is, b₁, mem, moves, assigned⟩ := assigns d first
  have effect : Effect site b (some res) _ d := .result moves assigned
  have after : Consistent d.store := effect.consistent consistent
  have knows := assigned.knows (moves.sound consistent.sound)
  split at ran
  · simp only [evictHomed, bind_ok, get_ok] at ran
    obtain ⟨_, e, wrote, _, _, ⟨rfl, rfl⟩, evicted⟩ := ran
    exact evictAll_knows evicted (writeBack_knows site after wrote knows)
  · obtain ⟨_, rfl⟩ := pure_ok.mp ran
    exact knows

theorem Called.knows {function res : String} {js ks ls : List Asm.Instr} {b₁ b₂ b₃ b₄ : Body}
    (called : Called site function (some res) b c is js ks ls b₁ b₂ b₃ b₄) (sound : b₄.store.Sound) :
    c.Knows res := by
  cases called.answered with
  | result moves assigned => exact assigned.knows (moves.sound sound)

end ThreeAddress.Codegen
