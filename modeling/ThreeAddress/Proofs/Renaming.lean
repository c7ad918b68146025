import ThreeAddress.Proofs.Numerals
import ThreeAddress.Proofs.Pairing

/-! Another spelling of the names in three-address code. What decoding, the frames and the descriptors
make of it is the same thing in the other spelling. -/
namespace ThreeAddress

variable {ρ : String → String}

/-! Code -/

namespace Operand

def rename (ρ : String → String) : Operand → Operand
  | .literal n => .literal n
  | .variable name => .variable (ρ name)

theorem name?_rename (x : Operand) : (x.rename ρ).name? = x.name?.map ρ := by cases x <;> rfl

theorem value?_rename (x : Operand) : (x.rename ρ).value? = x.value? := by cases x <;> rfl

end Operand

/-- Respells the variables of a quad. Labels, jump targets and callees keep their names. -/
def Quad.rename (ρ : String → String) (q : Quad) : Quad :=
  if q.op = "label" ∨ q.op = "goto" then q
  else if q.op = "ifFalseGoto" ∨ q.op = "ifGoto" then { q with arg1 := ρ q.arg1, arg2 := ρ q.arg2 }
  else if q.op = "call" then { q with arg2 := ρ q.arg2, res := ρ q.res }
  else { q with arg1 := ρ q.arg1, arg2 := ρ q.arg2, res := ρ q.res }

def Instr.rename (ρ : String → String) : Instr → Instr
  | .binary op left right res => .binary op (left.rename ρ) (right.rename ρ) (ρ res)
  | .unary op x res => .unary op (x.rename ρ) (ρ res)
  | .imm n res => .imm n (ρ res)
  | .copy src res => .copy (ρ src) (ρ res)
  | .load array index res => .load (ρ array) (index.rename ρ) (ρ res)
  | .store array index value => .store (ρ array) (index.rename ρ) (value.rename ρ)
  | .loadInd pointer res => .loadInd (ρ pointer) (ρ res)
  | .storeInd pointer value => .storeInd (ρ pointer) (value.rename ρ)
  | .param x => .param (x.rename ρ)
  | .call function res => .call function (res.map ρ)
  | .branch cond ifTrue target => .branch (cond.rename ρ) ifTrue target
  | .goto target => .goto target
  | .label l => .label l
  | .ret x => .ret (x.map (Operand.rename ρ))
  | .nop => .nop

/-- Another spelling of the temporaries of a program: one to one, and the same for the empty text, for
literals and for the declared names. -/
structure Respells (ρ : String → String) (table : Scope) : Prop where
  injective : Function.Injective ρ
  empty : ρ "" = ""
  literal : ∀ s, (Operand.ofText s).isLiteral = true → ρ s = s
  symbol : ∀ s ∈ table.symbols, ρ s.name = s.name
  declared : ∀ f ∈ table.functions, ∀ d ∈ f.params ++ f.locals, ρ d.name = d.name

namespace Respells

variable {table : Scope}

theorem same (respells : Respells ρ table) (s t : String) : ρ s = ρ t ↔ s = t :=
  ⟨fun same => respells.injective same, congrArg ρ⟩

theorem isEmpty (respells : Respells ρ table) (s : String) : ρ s = "" ↔ s = "" := by
  simpa only [respells.empty] using respells.same s ""

theorem ofText (respells : Respells ρ table) (s : String) :
    Operand.ofText (ρ s) = (Operand.ofText s).rename ρ := by
  cases text : Operand.ofText s with
  | literal n => rw [respells.literal s (by rw [text]; rfl), text, Operand.rename]
  | «variable» name =>
    have name_eq : name = s := (Operand.ofText_variable text).symm
    cases renamed : Operand.ofText (ρ s) with
    | «variable» name' => rw [Operand.rename, name_eq, Operand.ofText_variable renamed]
    | literal n =>
      -- A literal is its own spelling, so that `s` would be the same literal.
      have fixed : ρ s = s := respells.injective (respells.literal (ρ s) (by rw [renamed]; rfl))
      rw [fixed, text] at renamed
      cases renamed

theorem id (table : Scope) : Respells id table where
  injective := fun _ _ same => same
  empty := rfl
  literal := fun _ _ => rfl
  symbol := fun _ _ => rfl
  declared := fun _ _ _ _ => rfl

end Respells

namespace Quad

variable (q : Quad)

theorem op_rename : (q.rename ρ).op = q.op := by
  unfold rename
  split <;> try split <;> try split
  all_goals rfl

theorem index_rename : (q.rename ρ).index = q.index := by
  unfold rename
  split <;> try split <;> try split
  all_goals rfl

variable {q}

theorem rename_of_target (target : q.op = "label" ∨ q.op = "goto") : q.rename ρ = q := if_pos target

theorem rename_of_branch (branch : q.op = "ifFalseGoto" ∨ q.op = "ifGoto") :
    q.rename ρ = { q with arg1 := ρ q.arg1, arg2 := ρ q.arg2 } := by
  unfold rename
  rcases branch with branch | branch <;> simp [branch]

theorem rename_of_call (call : q.op = "call") :
    q.rename ρ = { q with arg2 := ρ q.arg2, res := ρ q.res } := by
  simp [rename, call]

theorem rename_of_plain (target : ¬ (q.op = "label" ∨ q.op = "goto"))
    (branch : ¬ (q.op = "ifFalseGoto" ∨ q.op = "ifGoto")) (call : q.op ≠ "call") :
    q.rename ρ = { q with arg1 := ρ q.arg1, arg2 := ρ q.arg2, res := ρ q.res } := by
  rw [rename, if_neg target, if_neg branch, if_neg call]

variable (q)

theorem label?_rename : (q.rename ρ).label? = q.label? := by
  by_cases label : q.op = "label"
  · rw [rename_of_target (.inl label)]
  · simp [label?, op_rename, label]

theorem isBoundary_rename : (q.rename ρ).isBoundary = q.isBoundary := by
  simp only [isBoundary, label?_rename]

theorem refers_rename {table : Scope} (respells : Respells ρ table) (name : String) :
    (q.rename ρ).refers (ρ name) = q.refers name := by
  have same (s : String) : (ρ s == ρ name) = (s == name) := by
    rw [Bool.eq_iff_iff, beq_iff_eq, beq_iff_eq]
    exact respells.same s name
  unfold refers
  rw [op_rename]
  simp only [respells.isEmpty name]
  by_cases target : q.op = "label" ∨ q.op = "goto"
  · rw [if_pos target, if_pos target]
  by_cases branch : q.op = "ifFalseGoto" ∨ q.op = "ifGoto"
  · rw [if_pos branch, if_pos branch, rename_of_branch branch, same]
  by_cases call : q.op = "call"
  · rw [if_neg target, if_neg target, if_neg branch, if_neg branch, if_pos call, if_pos call,
      rename_of_call call, same]
  · rw [rename_of_plain target branch call, same, same, same]

end Quad

/-! Decoding -/

/-- Two failures to make sense of a quad, of one kind. -/
inductive Misread (e f : Error) : Prop
  | quad : e.kind = .badQuad → f.kind = .badQuad → Misread e f
  | opcode : e.kind = .unknownOpcode → f.kind = .unknownOpcode → Misread e f

theorem Misread.sameKind {e f : Error} (misread : Misread e f) : SameKind e f := by
  cases misread with
  | quad kind kind' => exact kind'.trans kind.symm
  | opcode kind kind' => exact kind'.trans kind.symm

namespace Instr

/-- What decoding sees of a field: whether it is there and which literal it is. -/
def seen (s : String) : Bool × Option Int := (s = "", (Operand.ofText s).value?)

theorem seen_rename {table : Scope} (respells : Respells ρ table) (s : String) : seen (ρ s) = seen s := by
  simp [seen, respells.isEmpty, respells.ofText, Operand.value?_rename]

variable {q q' : Quad} {fields fields' : List String}

theorem checkRange_agree (same : fields'.map seen = fields.map seen) :
    Agree Misread Eq (checkRange q fields) (checkRange q' fields') := by
  induction fields generalizing fields' with
  | nil =>
    cases List.map_eq_nil_iff.mp same
    exact .ok rfl
  | cons field fields ih =>
    obtain ⟨field', fields', rfl, head, tail⟩ := List.map_eq_cons_iff.mp same
    have value : (Operand.ofText field').value? = (Operand.ofText field).value? := congrArg Prod.snd head
    unfold checkRange
    cases text : Operand.ofText field with
    | literal n =>
      cases text' : Operand.ofText field' with
      | «variable» name => simp [text, text', Operand.value?] at value
      | literal n' =>
        have number : n' = n := by simpa [text, text', Operand.value?] using value
        subst number
        dsimp only
        split
        · exact ih tail
        · exact .error (.quad rfl rfl)
    | «variable» name =>
      cases text' : Operand.ofText field' with
      | literal n => simp [text, text', Operand.value?] at value
      | «variable» name' => exact ih tail

theorem need_agree (same : fields'.map seen = fields.map seen) :
    Agree Misread Eq (need q fields) (need q' fields') := by
  have empty : fields'.any (· = "") = fields.any (· = "") := by
    have any (fields : List String) : fields.any (· = "") = (fields.map seen).any (·.1) := by
      simp [List.any_map, seen, Function.comp_def]
    rw [any fields', same, ← any fields]
  unfold need
  rw [empty]
  split
  · exact .error (.quad rfl rfl)
  · exact .ok rfl

theorem checkVariables_agree (same : fields'.map seen = fields.map seen) :
    Agree Misread Eq (checkVariables q fields) (checkVariables q' fields') := by
  induction fields generalizing fields' with
  | nil =>
    cases List.map_eq_nil_iff.mp same
    exact .ok rfl
  | cons field fields ih =>
    obtain ⟨field', fields', rfl, head, tail⟩ := List.map_eq_cons_iff.mp same
    have literal : (Operand.ofText field').isLiteral = (Operand.ofText field).isLiteral :=
      congrArg (·.2.isSome) head
    unfold checkVariables
    rw [literal]
    split
    · exact .error (.quad rfl rfl)
    · exact ih tail

theorem needVariables_agree (same : fields'.map seen = fields.map seen) :
    Agree Misread Eq (needVariables q fields) (needVariables q' fields') :=
  (need_agree same).bind fun _ _ _ => checkVariables_agree same

variable {table : Scope}

theorem firstGiven_rename (respells : Respells ρ table) (s t : String) :
    firstGiven (ρ s) (ρ t) = ρ (firstGiven s t) := by
  simp only [firstGiven, respells.isEmpty]
  split <;> rfl

theorem given?_rename (respells : Respells ρ table) (s : String) : given? (ρ s) = (given? s).map ρ := by
  simp only [given?, respells.isEmpty]
  split <;> rfl

theorem ofOperation_agree (respells : Respells ρ table) (q : Quad) :
    Agree Misread (fun x y => y = x.rename ρ) (ofOperation q)
      (ofOperation { q with arg1 := ρ q.arg1, arg2 := ρ q.arg2, res := ρ q.res }) := by
  have checked {x y : Instr} (same : y = x.rename ρ) : Agree Misread (fun x y => y = x.rename ρ)
      (do needVariables q [q.res]; need q [q.arg1]; return x)
      (do
        needVariables { q with arg1 := ρ q.arg1, arg2 := ρ q.arg2, res := ρ q.res } [ρ q.res]
        need { q with arg1 := ρ q.arg1, arg2 := ρ q.arg2, res := ρ q.res } [ρ q.arg1]
        return y) := by
    apply Agree.bind (needVariables_agree (by simp [seen_rename respells]))
    rintro _ _ _
    apply Agree.bind (need_agree (by simp [seen_rename respells]))
    exact fun _ _ _ => .ok same
  unfold ofOperation
  simp only [respells.isEmpty]
  cases (if q.arg2 = "" then none else BinaryOp.ofText? q.op) with
  | some op => exact checked (by rw [respells.ofText, respells.ofText]; rfl)
  | none =>
    cases UnaryOp.ofText? q.op with
    | some op => exact checked (by rw [respells.ofText]; rfl)
    | none => exact .error (.opcode rfl rfl)

theorem ofOpcode_agree (respells : Respells ρ table) (q : Quad) :
    Agree Misread (fun x y => y = x.rename ρ) (ofOpcode q) (ofOpcode (q.rename ρ)) := by
  have looks := seen_rename respells
  have plain (target : ¬ (q.op = "label" ∨ q.op = "goto"))
      (branch : ¬ (q.op = "ifFalseGoto" ∨ q.op = "ifGoto")) (call : q.op ≠ "call") :=
    Quad.rename_of_plain (ρ := ρ) target branch call
  have checked {x y : Instr} {q' : Quad} {fields fields' : List String}
      (fieldsSame : fields'.map seen = fields.map seen) (same : y = x.rename ρ) :
      Agree Misread (fun x y => y = x.rename ρ) (do need q fields; return x)
        (do need q' fields'; return y) := (need_agree fieldsSame).bind fun _ _ _ => .ok same
  have places {x y : Instr} {q' : Quad} {fields fields' : List String}
      (fieldsSame : fields'.map seen = fields.map seen) (same : y = x.rename ρ) :
      Agree Misread (fun x y => y = x.rename ρ) (do needVariables q fields; return x)
        (do needVariables q' fields'; return y) :=
      (needVariables_agree fieldsSame).bind fun _ _ _ => .ok same
  unfold ofOpcode
  rw [Quad.op_rename]
  split <;> rename_i op
  · rw [plain (by simp [op]) (by simp [op]) (by simp [op])]
    refine (need_agree (by simp [looks])).bind fun _ _ _ => ?_
    dsimp only
    rw [respells.ofText]
    cases Operand.ofText q.arg1 <;> exact .ok rfl
  · rw [plain (by simp [op]) (by simp [op]) (by simp [op])]
    refine (needVariables_agree (by simp [looks])).bind fun _ _ _ => checked (by simp [looks]) ?_
    rw [respells.ofText, Instr.rename]
  · rw [plain (by simp [op]) (by simp [op]) (by simp [op])]
    refine (needVariables_agree (by simp [looks])).bind fun _ _ _ => checked (by simp [looks]) ?_
    rw [respells.ofText, respells.ofText, Instr.rename]
  · rw [plain (by simp [op]) (by simp [op]) (by simp [op])]
    exact places (by simp [looks]) rfl
  · rw [plain (by simp [op]) (by simp [op]) (by simp [op])]
    refine (needVariables_agree (by simp [looks])).bind fun _ _ _ => checked (by simp [looks]) ?_
    rw [respells.ofText, Instr.rename]
  · rw [plain (by simp [op]) (by simp [op]) (by simp [op])]
    exact checked (by simp [looks]) (by rw [respells.ofText, Instr.rename])
  · rw [Quad.rename_of_call op]
    exact places rfl (by rw [given?_rename respells, Instr.rename])
  · rw [Quad.rename_of_branch (.inl op)]
    exact checked (by simp [looks]) (by rw [respells.ofText, Instr.rename])
  · rw [Quad.rename_of_branch (.inr op)]
    exact checked (by simp [looks]) (by rw [respells.ofText, Instr.rename])
  · rw [Quad.rename_of_target (.inr op)]
    exact checked rfl rfl
  · rw [Quad.rename_of_target (.inl op)]
    exact checked rfl rfl
  · rw [plain (by simp [op]) (by simp [op]) (by simp [op])]
    simp only [firstGiven_rename respells, given?_rename respells, Option.map_map]
    have texts : Operand.ofText ∘ ρ = Operand.rename ρ ∘ Operand.ofText := funext respells.ofText
    rw [texts]
    exact .ok (by rw [Instr.rename, Option.map_map])
  · exact .ok rfl
  · exact .ok rfl
  · exact .ok rfl
  · rw [plain (by simp_all) (by simp_all) (by simp_all)]
    exact ofOperation_agree respells q

/-- A quad in the other spelling stands for the instruction in the other spelling. -/
theorem ofQuad_agree (respells : Respells ρ table) (q : Quad) :
    Agree Misread (fun x y => y = x.rename ρ) (ofQuad q) (ofQuad (q.rename ρ)) := by
  refine (checkRange_agree ?_).bind fun _ _ _ => ofOpcode_agree respells q
  have looks := seen_rename respells
  unfold Quad.rename
  split
  · rfl
  · split
    · simp [looks]
    · split <;> simp [looks]

theorem ofQuad_misread {q : Quad} {e : Error} (failed : ofQuad q = .error e) :
    e.kind = .badQuad ∨ e.kind = .unknownOpcode := by
  obtain ⟨f, _, misread⟩ := (ofQuad_agree (Respells.id {}) q).failed failed
  cases misread with
  | quad kind => exact .inl kind
  | opcode kind => exact .inr kind

end Instr

/-! Uses ahead and frames -/

namespace Codegen

theorem usedAhead_rename {table : Scope} (respells : Respells ρ table) (name : String) (code : List Quad) :
    usedAhead (ρ name) (code.map (Quad.rename ρ)) = usedAhead name code := by
  induction code with
  | nil => rfl
  | cons q code ih =>
    simp only [List.map_cons, usedAhead, Quad.refers_rename q respells, Quad.op_rename,
      Quad.isBoundary_rename, ih]

theorem usedLater_rename {table : Scope} (respells : Respells ρ table) (pending : List Operand)
    (ahead : List Quad) (name : String) :
    usedLater (pending.map (Operand.rename ρ)) (ahead.map (Quad.rename ρ)) (ρ name) =
      usedLater pending ahead name := by
  have waits (x : Operand) : decide ((x.rename ρ).name? = some (ρ name)) = decide (x.name? = some name) := by
    rw [decide_eq_decide, Operand.name?_rename]
    cases x <;> simp [Operand.name?, respells.same]
  simp only [usedLater, usedAhead_rename respells, List.any_map, Function.comp_def, waits]

end Codegen

namespace Frame

theorem callSites_rename (table : Scope) (current : String) (code : List Quad) :
    callSites table current (code.map (Quad.rename ρ)) = callSites table current code := by
  induction code generalizing current with
  | nil => rfl
  | cons q code ih =>
    have callee (call : q.op = "call") : (q.rename ρ).arg1 = q.arg1 := by rw [Quad.rename_of_call call]
    simp only [List.map_cons, callSites, Quad.label?_rename, Quad.op_rename, ih]
    split
    · rfl
    · rfl
    · rfl
    · split
      · rename_i call
        rw [callee call.1]
      · rfl

/-- Frames depend on the symbols and the callees only. -/
theorem plan_rename (options : Options) (table : Scope) (code : List Quad) :
    plan options table (code.map (Quad.rename ρ)) = plan options table code := by
  simp only [plan, callSites_rename]

end Frame

/-! Descriptors -/

namespace Descriptor

variable {Home : Type}

def Entry.rename (ρ : String → String) (e : Entry Home) : Entry Home := { e with name := ρ e.name }

namespace Store

def rename (ρ : String → String) (s : Store Home) : Store Home :=
  { s with entries := s.entries.map (Entry.rename ρ) }

variable (s : Store Home)

theorem held_rename (r : Reg) : (s.rename ρ).held r = s.held r := rfl

theorem modifyHeld_rename (r : Reg) (f : KeySet Var → KeySet Var) :
    (s.rename ρ).modifyHeld r f = (s.modifyHeld r f).rename ρ := rfl

theorem get?_rename (v : Var) : (s.rename ρ).get? v = (s.get? v).map (Entry.rename ρ) := List.getElem?_map

theorem live_rename : (s.rename ρ).live = s.live := by
  simp only [live, rename, List.zipIdx_map, List.filterMap_map]
  rfl

theorem lookup_rename (one : Function.Injective ρ) (name : String) :
    (s.rename ρ).lookup (ρ name) = s.lookup name := by
  have same (e : Entry Home) : (ρ e.name = ρ name) ↔ e.name = name := ⟨fun same => one same, congrArg ρ⟩
  simp only [lookup, rename, List.findIdx?_map, Function.comp_def, Entry.rename, same]

theorem modifyEntry_rename {f : Entry Home → Entry Home}
    (keeps : ∀ e, f (e.rename ρ) = (f e).rename ρ) (v : Var) :
    (s.rename ρ).modifyEntry v f = (s.modifyEntry v f).rename ρ := by
  have entries (l : List (Entry Home)) :
      (l.map (Entry.rename ρ)).modify v f = (l.modify v f).map (Entry.rename ρ) := by
    apply List.ext_getElem?
    intro i
    simp only [List.getElem?_map, List.getElem?_modify]
    split <;> cases l[i]? <;> simp [keeps]
  simp only [modifyEntry, rename, entries]

theorem intern_rename (one : Function.Injective ρ) (name : String) :
    (s.rename ρ).intern (ρ name) = ((s.intern name).1, (s.intern name).2.rename ρ) := by
  simp only [intern, lookup_rename s one]
  cases s.lookup name with
  | some v => rfl
  | none => simp [rename, Entry.rename]

theorem declare_rename (one : Function.Injective ρ) (name : String) (home : Option Home) :
    (s.rename ρ).declare (ρ name) home = ((s.declare name home).1, (s.declare name home).2.rename ρ) := by
  simp only [declare, intern_rename s one]
  rw [modifyEntry_rename]
  exact fun e => rfl

theorem markStored_rename (v : Var) : (s.rename ρ).markStored v = (s.markStored v).rename ρ := by
  refine modifyEntry_rename s ?_ v
  exact fun _ => rfl

theorem unbind_rename (r : Reg) (v : Var) : (s.rename ρ).unbind r v = (s.unbind r v).rename ρ := by
  refine modifyEntry_rename (s.modifyHeld r (·.erase v)) ?_ v
  exact fun _ => rfl

theorem releaseFrom_rename (v : Var) (rs : List Reg) :
    (s.rename ρ).releaseFrom v rs = (s.releaseFrom v rs).rename ρ :=
  List.foldl_hom (rename ρ) fun _ _ => rfl

theorem locations_rename (v : Var) : (s.rename ρ).locations v = s.locations v := by
  simp only [locations, get?_rename]
  cases s.get? v <;> rfl

theorem drop_rename (v : Var) : (s.rename ρ).drop v = (s.drop v).rename ρ := by
  simp only [drop, locations_rename, releaseFrom_rename]
  refine modifyEntry_rename _ ?_ v
  exact fun _ => rfl

theorem dropOrphan_rename (v : Var) : (s.rename ρ).dropOrphan v = (s.dropOrphan v).rename ρ := by
  simp only [dropOrphan, get?_rename]
  cases s.get? v with
  | none => rfl
  | some e =>
    simp only [Option.map_some, Entry.rename, drop_rename]
    split <;> rfl

theorem evict_rename (r : Reg) (vs : List Var) : (s.rename ρ).evict r vs = (s.evict r vs).rename ρ :=
  List.foldl_hom (rename ρ) fun s v => by rw [unbind_rename, dropOrphan_rename]

theorem clearRegister_rename (r : Reg) : (s.rename ρ).clearRegister r = (s.clearRegister r).rename ρ :=
  evict_rename s r _

theorem clearAll_rename : (s.rename ρ).clearAll = s.clearAll.rename ρ :=
  List.foldl_hom (rename ρ) clearRegister_rename

theorem bind_rename (r : Reg) (v : Var) : (s.rename ρ).bind r v = (s.bind r v).rename ρ := by
  simp only [bind, held_rename, evict_rename, modifyHeld_rename]
  refine modifyEntry_rename _ ?_ v
  exact fun _ => rfl

theorem commit_rename (r : Reg) (v : Var) : (s.rename ρ).commit r v = (s.commit r v).rename ρ := by
  simp only [commit, locations_rename, releaseFrom_rename, bind_rename]
  refine modifyEntry_rename _ ?_ v
  exact fun _ => rfl

end Store

end Descriptor

end ThreeAddress
