import ThreeAddress.Proofs.Invariant

/-! What quads stand for. A quad that decodes has the fields that its opcode asks for, its literals have
32 bits, and its instruction is made of its fields. -/
namespace ThreeAddress

/-- A literal has 32 bits. -/
def Operand.isInRange : Operand → Bool
  | .literal n => Instr.immediateInRange n
  | .variable _ => true

/-- Text that can name something: it is there and no literal. -/
def Operand.IsName (s : String) : Prop := s ≠ "" ∧ (Operand.ofText s).isLiteral = false

theorem Operand.ofText_of_isName {s : String} (name : IsName s) : ofText s = .variable s := by
  have literal := name.2
  unfold ofText at literal ⊢
  split at literal
  · cases literal
  · rfl

theorem Operand.name?_ofText {s n : String} : (ofText s).name? = some n ↔ s = n ∧ (ofText s).isLiteral = false := by
  unfold ofText
  split <;> simp [name?, isLiteral, value?]

namespace Instr

/-- The opcodes that are no operators. -/
def opcodes : List String :=
  ["=", "=[]", "[]=", "$=", "=$", "param", "call", "ifFalseGoto", "ifGoto", "goto", "label", "return",
    "alloc_global", "alloc", "nop"]

/-- The operands whose values an instruction works on. -/
def operands : Instr → List Operand
  | .binary _ left right _ => [left, right]
  | .unary _ x _ => [x]
  | .imm n _ => [.literal n]
  | .copy src _ => [.variable src]
  | .load _ index _ => [index]
  | .store _ index value => [index, value]
  | .storeInd _ value => [value]
  | .param x => [x]
  | .branch cond _ _ => [cond]
  | .ret x => x.toList
  | _ => []

/-- The array that an instruction indexes or the pointer that it follows. -/
def base? : Instr → Option String
  | .load array _ _ => some array
  | .store array _ _ => some array
  | .loadInd pointer _ => some pointer
  | .storeInd pointer _ => some pointer
  | _ => none

def callee? : Instr → Option String
  | .call function _ => some function
  | _ => none

def result? : Instr → Option String
  | .binary _ _ _ res => some res
  | .unary _ _ res => some res
  | .imm _ res => some res
  | .copy _ res => some res
  | .load _ _ res => some res
  | .loadInd _ res => some res
  | .call _ res => res
  | _ => none

/-- The name of the label that an instruction sets or jumps to. -/
def labelName? : Instr → Option String
  | .branch _ _ target => some target
  | .goto target => some target
  | .label l => some l.name
  | _ => none

/-- The variables that an instruction reads, writes or queues. -/
def touches (x : Instr) : List String :=
  x.operands.filterMap Operand.name? ++ x.base?.toList ++ x.result?.toList

end Instr

/-- What a quad stands for, with the fields that its opcode asks for. -/
inductive Quad.Denotes (q : Quad) : Instr → Prop
  | imm {n : Int} (op : q.op = "=") (arg1 : Operand.ofText q.arg1 = .literal n) (res : q.res ≠ "") :
    Denotes q (.imm n q.res)
  | copy (op : q.op = "=") (arg1 : Operand.IsName q.arg1) (res : q.res ≠ "") : Denotes q (.copy q.arg1 q.res)
  | load (op : q.op = "=[]") (arg1 : Operand.IsName q.arg1) (arg2 : q.arg2 ≠ "")
    (res : Operand.IsName q.res) : Denotes q (.load q.arg1 (.ofText q.arg2) q.res)
  | store (op : q.op = "[]=") (arg1 : q.arg1 ≠ "") (arg2 : q.arg2 ≠ "") (res : Operand.IsName q.res) :
    Denotes q (.store q.res (.ofText q.arg1) (.ofText q.arg2))
  | loadInd (op : q.op = "$=") (arg1 : Operand.IsName q.arg1) (res : Operand.IsName q.res) :
    Denotes q (.loadInd q.arg1 q.res)
  | storeInd (op : q.op = "=$") (arg1 : Operand.IsName q.arg1) (arg2 : q.arg2 ≠ "") :
    Denotes q (.storeInd q.arg1 (.ofText q.arg2))
  | param (op : q.op = "param") (arg1 : q.arg1 ≠ "") : Denotes q (.param (.ofText q.arg1))
  | call (op : q.op = "call") (arg1 : Operand.IsName q.arg1) :
    Denotes q (.call q.arg1 (Instr.given? q.res))
  | branch (ifTrue : Bool) (op : q.op = if ifTrue then "ifGoto" else "ifFalseGoto") (arg1 : q.arg1 ≠ "")
    (res : q.res ≠ "") : Denotes q (.branch (.ofText q.arg1) ifTrue q.res)
  | goto (op : q.op = "goto") (target : Instr.firstGiven q.res q.arg1 ≠ "") :
    Denotes q (.goto (Instr.firstGiven q.res q.arg1))
  | label (op : q.op = "label") (arg1 : q.arg1 ≠ "") : Denotes q (.label (.ofName q.arg1))
  | ret (op : q.op = "return") :
    Denotes q (.ret ((Instr.given? (Instr.firstGiven q.res q.arg1)).map .ofText))
  | nop (op : q.op ∈ ["alloc_global", "alloc", "nop"]) : Denotes q .nop
  | binary {op : BinaryOp} (other : q.op ∉ Instr.opcodes) (operator : BinaryOp.ofText? q.op = some op)
    (arg1 : q.arg1 ≠ "") (arg2 : q.arg2 ≠ "") (res : Operand.IsName q.res) :
    Denotes q (.binary op (.ofText q.arg1) (.ofText q.arg2) q.res)
  | unary {op : UnaryOp} (other : q.op ∉ Instr.opcodes) (operator : UnaryOp.ofText? q.op = some op)
    (single : q.arg2 = "" ∨ BinaryOp.ofText? q.op = none) (arg1 : q.arg1 ≠ "")
    (res : Operand.IsName q.res) : Denotes q (.unary op (.ofText q.arg1) q.res)

namespace Instr

theorem given?_eq_some {s t : String} : given? s = some t ↔ s ≠ "" ∧ s = t := by
  unfold given?
  split <;> simp_all

theorem checkRange_ok {q : Quad} {fields : List String} (ran : checkRange q fields = .ok ()) :
    ∀ field ∈ fields, (Operand.ofText field).isInRange = true := by
  induction fields with
  | nil => simp
  | cons field fields ih =>
    intro f member
    simp only [checkRange] at ran
    rcases List.mem_cons.mp member with rfl | member
    · split at ran
      · rename_i n text
        split at ran
        · rename_i range
          simpa [text, Operand.isInRange] using range
        · simp [fail] at ran
      · rename_i text
        simp [text, Operand.isInRange]
    · split at ran
      · split at ran
        · exact ih ran f member
        · simp [fail] at ran
      · exact ih ran f member

theorem need_ok {q : Quad} {fields : List String} (ran : need q fields = .ok ()) :
    ∀ field ∈ fields, field ≠ "" := by
  rintro _ member rfl
  unfold need at ran
  rw [if_pos (List.any_eq_true.mpr ⟨"", member, by simp⟩)] at ran
  cases ran

theorem checkVariables_ok {q : Quad} {fields : List String} (ran : checkVariables q fields = .ok ()) :
    ∀ field ∈ fields, (Operand.ofText field).isLiteral = false := by
  induction fields with
  | nil => simp
  | cons field fields ih =>
    unfold checkVariables at ran
    split at ran
    · cases ran
    · rename_i named
      exact List.forall_mem_cons.mpr ⟨by simpa using named, ih ran⟩

theorem needVariables_ok {q : Quad} {fields : List String} (ran : needVariables q fields = .ok ()) :
    ∀ field ∈ fields, Operand.IsName field := by
  obtain ⟨_, given, named⟩ := Codegen.except_bind_ok.mp ran
  intro field member
  exact ⟨need_ok given field member, checkVariables_ok named field member⟩

theorem ofOperation_denotes {q : Quad} {x : Instr} (other : q.op ∉ opcodes) (ran : ofOperation q = .ok x) :
    q.Denotes x := by
  unfold ofOperation at ran
  split at ran
  · rename_i op binary
    simp only [Codegen.except_bind_ok] at ran
    obtain ⟨_, named, _, given, same⟩ := ran
    cases Except.ok.inj same
    have arg2 : q.arg2 ≠ "" := fun empty => by simp [empty] at binary
    rw [if_neg arg2] at binary
    exact .binary other binary (need_ok given _ (by simp)) arg2 (needVariables_ok named _ (by simp))
  · rename_i single
    split at ran
    · rename_i op unary
      simp only [Codegen.except_bind_ok] at ran
      obtain ⟨_, named, _, given, same⟩ := ran
      cases Except.ok.inj same
      have single : q.arg2 = "" ∨ BinaryOp.ofText? q.op = none :=
        Decidable.or_iff_not_imp_left.mpr (by simpa using single)
      exact .unary other unary single (need_ok given _ (by simp)) (needVariables_ok named _ (by simp))
    · cases ran

theorem ofOpcode_denotes {q : Quad} {x : Instr} (ran : ofOpcode q = .ok x) : q.Denotes x := by
  unfold ofOpcode at ran
  split at ran
  case h_1 op =>
    obtain ⟨_, given, ran⟩ := Codegen.except_bind_ok.mp ran
    have given := need_ok given
    split at ran
    · rename_i n text
      cases Except.ok.inj ran
      exact .imm op text (given _ (by simp))
    · rename_i src text
      cases Except.ok.inj ran
      have named : Operand.IsName q.arg1 := ⟨given _ (by simp), by rw [text]; rfl⟩
      cases (Operand.ofText_of_isName named).symm.trans text
      exact .copy op named (given _ (by simp))
  case h_2 op =>
    simp only [Codegen.except_bind_ok] at ran
    obtain ⟨_, named, _, given, same⟩ := ran
    cases Except.ok.inj same
    have named := needVariables_ok named
    exact .load op (named _ (by simp)) (need_ok given _ (by simp)) (named _ (by simp))
  case h_3 op =>
    simp only [Codegen.except_bind_ok] at ran
    obtain ⟨_, named, _, given, same⟩ := ran
    cases Except.ok.inj same
    have given := need_ok given
    exact .store op (given _ (by simp)) (given _ (by simp)) (needVariables_ok named _ (by simp))
  case h_4 op =>
    obtain ⟨_, named, same⟩ := Codegen.except_bind_ok.mp ran
    cases Except.ok.inj same
    have named := needVariables_ok named
    exact .loadInd op (named _ (by simp)) (named _ (by simp))
  case h_5 op =>
    simp only [Codegen.except_bind_ok] at ran
    obtain ⟨_, named, _, given, same⟩ := ran
    cases Except.ok.inj same
    exact .storeInd op (needVariables_ok named _ (by simp)) (need_ok given _ (by simp))
  case h_6 op =>
    obtain ⟨_, given, same⟩ := Codegen.except_bind_ok.mp ran
    cases Except.ok.inj same
    exact .param op (need_ok given _ (by simp))
  case h_7 op =>
    obtain ⟨_, named, same⟩ := Codegen.except_bind_ok.mp ran
    cases Except.ok.inj same
    exact .call op (needVariables_ok named _ (by simp))
  case h_8 op =>
    obtain ⟨_, given, same⟩ := Codegen.except_bind_ok.mp ran
    cases Except.ok.inj same
    have given := need_ok given
    exact .branch false op (given _ (by simp)) (given _ (by simp))
  case h_9 op =>
    obtain ⟨_, given, same⟩ := Codegen.except_bind_ok.mp ran
    cases Except.ok.inj same
    have given := need_ok given
    exact .branch true op (given _ (by simp)) (given _ (by simp))
  case h_10 op =>
    obtain ⟨_, given, same⟩ := Codegen.except_bind_ok.mp ran
    cases Except.ok.inj same
    exact .goto op (need_ok given _ (by simp))
  case h_11 op =>
    obtain ⟨_, given, same⟩ := Codegen.except_bind_ok.mp ran
    cases Except.ok.inj same
    exact .label op (need_ok given _ (by simp))
  case h_12 op =>
    cases Except.ok.inj ran
    exact .ret op
  case h_16 => exact ofOperation_denotes (by simp_all [opcodes]) ran
  all_goals
    cases Except.ok.inj ran
    exact .nop (by simp_all)

theorem ofQuad_denotes {q : Quad} {x : Instr} (decodes : ofQuad q = .ok x) :
    (∀ field ∈ [q.arg1, q.arg2, q.res], (Operand.ofText field).isInRange = true) ∧ q.Denotes x := by
  obtain ⟨_, checked, ran⟩ := Codegen.except_bind_ok.mp decodes
  exact ⟨checkRange_ok checked, ofOpcode_denotes ran⟩

end Instr

namespace Quad.Denotes

variable {q : Quad} {x : Instr}

/-- The operands are fields of the quad that are there. -/
theorem operand (denotes : q.Denotes x) {y : Operand} (member : y ∈ x.operands) :
    ∃ field ∈ [q.arg1, q.arg2, q.res], field ≠ "" ∧ y = Operand.ofText field := by
  cases denotes with
  | imm op text res =>
    have given : q.arg1 ≠ "" := by
      intro empty
      rw [empty] at text
      cases text
    exact ⟨q.arg1, by simp, given, (List.mem_singleton.mp member).trans text.symm⟩
  | copy op named res =>
    exact ⟨q.arg1, by simp, named.1, (List.mem_singleton.mp member).trans (Operand.ofText_of_isName named).symm⟩
  | ret op =>
    simp only [Instr.operands, Option.mem_toList, Option.map_eq_some_iff, Instr.given?_eq_some] at member
    obtain ⟨field, ⟨given, rfl⟩, rfl⟩ := member
    refine ⟨_, ?_, given, rfl⟩
    unfold Instr.firstGiven
    split <;> simp
  | _ =>
    simp only [Instr.operands, List.mem_cons, List.not_mem_nil, or_false] at member <;> grind

theorem base (denotes : q.Denotes x) {name : String} (found : x.base? = some name) :
    name ∈ [q.arg1, q.arg2, q.res] ∧ Operand.IsName name := by
  cases denotes <;> first | cases found; exact ⟨by simp, by assumption⟩ | cases found

theorem callee (denotes : q.Denotes x) {name : String} (found : x.callee? = some name) :
    Operand.IsName name := by
  cases denotes <;> first | cases found; assumption | cases found

theorem labelName (denotes : q.Denotes x) {name : String} (found : x.labelName? = some name) :
    name ≠ "" := by
  cases denotes with
  | label op arg1 =>
    cases found
    unfold Label.ofName
    split <;> exact arg1
  | _ => first | cases found; assumption | cases found

/-- The result is the last field. Copies and calls take any text there. -/
theorem result (denotes : q.Denotes x) {name : String} (found : x.result? = some name) :
    name = q.res ∧ name ≠ "" ∧ (Operand.IsName name ∨ q.op = "=" ∨ q.op = "call") := by
  cases denotes with
  | imm op text res | copy op named res =>
    cases found
    exact ⟨rfl, res, .inr (.inl op)⟩
  | call op arg1 =>
    obtain ⟨given, rfl⟩ := Instr.given?_eq_some.mp found
    exact ⟨rfl, given, .inr (.inr op)⟩
  | load _ _ _ res | loadInd _ _ res | binary _ _ _ _ res | unary _ _ _ _ res =>
    cases found
    exact ⟨rfl, res.1, .inl res⟩
  | _ => cases found

theorem touched_field (denotes : q.Denotes x) {name : String} (touched : name ∈ x.touches) :
    name ∈ [q.arg1, q.arg2, q.res] ∧ name ≠ "" := by
  simp only [Instr.touches, List.mem_append, List.mem_filterMap, Option.mem_toList] at touched
  rcases touched with (⟨y, member, named⟩ | based) | written
  · obtain ⟨field, among, given, rfl⟩ := denotes.operand member
    obtain ⟨rfl, _⟩ := Operand.name?_ofText.mp named
    exact ⟨among, given⟩
  · obtain ⟨among, given, _⟩ := denotes.base based
    exact ⟨among, given⟩
  · obtain ⟨rfl, given, _⟩ := denotes.result written
    exact ⟨by simp, given⟩

/-- A quad refers to every variable that its instruction touches. -/
theorem refers (denotes : q.Denotes x) {name : String} (touched : name ∈ x.touches) :
    q.refers name = true := by
  obtain ⟨among, given⟩ := denotes.touched_field touched
  have plain (op : q.op ∉ ["label", "goto", "ifFalseGoto", "ifGoto", "call"]) : q.refers name = true := by
    simp only [List.mem_cons, List.not_mem_nil, or_false] at op among
    simp only [Quad.refers]
    grind
  cases denotes with
  | branch ifTrue op =>
    have read : (Operand.ofText q.arg1).name? = some name := by
      simpa [Instr.touches, Instr.operands, Instr.base?, Instr.result?] using touched
    obtain ⟨rfl, _⟩ := Operand.name?_ofText.mp read
    cases ifTrue <;> simp [Quad.refers, given, op]
  | call op =>
    have written : Instr.given? q.res = some name := by
      simpa [Instr.touches, Instr.operands, Instr.base?, Instr.result?] using touched
    simp [Quad.refers, given, op, Instr.given?_eq_some.mp written]
  | goto | label | nop => exact absurd touched List.not_mem_nil
  | binary other | unary other => exact plain (by simp_all [Instr.opcodes])
  | _ op => exact plain (by simp [op])

end Quad.Denotes

namespace Instr

/-- The instruction of a quad that decodes is well formed: its literals have 32 bits, its operands and labels are
there, and arrays, pointers, callees and results have names. Only a copy or a call may have a literal for a
result. -/
theorem ofQuad_wellFormed {q : Quad} {x : Instr} (decodes : ofQuad q = .ok x) :
    (∀ n, Operand.literal n ∈ x.operands → -2147483648 ≤ n ∧ n ≤ 2147483647) ∧
    (∀ name, Operand.variable name ∈ x.operands → Operand.IsName name) ∧
    (∀ name, x.labelName? = some name → name ≠ "") ∧
    (∀ name, x.base? = some name ∨ x.callee? = some name → Operand.IsName name) ∧
    ∀ name, x.result? = some name → name ≠ "" ∧
      (Operand.IsName name ∨ (q.op = "=" ∨ q.op = "call") ∧ name = q.res) := by
  obtain ⟨ranges, denotes⟩ := ofQuad_denotes decodes
  refine ⟨?_, ?_, fun name => denotes.labelName, ?_, ?_⟩
  · intro n member
    obtain ⟨field, among, _, text⟩ := denotes.operand member
    have range := ranges field among
    rw [← text] at range
    simp only [Operand.isInRange, immediateInRange, Bool.and_eq_true, decide_eq_true_eq] at range
    omega
  · intro name member
    obtain ⟨field, _, given, text⟩ := denotes.operand member
    have named : (Operand.ofText field).name? = some name := by rw [← text]; rfl
    obtain ⟨rfl, literal⟩ := Operand.name?_ofText.mp named
    exact ⟨given, literal⟩
  · rintro name (based | called)
    · exact (denotes.base based).2
    · exact denotes.callee called
  · intro name written
    obtain ⟨last, given, named | op⟩ := denotes.result written
    · exact ⟨given, .inl named⟩
    · exact ⟨given, .inr ⟨op, last⟩⟩

theorem ofQuad_wellFormed_store :
    ofQuad { op := "[]=", arg1 := "-2147483648", arg2 := "x", res := "a" } =
      .ok (.store "a" (.literal (-2147483648)) (.variable "x")) ∧ Operand.IsName "a" := by
  have decodes : ofQuad { op := "[]=", arg1 := "-2147483648", arg2 := "x", res := "a" } =
      .ok (.store "a" (.literal (-2147483648)) (.variable "x")) := Codegen.eq_ok_of_toOption (by decide +kernel)
  exact ⟨decodes, (ofQuad_wellFormed decodes).2.2.2.1 "a" (.inl rfl)⟩

/-- A literal passes as the result of a copy and of a call. -/
theorem literal_assigned :
    ofQuad { op := "=", arg1 := "1", res := "5" } = .ok (.imm 1 "5") ∧
    ofQuad { op := "call", arg1 := "f", res := "5" } = .ok (.call "f" (some "5")) ∧ ¬ Operand.IsName "5" := by
  refine ⟨Codegen.eq_ok_of_toOption (by decide +kernel), Codegen.eq_ok_of_toOption (by decide +kernel), ?_⟩
  intro name
  exact absurd name.2 (by decide +kernel)

end Instr

end ThreeAddress
