import ThreeAddress.Proofs.Semantics

/-! Where the code of an instruction stands in the listing, and where a label leads. -/
namespace ThreeAddress.Codegen

open Asm (Line Mem Listing)
open Descriptor (Store Var Entry)

variable {site : Site} {limits : Limits} {b c : Body} {is js : List Asm.Instr}

/-! What a step adds to the listing -/

/-- The step adds these instructions to the listing. -/
def Emits (b : Body) (is : List Asm.Instr) (c : Body) : Prop :=
  c.out.lines.toList = b.out.lines.toList ++ is.map Line.instr

theorem Emits.trans {d : Body} (first : Emits b is c) (second : Emits c js d) : Emits b (is ++ js) d := by
  unfold Emits at *
  rw [second, first, List.map_append, List.append_assoc]

theorem Emits.unique (first : Emits b is c) (second : Emits b js c) : is = js := by
  have same := List.append_cancel_left ((show c.out.lines.toList = _ from first).symm.trans second)
  exact (List.map_inj_right fun _ _ => Line.instr.inj).mp same

theorem Assigned.emits {res : String} {r : Reg} (assigned : Assigned site res b r is c) :
    Emits b is c := by
  cases assigned with
  | intro plain ready moves =>
    have lines := moves.lines
    rw [Output.lines_append, List.map_nil, List.append_nil] at lines
    exact lines

theorem Effect.emits {name : Option String} (effect : Effect site b name is c) : Emits b is c := by
  cases effect with
  | nothing => simp [Emits]
  | result moves assigned => exact Emits.trans moves.lines assigned.emits
  | write moves => exact Emits.trans moves.lines (Output.lines_append ..)
  | queue => simp [Emits]

theorem Spared.out {name : String} {i : Nat} (spared : Spared site b name i c) : c.out = b.out := by
  cases spared <;> rfl

theorem Keep.emits {r : Reg} (keep : Keep site r b is c) : Emits b is c := by
  cases keep with
  | skip => simp [Emits]
  | register => exact Output.lines_append ..
  | word held known homeless later spared =>
    unfold Emits
    rw [← spared.out]
    exact Output.lines_append ..

theorem KeepAll.emits {rs : List Reg} (keeps : KeepAll site rs b is c) : Emits b is c := by
  induction keeps with
  | nil => simp [Emits]
  | cons keep _ ih => exact keep.emits.trans ih

theorem Answered.emits {res : Option String} (answered : Answered site b res is c) : Emits b is c := by
  cases answered with
  | nothing => simp [Emits]
  | result moves assigned => exact Emits.trans moves.lines assigned.emits

theorem Called.emits_before {function : String} {res : Option String} {ks ls : List Asm.Instr}
    {b₁ b₂ b₃ b₄ : Body} (called : Called site function res b c is js ks ls b₁ b₂ b₃ b₄) :
    Emits b (is ++ js ++ ks) b₃ := by
  have passed : Emits b is b₁ := (called.passed.moves (Nat.le_refl _)).lines
  have wrote : Emits b₁ js b₂ := called.wrote.lines
  exact (passed.trans wrote).trans called.kept.emits

theorem Called.emits_after {function : String} {res : Option String} {ks ls : List Asm.Instr}
    {b₁ b₂ b₃ b₄ : Body} (called : Called site function res b c is js ks ls b₁ b₂ b₃ b₄) :
    Emits b₃ (jumpInstrs site.options (.jal function) ++ ls) c := by
  have jumped : Emits b₃ (jumpInstrs site.options (.jal function)) b₄ := by
    have lines := called.forgets.lines
    rw [Output.lines_append, List.map_nil, List.append_nil] at lines
    exact lines
  exact jumped.trans called.answered.emits

/-- The lines of an instruction: its code, and behind it the label that it sets. -/
def linesOf (x : Instr) (is : List Asm.Instr) : List Line :=
  is.map Line.instr ++ x.plainLabel?.toList.map Line.label

theorem lower_emits {x : Instr} (consistent : Consistent b.store)
    (plain : ∀ l, x = .label l → l.boundary = .plain) (ran : lower site x b = .ok ((), c)) :
    ∃ is, c.out.lines.toList = b.out.lines.toList ++ linesOf x is := by
  have sound := consistent.sound
  have finish {is : List Asm.Instr} (unlabelled : x.plainLabel? = none) (emits : Emits b is c) :
      ∃ is, c.out.lines.toList = b.out.lines.toList ++ linesOf x is := by
    refine ⟨is, ?_⟩
    rw [linesOf, unlabelled, Option.toList_none, List.map_nil, List.append_nil]
    exact emits
  by_cases straight : x.isStraight = true
  · obtain ⟨d, is, js, effect, moves⟩ := lower_effect straight sound ran
    exact finish (Instr.plainLabel?_of_straight straight) (effect.emits.trans moves.lines)
  · cases x with
    | call function res =>
      obtain ⟨_, _, _, _, _, _, _, _, called, _⟩ := call_ok consistent ran
      exact finish rfl (called.emits_before.trans called.emits_after)
    | branch cond ifTrue target =>
      obtain ⟨y, is, js, b₁, b₂, located, flushed, rfl⟩ := branch_ok sound ran
      have first : Emits b is b₁ := located.moves.lines
      exact finish rfl ((first.trans flushed.moves.lines).trans (Output.lines_append ..))
    | goto target =>
      obtain ⟨is, b₁, flushed, rfl⟩ := jump_ok sound ran
      exact finish rfl (Emits.trans flushed.moves.lines (Output.lines_append ..))
    | ret x =>
      obtain ⟨is, js, b₁, b₂, returned, flushed, rfl⟩ := ret_ok sound ran
      have first : Emits b is b₁ := returned.moves.lines
      exact finish rfl ((first.trans flushed.moves.lines).trans (Output.lines_append ..))
    | label l =>
      obtain ⟨is, b₁, flushed, rfl⟩ := label_ok sound ran
      obtain ⟨name, boundary⟩ := l
      cases plain _ rfl
      exact ⟨is, by simp [linesOf, Output.push, Instr.plainLabel?, flushed.moves.lines]⟩
    | nop =>
      obtain ⟨_, rfl⟩ := pure_ok.mp ran
      have nothing : Emits b [] b := by simp [Emits]
      exact finish rfl nothing
    | _ => simp [Instr.isStraight] at straight

/-! Labels and code of a listing -/

def labelsOf (lines : List Line) : List String :=
  lines.filterMap fun
    | .label l => some l
    | _ => none

@[simp] theorem codeOf_append (ls ks : List Line) : codeOf (ls ++ ks) = codeOf ls ++ codeOf ks :=
  List.filterMap_append

@[simp] theorem labelsOf_append (ls ks : List Line) : labelsOf (ls ++ ks) = labelsOf ls ++ labelsOf ks :=
  List.filterMap_append

@[simp] theorem codeOf_instrs (is : List Asm.Instr) : codeOf (is.map Line.instr) = is := by
  simp [codeOf, List.filterMap_map, Function.comp_def]

@[simp] theorem labelsOf_instrs (is : List Asm.Instr) : labelsOf (is.map Line.instr) = [] := by
  simp [labelsOf, List.filterMap_map]

@[simp] theorem codeOf_label (l : String) (ls : List Line) : codeOf (.label l :: ls) = codeOf ls := rfl

@[simp] theorem codeOf_labels (ls : List String) : codeOf (ls.map Line.label) = [] := by
  simp [codeOf, List.filterMap_map]

@[simp] theorem labelsOf_labels (ls : List String) : labelsOf (ls.map Line.label) = ls := by
  simp [labelsOf, List.filterMap_map, Function.comp_def]

theorem labelFrom_append (pc : Nat) (name : String) (ls ks : List Line) :
    labelFrom pc name (ls ++ ks) =
      (labelFrom (pc + (codeOf ls).length) name ks).or (labelFrom pc name ls) := by
  induction ls generalizing pc with
  | nil => simp [labelFrom, codeOf]
  | cons l ls ih =>
    cases l with
    | instr i =>
      have next := ih (pc + 1)
      rw [show pc + 1 + (codeOf ls).length = pc + (codeOf (.instr i :: ls)).length by
        simp [codeOf]; omega] at next
      exact next
    | label l =>
      have next := ih pc
      simp only [List.cons_append, labelFrom, next, Option.or_assoc]
      rfl
    | _ => exact ih pc

theorem labelFrom_eq_none {pc : Nat} {name : String} {ls : List Line} (absent : name ∉ labelsOf ls) :
    labelFrom pc name ls = none := by
  induction ls generalizing pc with
  | nil => rfl
  | cons l ls ih =>
    cases l with
    | label l =>
      have other : l ≠ name ∧ name ∉ labelsOf ls := by
        simpa [labelsOf, eq_comm] using absent
      simp [labelFrom, ih other.2, other.1]
    | instr i => exact ih absent
    | _ => exact ih absent

/-- A label leads to the instruction behind it if no later one has its name. -/
theorem labels_ofLines {before after : List Line} {l : String} (last : l ∉ labelsOf after) :
    (Image.ofLines (before ++ .label l :: after)).labels l = some (codeOf before).length := by
  simp [Image.ofLines, labelFrom_append, labelFrom, labelFrom_eq_none last]

theorem holds_ofLines (before : List Line) (is : List Asm.Instr) (after : List Line) :
    (Image.ofLines (before ++ is.map Line.instr ++ after)).Holds (codeOf before).length is :=
  ⟨codeOf before, codeOf after, by simp [Image.ofLines], rfl⟩

/-! Whole runs -/

theorem leave_emits (sound : b.store.Sound) (ran : leave site b = .ok ((), c)) : ∃ is, Emits b is c := by
  obtain ⟨is, b₁, flushed, rfl⟩ := leave_ok sound ran
  exact ⟨_, Emits.trans flushed.moves.lines (Output.lines_append ..)⟩

theorem start_lines (options : Options) (out : Output) (f : Symbol) (l : Frame.Layout) :
    (Body.start options out f l).out.lines.toList =
      out.lines.toList ++ .label f.name :: (prologue l f.params.length).map Line.instr := by
  have lines := (out.push (.label f.name)).lines_append (prologue l f.params.length)
  rw [show (out.push (.label f.name)).lines.toList = out.lines.toList ++ [.label f.name] by
    simp [Output.push], List.append_assoc] at lines
  exact lines

/-- A step only adds to the listing. The labels that it adds are its own or names of functions. -/
theorem step_lines {x : Instr} {st st' : State} (consistent : st.Consistent)
    (ran : step site x st = .ok st') :
    ∃ ls, st'.out.lines.toList = st.out.lines.toList ++ ls ∧
      ∀ l ∈ labelsOf ls, x.plainLabel? = some l ∨ ∃ f ∈ site.table.functions, f.name = l := by
  cases step_stepped ran with
  | nop => exact ⟨[], by simp, by simp [labelsOf]⟩
  | @outside l out boundary =>
    obtain ⟨name, _⟩ := l
    cases boundary
    refine ⟨[.label name], by simp [State.out, Output.push], ?_⟩
    simp [labelsOf, Instr.plainLabel?]
  | @entry l out name b boundary entered =>
    obtain ⟨f, l, entered⟩ := enter_ok entered
    refine ⟨_, (congrArg (·.out.lines.toList) entered.start).trans (start_lines ..), ?_⟩
    intro name member
    have same : name = f.name := by
      have labels := labelsOf_instrs (prologue l f.params.length)
      unfold labelsOf at labels member
      simpa [labels] using member
    have inside := List.mem_of_find?_eq_some entered.symbol
    exact .inr ⟨f, List.mem_filter.mpr ⟨inside, entered.function⟩, same.symm⟩
  | @exit l b c boundary left =>
    have sound : Consistent b.store := consistent
    obtain ⟨is, emits⟩ := leave_emits sound.sound left
    exact ⟨_, emits, by simp⟩
  | @lower x b c real plain lowers =>
    obtain ⟨is, lines⟩ :=
      lower_emits (b := { b with reserved := [], returned := false }) consistent plain lowers
    refine ⟨_, lines, fun l member => ?_⟩
    simp only [linesOf, labelsOf_append, labelsOf_instrs, labelsOf_labels, List.nil_append,
      Option.mem_toList] at member
    exact .inl member

section Runs

variable {options : Options} {table : Scope} {code : List Quad} {instrs : List Instr} {n : Nat}

/-- What the generator wrote before a position stays, and the labels behind it are those of the
code from there on or names of functions. -/
theorem stateAt_lines {k : Nat} {st' : State} (decoded : decodeFrom 0 code = .ok instrs)
    (reached : stateAt options table code (n + k) = .ok st') :
    ∃ st ls, stateAt options table code n = .ok st ∧
      st'.out.lines.toList = st.out.lines.toList ++ ls ∧
      ∀ l ∈ labelsOf ls, l ∈ (instrs.drop n).filterMap Instr.plainLabel? ∨
        ∃ f ∈ table.functions, f.name = l := by
  induction k generalizing st' with
  | zero => exact ⟨st', [], reached, by simp, by simp [labelsOf]⟩
  | succ k ih =>
    by_cases bound : n + k < instrs.length
    · have found := List.getElem?_eq_getElem bound
      obtain ⟨mid, before, steps⟩ := (stateAt_succ decoded found).mp reached
      obtain ⟨st, ls, first, lines, labels⟩ := ih before
      obtain ⟨ks, more, labels'⟩ := step_lines (stateAt_consistent before) steps
      refine ⟨st, ls ++ ks, first, by rw [more, lines, List.append_assoc], fun l member => ?_⟩
      rw [labelsOf_append, List.mem_append] at member
      rcases member with member | member
      · exact labels l member
      · refine (labels' l member).imp (fun own => ?_) id
        refine List.mem_filterMap.mpr ⟨instrs[n + k], ?_, own⟩
        exact List.mem_drop_iff_getElem.mpr ⟨k, by omega, rfl⟩
    · rw [← Nat.add_assoc, stateAt_beyond decoded (Nat.le_of_not_lt bound)] at reached
      exact ih reached

/-- A generator that comes to the end has been at every position, and what it wrote until there stays. -/
theorem stateAt_of_finished {st' : State} (decoded : decodeFrom 0 code = .ok instrs)
    (finished : stateAt options table code instrs.length = .ok st') (bound : n ≤ instrs.length) :
    ∃ st ls, stateAt options table code n = .ok st ∧ st'.out.lines.toList = st.out.lines.toList ++ ls := by
  have last : n + (instrs.length - n) = instrs.length := by omega
  obtain ⟨st, ls, reached, lines, _⟩ := stateAt_lines decoded (last.symm ▸ finished)
  exact ⟨st, ls, reached, lines⟩

/-- The entry of a function starts its code, in the frame that is planned for it. -/
theorem stateAt_entry {label f : String} {st : State} (decoded : decodeFrom 0 code = .ok instrs)
    (found : instrs[n]? = some (.label ⟨label, .entry f⟩))
    (next : stateAt options table code (n + 1) = .ok st) :
    ∃ out g l, stateAt options table code n = .ok (.idle out) ∧ st = .inside (.start options out g l) ∧
      table.lookup f = some g ∧ g.name = f ∧ Frame.find (Frame.plan options table code) f = .ok l := by
  obtain ⟨st, reached, steps⟩ := (stateAt_succ decoded found).mp next
  cases step_stepped steps with
  | outside plain => cases plain
  | exit closes => cases closes
  | lower _ plain => cases plain _ rfl
  | @entry _ out name b opens entered =>
    cases opens
    obtain ⟨g, l, entered⟩ := enter_ok entered
    obtain rfl : g.name = f := by simpa using List.find?_some entered.symbol
    exact ⟨out, g, l, reached, congrArg State.inside entered.start, entered.symbol, rfl, entered.frame⟩

theorem compile_ok {listing : Listing} (compiled : compile options table code = .ok listing) :
    ∃ instrs out, decodeFrom 0 code = .ok instrs ∧
      stateAt options table code instrs.length = .ok (.idle out) ∧ listing.lines = out.lines.toList := by
  unfold compile at compiled
  simp only [except_bind_ok] at compiled
  obtain ⟨instrs, decoded, st, ran, finish⟩ := compiled
  cases st with
  | idle out =>
    cases Except.ok.inj finish
    refine ⟨instrs, out, decoded, ?_, rfl⟩
    simp only [stateAt, decoded, except_bind_ok, Except.ok.injEq, exists_eq_left', List.take_length]
    exact ran
  | inside b => simp [fail] at finish

theorem compile_frames {listing : Listing} (compiled : compile options table code = .ok listing) :
    listing.frames = Frame.plan options table code := by
  unfold compile at compiled
  simp only [except_bind_ok] at compiled
  obtain ⟨_, _, st, _, finish⟩ := compiled
  cases st with
  | idle out =>
    cases Except.ok.inj finish
    rfl
  | inside b => simp [fail] at finish

/-- Plain labels differ from each other and from the names of functions. -/
structure DistinctLabels (table : Scope) (instrs : List Instr) : Prop where
  nodup : (instrs.filterMap Instr.plainLabel?).Nodup
  functions : ∀ l ∈ instrs.filterMap Instr.plainLabel?, ∀ f ∈ table.functions, f.name ≠ l

/-- A program that compiles, with its instructions. Its plain labels are distinct. -/
structure Compiles (options : Options) (table : Scope) (code : List Quad) (instrs : List Instr)
    (listing : Listing) : Prop where
  compiled : compile options table code = .ok listing
  decoded : decodeFrom 0 code = .ok instrs
  labels : DistinctLabels table instrs

/-- The number of instructions before a state of the generator. -/
def State.position (st : State) : Nat := (codeOf st.out.lines.toList).length

theorem Compiles.stateAt {listing : Listing} (compiles : Compiles options table code instrs listing)
    (bound : n ≤ instrs.length) :
    ∃ st ls, Codegen.stateAt options table code n = .ok st ∧
      listing.lines = st.out.lines.toList ++ ls ∧
      ∀ l ∈ labelsOf ls, l ∈ (instrs.drop n).filterMap Instr.plainLabel? ∨
        ∃ f ∈ table.functions, f.name = l := by
  obtain ⟨instrs', out, decoded, last, lines⟩ := compile_ok compiles.compiled
  cases Except.ok.inj (compiles.decoded.symm.trans decoded)
  obtain ⟨k, length⟩ := Nat.exists_eq_add_of_le bound
  rw [length] at last
  obtain ⟨st, ls, reached, more, labels⟩ := stateAt_lines decoded last
  exact ⟨st, ls, reached, lines.trans more, labels⟩

/-- The code that a step adds stands in the listing where the generator was. -/
theorem Compiles.holds {listing : Listing} {st st' : State} {is : List Asm.Instr} {ls : List Line}
    (compiles : Compiles options table code instrs listing) (bound : n ≤ instrs.length)
    (reached : Codegen.stateAt options table code n = .ok st')
    (lines : st'.out.lines.toList = st.out.lines.toList ++ is.map Line.instr ++ ls) :
    (Image.ofLines listing.lines).Holds st.position is := by
  obtain ⟨st'', ks, again, all, _⟩ := compiles.stateAt bound
  cases Except.ok.inj (reached.symm.trans again)
  rw [all, lines, List.append_assoc]
  exact holds_ofLines _ _ _

theorem step_label {x : Instr} {l : String} {st st' : State} (consistent : st.Consistent)
    (label : x.plainLabel? = some l) (ran : step site x st = .ok st') :
    ∃ before, st'.out.lines.toList = before ++ [.label l] := by
  cases step_stepped ran with
  | nop => contradiction
  | @outside l' out boundary =>
    obtain ⟨name, _⟩ := l'
    cases boundary
    cases Option.some.inj label
    exact ⟨_, by simp [State.out, Output.push]; rfl⟩
  | @entry l' out name b boundary =>
    obtain ⟨name, _⟩ := l'
    cases boundary
    contradiction
  | @exit l' b c boundary =>
    obtain ⟨name, _⟩ := l'
    cases boundary
    contradiction
  | @lower x b c real plain lowers =>
    obtain ⟨is, lines⟩ :=
      lower_emits (b := { b with reserved := [], returned := false }) consistent plain lowers
    rw [linesOf, label, ← List.append_assoc] at lines
    exact ⟨_, lines⟩

/-- A plain label leads to the code behind it. -/
theorem Compiles.label {listing : Listing} {x : Instr} {l : String} {st : State}
    (compiles : Compiles options table code instrs listing) (found : instrs[n]? = some x)
    (label : x.plainLabel? = some l) (reached : Codegen.stateAt options table code (n + 1) = .ok st) :
    (Image.ofLines listing.lines).labels l = some st.position := by
  obtain ⟨bound, same⟩ := List.getElem?_eq_some_iff.mp found
  obtain ⟨st', ls, again, lines, labels⟩ := compiles.stateAt (n := n + 1) bound
  cases Except.ok.inj (reached.symm.trans again)
  obtain ⟨mid, before, steps⟩ := (stateAt_succ compiles.decoded found).mp reached
  obtain ⟨front, ends⟩ := step_label (stateAt_consistent before) label steps
  have split : instrs = instrs.take n ++ x :: instrs.drop (n + 1) := by
    rw [← same, List.getElem_cons_drop, List.take_append_drop]
  have last : l ∉ labelsOf ls := by
    intro member
    rcases labels l member with later | ⟨f, function, name⟩
    · have nodup := compiles.labels.nodup
      rw [split, List.filterMap_append, List.filterMap_cons_some label] at nodup
      exact (List.nodup_cons.mp (List.nodup_append.mp nodup).2.1).1 later
    · refine compiles.labels.functions l ?_ f function name
      rw [split, List.filterMap_append, List.filterMap_cons_some label]
      simp
  have position : st.position = (codeOf front).length := by
    rw [State.position, ends, codeOf_append, List.length_append]
    rfl
  rw [lines, ends, List.append_assoc, position]
  exact labels_ofLines last

/-! Procedures -/

/-- The code has a procedure: its entry label stands at a position, and its body follows up to its
exit label. -/
structure HasProcedure (instrs : List Instr) (name : String) (p : Nat) (body : List Instr) : Prop where
  entry : ∃ l, instrs[p]? = some (.label l) ∧ l.boundary = .entry name
  inner : ∀ x ∈ body, ∀ l, x = .label l → l.boundary = .plain
  inside : ∀ k, k < body.length → instrs[p + 1 + k]? = body[k]?
  exit : ∃ l, instrs[p + 1 + body.length]? = some (.label l) ∧ l.boundary = .exit name

/-- The procedure that the generator is in does not change. -/
structure SameFrame (b c : Body) : Prop where
  function : c.function = b.function
  layout : c.layout = b.layout
  arrays : c.arrays = b.arrays

theorem SameFrame.refl (b : Body) : SameFrame b b := ⟨rfl, rfl, rfl⟩

theorem SameFrame.trans {d : Body} (first : SameFrame b c) (second : SameFrame c d) : SameFrame b d :=
  ⟨second.function.trans first.function, second.layout.trans first.layout,
    second.arrays.trans first.arrays⟩

theorem SameProcedure.frame (same : SameProcedure b c) : SameFrame b c :=
  ⟨same.function, same.layout, same.arrays⟩

theorem Assigned.sameProcedure {res : String} {r : Reg} (assigned : Assigned site res b r is c) :
    SameProcedure b c := by
  cases assigned with
  | intro plain ready moves =>
    have same := moves.sameProcedure
    exact .trans ⟨same.function, same.layout, same.arrays, same.spare, same.pending, same.returned⟩
      (Body.assign_sameProcedure _ _ _)

theorem Effect.frame {name : Option String} (effect : Effect site b name is c) : SameFrame b c := by
  cases effect with
  | nothing => exact .refl _
  | result moves assigned => exact moves.sameProcedure.frame.trans assigned.sameProcedure.frame
  | write moves =>
    have same := moves.sameProcedure
    exact ⟨same.function, same.layout, same.arrays⟩
  | queue => exact ⟨rfl, rfl, rfl⟩

theorem Keep.frame {r : Reg} (keep : Keep site r b is c) : SameFrame b c := by
  cases keep with
  | skip => exact .refl _
  | register => exact ⟨rfl, rfl, rfl⟩
  | word held known homeless later spared =>
    cases spared <;> exact ⟨rfl, rfl, rfl⟩

theorem KeepAll.frame {rs : List Reg} (keeps : KeepAll site rs b is c) : SameFrame b c := by
  induction keeps with
  | nil => exact .refl _
  | cons keep _ ih => exact keep.frame.trans ih

theorem Answered.frame {res : Option String} (answered : Answered site b res is c) : SameFrame b c := by
  cases answered with
  | nothing => exact .refl _
  | result moves assigned => exact moves.sameProcedure.frame.trans assigned.sameProcedure.frame

theorem Called.frame {function : String} {res : Option String} {ks ls : List Asm.Instr}
    {b₁ b₂ b₃ b₄ : Body} (called : Called site function res b c is js ks ls b₁ b₂ b₃ b₄) :
    SameFrame b c := by
  have passed := (called.passed.moves (Nat.le_refl _)).sameProcedure
  have first : SameFrame b b₁ := ⟨passed.function, passed.layout, passed.arrays⟩
  have forgets := called.forgets.sameProcedure
  have last : SameFrame b₃ b₄ := ⟨forgets.function, forgets.layout, forgets.arrays⟩
  exact (((first.trans called.wrote.sameProcedure.frame).trans called.kept.frame).trans last).trans
    called.answered.frame

theorem lower_frame {x : Instr} (consistent : Consistent b.store)
    (ran : lower site x b = .ok ((), c)) : SameFrame b c := by
  have sound := consistent.sound
  by_cases straight : x.isStraight = true
  · obtain ⟨d, is, js, effect, moves⟩ := lower_effect straight sound ran
    exact effect.frame.trans moves.sameProcedure.frame
  · cases x with
    | call function res =>
      obtain ⟨_, _, _, _, _, _, _, _, called, _⟩ := call_ok consistent ran
      exact called.frame
    | branch cond ifTrue target =>
      obtain ⟨y, is, js, b₁, b₂, located, flushed, rfl⟩ := branch_ok sound ran
      have same := located.moves.sameProcedure.trans flushed.moves.sameProcedure
      exact ⟨same.function, same.layout, same.arrays⟩
    | goto target =>
      obtain ⟨is, b₁, flushed, rfl⟩ := jump_ok sound ran
      have same := flushed.moves.sameProcedure
      exact ⟨same.function, same.layout, same.arrays⟩
    | ret x =>
      obtain ⟨is, js, b₁, b₂, returned, flushed, rfl⟩ := ret_ok sound ran
      have same := returned.moves.sameProcedure.trans flushed.moves.sameProcedure
      exact ⟨same.function, same.layout, same.arrays⟩
    | label l =>
      obtain ⟨is, b₁, flushed, rfl⟩ := label_ok sound ran
      have same := flushed.moves.sameProcedure
      exact ⟨same.function, same.layout, same.arrays⟩
    | nop =>
      obtain ⟨_, rfl⟩ := pure_ok.mp ran
      exact .refl _
    | _ => simp [Instr.isStraight] at straight

theorem Effect.marks {name : Option String} (effect : Effect site b name is c) :
    c.spare = b.spare ∧ c.returned = b.returned := by
  cases effect with
  | nothing => exact ⟨rfl, rfl⟩
  | result moves assigned =>
    have same := moves.sameProcedure.trans assigned.sameProcedure
    exact ⟨same.spare, same.returned⟩
  | write moves => exact ⟨moves.sameProcedure.spare, moves.sameProcedure.returned⟩
  | queue => exact ⟨rfl, rfl⟩

theorem lower_marks {x : Instr} (consistent : Consistent b.store) (plain : ∀ f res, x ≠ .call f res)
    (ran : lower site x b = .ok ((), c)) :
    c.spare = b.spare ∧ ((∀ y, x ≠ .ret y) → c.returned = b.returned) := by
  have sound := consistent.sound
  by_cases straight : x.isStraight = true
  · obtain ⟨d, is, js, effect, moves⟩ := lower_effect straight sound ran
    obtain ⟨spare, returned⟩ := effect.marks
    have same := moves.sameProcedure
    exact ⟨same.spare.trans spare, fun _ => same.returned.trans returned⟩
  · cases x with
    | call function res => exact absurd rfl (plain function res)
    | branch cond ifTrue target =>
      obtain ⟨y, is, js, b₁, b₂, located, flushed, rfl⟩ := branch_ok sound ran
      have same := located.moves.sameProcedure.trans flushed.moves.sameProcedure
      exact ⟨same.spare, fun _ => same.returned⟩
    | goto target =>
      obtain ⟨is, b₁, flushed, rfl⟩ := jump_ok sound ran
      exact ⟨flushed.moves.sameProcedure.spare, fun _ => flushed.moves.sameProcedure.returned⟩
    | ret y =>
      obtain ⟨is, js, b₁, b₂, returned, flushed, rfl⟩ := ret_ok sound ran
      have same := returned.moves.sameProcedure.trans flushed.moves.sameProcedure
      exact ⟨same.spare, fun other => absurd rfl (other y)⟩
    | label l =>
      obtain ⟨is, b₁, flushed, rfl⟩ := label_ok sound ran
      exact ⟨flushed.moves.sameProcedure.spare, fun _ => flushed.moves.sameProcedure.returned⟩
    | nop =>
      obtain ⟨_, rfl⟩ := pure_ok.mp ran
      exact ⟨rfl, fun _ => rfl⟩
    | _ => simp [Instr.isStraight] at straight

/-- The states of the generator in a procedure. -/
theorem HasProcedure.stateAt_inside {listing : Listing} {name : String} {p k : Nat} {body : List Instr}
    (procedure : HasProcedure instrs name p body)
    (compiles : Compiles options table code instrs listing) (bound : k ≤ body.length) :
    ∃ out f l b, Entered (siteAt options table code p) name out (.start options out f l) f l ∧
      stateAt options table code p = .ok (.idle out) ∧
      stateAt options table code (p + 1) = .ok (.inside (.start options out f l)) ∧
      stateAt options table code (p + 1 + k) = .ok (.inside b) ∧ b.function = f ∧ b.layout = l := by
  obtain ⟨exit, ends, closes⟩ := procedure.exit
  have room : p + 1 + body.length < instrs.length := (List.getElem?_eq_some_iff.mp ends).1
  induction k with
  | zero =>
    obtain ⟨entry, starts, opens⟩ := procedure.entry
    obtain ⟨st, _, reached, _⟩ := compiles.stateAt (n := p + 1) (by omega)
    obtain ⟨mid, before, steps⟩ := (stateAt_succ compiles.decoded starts).mp reached
    cases step_stepped steps with
    | outside plain => cases opens.symm.trans plain
    | @entry _ out name' b boundary entered =>
      cases opens.symm.trans boundary
      obtain ⟨f, l, entered⟩ := enter_ok entered
      have start := entered.start
      rw [start] at reached entered
      exact ⟨out, f, l, _, entered, before, reached, reached, rfl, rfl⟩
    | exit boundary => cases opens.symm.trans boundary
    | lower real plain => cases opens.symm.trans (plain entry rfl)
  | succ k ih =>
    obtain ⟨out, f, l, b, entered, idle, start, here, function, layout⟩ := ih (by omega)
    refine ⟨out, f, l, ?_⟩
    have inside := procedure.inside k (by omega)
    rw [List.getElem?_eq_getElem (show k < body.length by omega)] at inside
    have member : body[k] ∈ body := List.getElem_mem _
    obtain ⟨st, _, reached, _⟩ := compiles.stateAt (n := p + 1 + k + 1) (by omega)
    obtain ⟨mid, before, steps⟩ := (stateAt_succ compiles.decoded inside).mp reached
    cases Except.ok.inj (here.symm.trans before)
    have plain := procedure.inner _ member
    generalize body[k] = x at steps plain
    cases step_stepped steps with
    | nop => exact ⟨b, entered, idle, start, reached, function, layout⟩
    | exit boundary => cases boundary.symm.trans (plain _ rfl)
    | @lower _ _ c real _ lowers =>
      have consistent : (State.inside b).Consistent := stateAt_consistent here
      have same := lower_frame (b := { b with reserved := [], returned := false }) consistent lowers
      exact ⟨c, entered, idle, start, reached, same.function.trans function, same.layout.trans layout⟩

/-- The generator inside of a procedure, before the instruction of a position and behind it. -/
theorem HasProcedure.step_inside {listing : Listing} {name : String} {p k : Nat} {body : List Instr}
    {x : Instr} {b : Body} (procedure : HasProcedure instrs name p body)
    (compiles : Compiles options table code instrs listing) (found : body[k]? = some x)
    (here : stateAt options table code (p + 1 + k) = .ok (.inside b)) :
    ∃ c, stateAt options table code (p + 1 + (k + 1)) = .ok (.inside c) ∧
      Stepped (siteAt options table code (p + 1 + k)) x (.inside b) (.inside c) := by
  obtain ⟨bound, _⟩ := List.getElem?_eq_some_iff.mp found
  obtain ⟨_, _, _, c, _, _, _, next, _⟩ :=
    procedure.stateAt_inside compiles (k := k + 1) bound
  have inside := procedure.inside k bound
  rw [found] at inside
  obtain ⟨mid, before, steps⟩ := (stateAt_succ compiles.decoded inside).mp next
  cases Except.ok.inj (here.symm.trans before)
  exact ⟨c, next, step_stepped steps⟩

end Runs

end ThreeAddress.Codegen
