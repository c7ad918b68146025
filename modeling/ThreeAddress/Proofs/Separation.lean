import ThreeAddress.Proofs.Capacity
import ThreeAddress.Proofs.Coupling

/-! Procedures are compiled independently. The code of two programs that open different procedures,
one behind the other, has the lines of the first program and then those of the second. -/
namespace ThreeAddress

/-! Numbering -/

namespace Quad

theorem length_numberedFrom (start : Nat) (code : List Quad) :
    (numberedFrom start code).length = code.length := by
  induction code generalizing start with
  | nil => rfl
  | cons q code ih => simp [numberedFrom, ih]

theorem numberedFrom_append (start : Nat) (code more : List Quad) :
    numberedFrom start (code ++ more) =
      numberedFrom start code ++ numberedFrom (start + code.length) more := by
  induction code generalizing start with
  | nil => rfl
  | cons q code ih =>
    simp only [List.cons_append, numberedFrom, ih, List.length_cons]
    rw [Nat.add_assoc, Nat.add_comm 1]

theorem numberedFrom_numberedFrom (start start' : Nat) (code : List Quad) :
    numberedFrom start (numberedFrom start' code) = numberedFrom start code := by
  induction code generalizing start start' with
  | nil => rfl
  | cons q code ih => simp [numberedFrom, ih]

theorem drop_numberedFrom (start n : Nat) (code : List Quad) :
    (numberedFrom start code).drop n = numberedFrom (start + n) (code.drop n) := by
  induction code generalizing start n with
  | nil => simp [numberedFrom]
  | cons q code ih =>
    cases n with
    | zero => rfl
    | succ n =>
      simp only [numberedFrom, List.drop_succ_cons, ih]
      rw [Nat.add_assoc, Nat.add_comm 1]

/-- The procedure that the quad opens. -/
def entry? (q : Quad) : Option String :=
  match q.label? with
  | some ⟨_, .entry f⟩ => some f
  | _ => none

/-- The procedures that the code opens. -/
def entries (code : List Quad) : List String := code.filterMap entry?

theorem entries_numberedFrom (start : Nat) (code : List Quad) :
    entries (numberedFrom start code) = entries code := by
  induction code generalizing start with
  | nil => rfl
  | cons q code ih =>
    have same : entry? { q with index := start } = entry? q := rfl
    have tail : (numberedFrom (start + 1) code).filterMap entry? = code.filterMap entry? := ih (start + 1)
    simp only [entries, numberedFrom, List.filterMap_cons, same, tail]

end Quad

namespace Instr

/-- A success does not tell for which quad it was. -/
def Carries {α : Type} (x y : Except Error α) : Prop := ∀ a, x = .ok a → y = .ok a

theorem Carries.bind {α β : Type} {x y : Except Error α} {f g : α → Except Error β} (first : Carries x y)
    (rest : ∀ a, Carries (f a) (g a)) : Carries (x >>= f) (y >>= g) := by
  intro b ran
  obtain ⟨a, ran, rest'⟩ := Codegen.except_bind_ok.mp ran
  exact Codegen.except_bind_ok.mpr ⟨a, first a ran, rest a b rest'⟩

theorem checkRange_carries (q q' : Quad) (fields : List String) :
    Carries (checkRange q fields) (checkRange q' fields) := by
  induction fields with
  | nil => exact fun _ ran => ran
  | cons field fields ih =>
    unfold checkRange
    cases Operand.ofText field with
    | «variable» name => exact ih
    | literal n =>
      dsimp only
      split
      · exact ih
      · simp [Carries, fail]

theorem need_carries (q q' : Quad) (fields : List String) : Carries (need q fields) (need q' fields) := by
  unfold need
  split
  · simp [Carries, fail]
  · exact fun _ ran => ran

theorem checkVariables_carries (q q' : Quad) (fields : List String) :
    Carries (checkVariables q fields) (checkVariables q' fields) := by
  induction fields with
  | nil => exact fun _ ran => ran
  | cons field fields ih =>
    unfold checkVariables
    split
    · simp [Carries, fail]
    · exact ih

theorem needVariables_carries (q q' : Quad) (fields : List String) :
    Carries (needVariables q fields) (needVariables q' fields) :=
  (need_carries q q' fields).bind fun _ => checkVariables_carries q q' fields

theorem ofOperation_carries (q : Quad) (i : Int) :
    Carries (ofOperation q) (ofOperation { q with index := i }) := by
  unfold ofOperation
  dsimp only
  have checked (x : Instr) : Carries
      (do needVariables q [q.res]; need q [q.arg1]; return x)
      (do
        needVariables { q with index := i } [q.res]
        need { q with index := i } [q.arg1]
        return x) :=
    (needVariables_carries _ _ _).bind fun _ => (need_carries _ _ _).bind fun _ _ ran => ran
  cases (if q.arg2 = "" then none else BinaryOp.ofText? q.op) with
  | some op => exact checked _
  | none =>
    cases UnaryOp.ofText? q.op with
    | some op => exact checked _
    | none => exact fun _ ran => ran

theorem ofOpcode_carries (q : Quad) (i : Int) : Carries (ofOpcode q) (ofOpcode { q with index := i }) := by
  unfold ofOpcode
  dsimp only
  split
  · refine (need_carries _ _ _).bind fun _ => ?_
    split <;> exact fun _ ran => ran
  all_goals first
    | exact ofOperation_carries q i
    | exact (needVariables_carries _ _ _).bind fun _ => (need_carries _ _ _).bind fun _ _ ran => ran
    | exact (needVariables_carries _ _ _).bind fun _ _ ran => ran
    | exact (need_carries _ _ _).bind fun _ _ ran => ran
    | exact fun _ ran => ran

/-- A quad is decoded in the same way at any position. -/
theorem ofQuad_carries (q : Quad) (i : Int) : Carries (ofQuad q) (ofQuad { q with index := i }) :=
  (checkRange_carries _ _ _).bind fun _ => ofOpcode_carries q i

end Instr

/-! Calls and frames -/

namespace Frame

variable {options : Options} {table : Scope} {code more : List Quad}

theorem callSites_numberedFrom (table : Scope) (current : String) (start : Nat) (code : List Quad) :
    callSites table current (Quad.numberedFrom start code) = callSites table current code := by
  induction code generalizing current start with
  | nil => rfl
  | cons q code ih =>
    have label : Quad.label? { q with index := start } = q.label? := rfl
    simp only [Quad.numberedFrom, callSites, label, ih]

/-- A call is counted for a procedure that the code opens. -/
theorem caller_mem_entries {current : String} {s : CallSite} (member : s ∈ callSites table current code) :
    (s.caller = current ∧ current ≠ "") ∨ s.caller ∈ Quad.entries code := by
  induction code generalizing current with
  | nil => simp [callSites] at member
  | cons q code ih =>
    have later (inside : s.caller ∈ Quad.entries code) : s.caller ∈ Quad.entries (q :: code) := by
      obtain ⟨q', within, opens⟩ := List.mem_filterMap.mp inside
      exact List.mem_filterMap.mpr ⟨q', List.mem_cons_of_mem q within, opens⟩
    unfold callSites at member
    split at member
    · rename_i name f label
      rcases ih member with ⟨rfl, _⟩ | inside
      · right
        exact List.mem_filterMap.mpr ⟨q, List.mem_cons_self, by simp [Quad.entry?, label]⟩
      · exact .inr (later inside)
    · rcases ih member with ⟨_, named⟩ | inside
      · exact absurd rfl named
      · exact .inr (later inside)
    · exact (ih member).imp id later
    · split at member
      · rename_i counted
        rcases List.mem_cons.mp member with rfl | member
        · exact .inl ⟨rfl, counted.2⟩
        · exact (ih member).imp id later
      · exact (ih member).imp id later

theorem filter_callSites_eq_nil {f : String} (closed : f ∉ Quad.entries code) :
    (callSites table "" code).filter (·.caller = f) = [] := by
  apply List.filter_eq_nil_iff.mpr
  intro s member called
  rcases caller_mem_entries member with ⟨_, named⟩ | opened
  · exact named rfl
  · exact closed (of_decide_eq_true called ▸ opened)

/-- The frame of a function depends on the calls in it. -/
theorem find_plan_eq (options : Options) (table : Scope) (code : List Quad) (name : String) :
    find (plan options table code) name =
      match table.functions.find? (·.name = name) with
      | some f => .ok (layout (demand options (callSites table "" code) f))
      | none => fail (.noFrame name) := by
  have named : ((fun l : Layout => decide (l.name = name)) ∘ fun f =>
      layout (demand options (callSites table "" code) f)) = fun f => decide (f.name = name) := rfl
  unfold find plan
  rw [List.find?_map, named]
  cases table.functions.find? (·.name = name) <;> rfl

theorem exists_find_plan_iff (options : Options) (table : Scope) (code more : List Quad) (name : String) :
    (∃ l, find (plan options table code) name = .ok l) ↔ ∃ l, find (plan options table more) name = .ok l := by
  rw [find_plan_eq, find_plan_eq]
  cases table.functions.find? (·.name = name) <;> simp [fail]

theorem find_plan_congr {name : String} (same : (callSites table "" more).filter (·.caller = name) =
      (callSites table "" code).filter (·.caller = name)) :
    find (plan options table more) name = find (plan options table code) name := by
  rw [find_plan_eq, find_plan_eq]
  cases found : table.functions.find? (·.name = name) with
  | none => rfl
  | some f =>
    have named : f.name = name := by simpa using List.find?_some found
    simp only [demand, maxArity?, named, same]

end Frame

namespace Codegen

open Asm (Line Listing)

variable {options : Options} {table : Scope} {frames : List Frame.Layout}
  {start : Nat} {code more : List Quad} {instrs others : List Instr}

theorem decodeFrom_numberedFrom (decoded : decodeFrom start code = .ok instrs) (start' : Nat) :
    decodeFrom start' (Quad.numberedFrom start' code) = .ok instrs := by
  induction code generalizing start start' instrs with
  | nil => exact decoded
  | cons q code ih =>
    obtain ⟨_, x, xs, first, rest, same⟩ := decodeFrom_cons_ok.mp decoded
    exact decodeFrom_cons_ok.mpr ⟨rfl, x, xs, Instr.ofQuad_carries q start' x first, ih rest (start' + 1), same⟩

theorem decodeFrom_append (decoded : decodeFrom start code = .ok instrs)
    (decoded' : decodeFrom (start + code.length) more = .ok others) :
    decodeFrom start (code ++ more) = .ok (instrs ++ others) := by
  induction code generalizing start instrs with
  | nil =>
    cases Except.ok.inj decoded
    exact decoded'
  | cons q code ih =>
    obtain ⟨numbered, x, xs, first, rest, rfl⟩ := decodeFrom_cons_ok.mp decoded
    rw [List.length_cons, Nat.add_comm code.length, ← Nat.add_assoc] at decoded'
    exact decodeFrom_cons_ok.mpr ⟨numbered, x, xs ++ others, first, ih rest decoded', rfl⟩

theorem decodeFrom_both (decoded : decodeFrom 0 code = .ok instrs) (decoded' : decodeFrom 0 more = .ok others) :
    decodeFrom 0 (Quad.numberedFrom 0 (code ++ more)) = .ok (instrs ++ others) := by
  rw [Quad.numberedFrom_append]
  apply decodeFrom_append (decodeFrom_numberedFrom decoded 0)
  rw [Quad.length_numberedFrom]
  exact decodeFrom_numberedFrom decoded' _

/-- The calls of code that ends outside of procedures come before those of the code behind it. -/
theorem callSites_append {st : State} {o : Output} (decoded : decodeFrom start code = .ok instrs)
    (consistent : st.Consistent) (ran : runFrom options table frames start code instrs st = .ok (.idle o)) :
    Frame.callSites table st.caller (code ++ more) =
      Frame.callSites table st.caller code ++ Frame.callSites table "" more := by
  induction code generalizing start instrs st with
  | nil =>
    cases Except.ok.inj decoded
    cases Except.ok.inj ran
    rfl
  | cons q code ih =>
    obtain ⟨_, x, xs, first, rest, rfl⟩ := decodeFrom_cons_ok.mp decoded
    simp only [runFrom, except_bind_ok, inContext_ok] at ran
    obtain ⟨st', steps, ran⟩ := ran
    rw [List.cons_append, step_callSites first consistent steps, step_callSites first consistent steps,
      ih rest (step_consistent consistent steps) ran, List.append_assoc]

/-! The code ahead -/

theorem usedAhead_numberedFrom (name : String) (start : Nat) (code : List Quad) :
    usedAhead name (Quad.numberedFrom start code) = usedAhead name code := by
  induction code generalizing start with
  | nil => rfl
  | cons q code ih =>
    have refers : Quad.refers { q with index := start } name = q.refers name := rfl
    have boundary : Quad.isBoundary { q with index := start } = q.isBoundary := rfl
    simp only [Quad.numberedFrom, usedAhead, refers, boundary, ih]

/-- What stands behind the end of a procedure is not looked at from inside. -/
theorem usedAhead_append {name : String} (closed : ∃ q ∈ code, q.isBoundary = true) :
    usedAhead name (code ++ more) = usedAhead name code := by
  induction code with
  | nil => simp at closed
  | cons q code ih =>
    simp only [List.cons_append, usedAhead]
    split
    · rfl
    · split
      · rfl
      · rename_i inner
        obtain ⟨q', member, boundary⟩ := closed
        rcases List.mem_cons.mp member with rfl | member
        · simp [boundary] at inner
        · exact ih ⟨q', member, boundary⟩

/-- The generator leaves a procedure by a label only. -/
theorem exists_boundary {b : Body} {o : Output} (decoded : decodeFrom start code = .ok instrs)
    (ran : runFrom options table frames start code instrs (.inside b) = .ok (.idle o)) :
    ∃ q ∈ code, q.isBoundary = true := by
  induction code generalizing start instrs b with
  | nil =>
    cases Except.ok.inj decoded
    cases Except.ok.inj ran
  | cons q code ih =>
    obtain ⟨_, x, xs, first, rest, rfl⟩ := decodeFrom_cons_ok.mp decoded
    simp only [runFrom, except_bind_ok, inContext_ok] at ran
    obtain ⟨st, steps, ran⟩ := ran
    have later {c : Body} (inside : st = .inside c) : ∃ q' ∈ q :: code, q'.isBoundary = true := by
      subst inside
      obtain ⟨q', member, boundary⟩ := ih rest ran
      exact ⟨q', List.mem_cons_of_mem q member, boundary⟩
    cases step_stepped steps with
    | nop => exact later rfl
    | exit closes _ =>
      exact ⟨q, List.mem_cons_self, by simp [Quad.isBoundary, label?_of_label first, closes]⟩
    | lower => exact later rfl

theorem decodeFrom_drop (decoded : decodeFrom start code = .ok instrs) (n : Nat) :
    decodeFrom (start + n) (code.drop n) = .ok (instrs.drop n) := by
  induction n generalizing start code instrs with
  | zero => exact decoded
  | succ n ih =>
    cases code with
    | nil =>
      cases Except.ok.inj decoded
      rfl
    | cons q code =>
      obtain ⟨_, x, xs, _, rest, rfl⟩ := decodeFrom_cons_ok.mp decoded
      rw [Nat.add_comm n 1, ← Nat.add_assoc]
      exact Nat.add_comm n 1 ▸ ih rest

/-- In a procedure of code that compiles, the end of the procedure is ahead. -/
theorem boundary_ahead {n : Nat} {x : Instr} {st : State} {b : Body} {o : Output}
    (decoded : decodeFrom start code = .ok instrs) (found : instrs[n]? = some x)
    (plain : ∀ l, x = .label l → l.boundary = .plain)
    (ran : runFrom options table frames start code instrs st = .ok (.idle o))
    (reached : runFrom options table frames start code (instrs.take n) st = .ok (.inside b)) :
    ∃ q ∈ code.drop (n + 1), q.isBoundary = true := by
  obtain ⟨bound, here⟩ := List.getElem?_eq_some_iff.mp found
  have inside : n < code.length := decodeFrom_length decoded ▸ bound
  rw [← List.take_append_drop n instrs, runFrom_append, reached, List.length_take,
    Nat.min_eq_left (Nat.le_of_lt bound), List.drop_eq_getElem_cons bound, here,
    List.drop_eq_getElem_cons inside] at ran
  obtain ⟨_, same, ran⟩ := except_bind_ok.mp ran
  cases Except.ok.inj same
  obtain ⟨st', steps, after⟩ := except_bind_ok.mp ran
  have rest := decodeFrom_drop decoded (n + 1)
  cases step_stepped (inContext_ok.mp steps) with
  | nop => exact exists_boundary rest after
  | exit closes => exact absurd (plain _ rfl) (by simp [closes])
  | lower => exact exists_boundary rest after

/-! Two programs one behind the other -/

/-- Both generators add the same lines to what they started with. -/
def beside (before before' : List Line) : Coupling :=
  .lasting (fun o p => ∃ added, o.lines.toList = before ++ added ∧ p.lines.toList = before' ++ added) <| by
    rintro o p l ⟨added, left, right⟩
    exact ⟨added ++ [l], by simp [Output.push, left], by simp [Output.push, right]⟩

variable {before before' : List Line}

theorem beside_unresolved {s t : Site} (mode : t.options.strict = s.options.strict) (c : Cause) :
    (beside before before').Follows (unresolved s c) (unresolved t c) := by
  unfold unresolved
  rw [mode]
  apply Coupling.Follows.ite (.fails c)
  constructor
  · rintro b o ⟨added, left, right⟩
    exact .inr ⟨o.warn _, ⟨added, left, right⟩, rfl⟩
  · exact fun _ _ _ stray => stray.elim

theorem beside_writes {s t : Site} (same : t.options = s.options) : (beside before before').Writes s t where
  load := fun _ _ _ _ related => same ▸ Coupling.related_append related _ False.elim
  jump := fun _ _ _ _ related => same ▸ Coupling.related_append related _ False.elim

/-- Sites of one program and of a longer one meet if the calls in the procedure that is entered and
the code ahead in the procedure are the same. -/
theorem beside_meets {n n' : Nat} {rest rest' : List Quad} {x : Instr} {st : State} {whole : List Quad}
    (calls : ∀ l f, x = .label l → l.boundary = .entry f →
      (Frame.callSites table "" whole).filter (·.caller = f) =
        (Frame.callSites table "" code).filter (·.caller = f))
    (ahead : ∀ b name, st = .inside b → (∀ l, x = .label l → l.boundary = .plain) →
      usedAhead name rest' = usedAhead name rest) :
    (beside before before').Meets ⟨options, table, Frame.plan options table code, n, rest⟩
      ⟨options, table, Frame.plan options table whole, n', rest'⟩ x st where
  table := rfl
  entry := rfl
  frame := fun l f same boundary => Frame.find_plan_congr (calls l f same boundary)
  writes := beside_writes rfl
  joins := fun b inside plain =>
    { beside_writes rfl with
      table := rfl
      flushEach := rfl
      ahead := fun name => ahead b name inside plain
      framed := Frame.exists_find_plan_iff options table code whole
      unresolved := beside_unresolved rfl }

theorem mem_entries {n : Nat} {l : Label} {f : String} (decoded : decodeFrom 0 code = .ok instrs)
    (found : instrs[n]? = some (.label l)) (opens : l.boundary = .entry f) : f ∈ Quad.entries code := by
  obtain ⟨q, here, decodes⟩ := decodeFrom_getElem? decoded found
  obtain ⟨name, boundary⟩ := l
  cases opens
  exact List.mem_filterMap.mpr
    ⟨q, List.mem_of_getElem? here, by simp [Quad.entry?, label?_of_label decodes]⟩

/-- No procedure is opened by both programs. -/
def Apart (code more : List Quad) : Prop := ∀ f ∈ Quad.entries code, f ∉ Quad.entries more

instance (code more : List Quad) : Decidable (Apart code more) :=
  inferInstanceAs (Decidable (∀ f ∈ Quad.entries code, f ∉ Quad.entries more))

theorem Apart.symm (apart : Apart code more) : Apart more code :=
  fun f opened opened' => apart f opened' opened

/-- The calls of both programs, one behind the other. -/
theorem callSites_both {o : Output} (decoded : decodeFrom 0 code = .ok instrs)
    (ran : runFrom options table frames 0 code instrs (.idle { lines := (header table).toArray }) =
      .ok (.idle o)) (more : List Quad) :
    Frame.callSites table "" (Quad.numberedFrom 0 (code ++ more)) =
      Frame.callSites table "" code ++ Frame.callSites table "" more := by
  rw [Frame.callSites_numberedFrom]
  show Frame.callSites table (State.idle { lines := (header table).toArray }).caller _ = _
  exact callSites_append decoded trivial ran

/-- Compilation of a program as a part of a longer one, behind what is in the output. -/
theorem part_follows {o : Output} (whole : List Quad) (start : Nat) (q : Output)
    (decoded : decodeFrom 0 code = .ok instrs)
    (ran : runFrom options table (Frame.plan options table code) 0 code instrs
      (.idle { lines := (header table).toArray }) = .ok (.idle o))
    (bound : start + code.length ≤ whole.length)
    (calls : ∀ f ∈ Quad.entries code, (Frame.callSites table "" whole).filter (·.caller = f) =
      (Frame.callSites table "" code).filter (·.caller = f))
    (ahead : ∀ n name, n < code.length → (∃ q ∈ code.drop (n + 1), q.isBoundary = true) →
      usedAhead name (whole.drop (start + (n + 1))) = usedAhead name (code.drop (n + 1))) :
    ∃ r, runFrom options table (Frame.plan options table whole) start (whole.drop start) instrs (.idle q) =
        .ok (.idle r) ∧
      ∃ added, o.lines.toList = header table ++ added ∧ r.lines.toList = q.lines.toList ++ added := by
  have length := decodeFrom_length decoded
  have along : (beside (header table) q.lines.toList).Along options options table
      (Frame.plan options table code) (Frame.plan options table whole) 0 start code (whole.drop start) instrs
      (.idle { lines := (header table).toArray }) := by
    intro n x st found reached
    apply beside_meets
    · rintro l f rfl boundary
      exact calls f (mem_entries decoded found boundary)
    · rintro b name rfl plain
      rw [List.drop_drop]
      apply ahead n name
      · exact length ▸ (List.getElem?_eq_some_iff.mp found).1
      · exact boundary_ahead decoded found plain ran reached
  have begins : (beside (header table) q.lines.toList).States
      (.idle { lines := (header table).toArray }) (.idle q) := .idle ⟨[], by simp⟩
  have room : instrs.length ≤ (whole.drop start).length := by
    rw [List.length_drop]
    omega
  have arrives := runFrom_follows (Nat.le_of_eq length) room False.elim along begins
  rw [ran] at arrives
  rcases arrives with impossible | ⟨_, states, ran'⟩
  · exact impossible.elim
  · cases states with
    | @idle _ r related => exact ⟨r, ran', related⟩

end Codegen

/-- The lines of a listing behind its data. -/
def Asm.Listing.code (l : Listing) : List Line := (l.lines.dropWhile (· ≠ .textSection)).tail

namespace Codegen

open Asm (Line Listing)

theorem code_of_lines {table : Scope} {l : Listing} {added : List Line}
    (lines : l.lines = header table ++ added) : l.code = added := by
  have data : ∀ l ∈ Line.dataSection :: table.globalVariables.map (fun s =>
      if s.isArray then Line.space s.name (s.words * wordSize).toInt else Line.word s.name),
      decide (l ≠ Line.textSection) = true := by
    intro l member
    rcases List.mem_cons.mp member with rfl | member
    · rfl
    · obtain ⟨s, _, rfl⟩ := List.mem_map.mp member
      split <;> rfl
  rw [Asm.Listing.code, lines, header, List.append_assoc, List.dropWhile_append_of_pos data]
  rfl

variable {options : Options} {table : Scope} {code more : List Quad} {l m : Listing}

/-- Two programs that open different procedures, one behind the other. -/
theorem compile_append (first : compile options table code = .ok l)
    (second : compile options table more = .ok m) (apart : Apart code more) :
    ∃ n, compile options table (Quad.numberedFrom 0 (code ++ more)) = .ok n ∧ n.code = l.code ++ m.code := by
  obtain ⟨xs, o, decoded, ran, rfl⟩ := compile_ok_iff.mp first
  obtain ⟨ys, p, decoded', ran', rfl⟩ := compile_ok_iff.mp second
  have sites := callSites_both decoded ran more
  have length := Quad.length_numberedFrom 0 (code ++ more)
  rw [List.length_append] at length
  have calls (f : String) (opened : f ∈ Quad.entries code) :
      (Frame.callSites table "" (Quad.numberedFrom 0 (code ++ more))).filter (·.caller = f) =
        (Frame.callSites table "" code).filter (·.caller = f) := by
    rw [sites, List.filter_append, Frame.filter_callSites_eq_nil (apart f opened), List.append_nil]
  have calls' (f : String) (opened : f ∈ Quad.entries more) :
      (Frame.callSites table "" (Quad.numberedFrom 0 (code ++ more))).filter (·.caller = f) =
        (Frame.callSites table "" more).filter (·.caller = f) := by
    rw [sites, List.filter_append, Frame.filter_callSites_eq_nil (apart.symm f opened), List.nil_append]
  obtain ⟨q, front, added, lines, lines₁⟩ := part_follows (Quad.numberedFrom 0 (code ++ more)) 0
    { lines := (header table).toArray } decoded ran (by omega) calls (by
      intro n name bound closed
      rw [Quad.drop_numberedFrom, usedAhead_numberedFrom, Nat.zero_add, List.drop_append_of_le_length bound]
      exact usedAhead_append closed)
  obtain ⟨r, back, added', lines', lines₂⟩ := part_follows (Quad.numberedFrom 0 (code ++ more)) code.length
    q decoded' ran' (by omega) calls' (by
      intro n name _ _
      rw [Quad.drop_numberedFrom, usedAhead_numberedFrom, List.drop_append, Nat.add_sub_cancel_left,
        List.drop_eq_nil_of_le (Nat.le_add_right _ _), List.nil_append])
  have ranBoth : runFrom options table (Frame.plan options table (Quad.numberedFrom 0 (code ++ more))) 0
      (Quad.numberedFrom 0 (code ++ more)) (xs ++ ys) (.idle { lines := (header table).toArray }) =
      .ok (.idle r) := by
    rw [runFrom_append, except_bind_ok]
    refine ⟨.idle q, front, ?_⟩
    rw [decodeFrom_length decoded, Nat.zero_add]
    exact back
  refine ⟨_, compile_ok_iff.mpr ⟨xs ++ ys, r, decodeFrom_both decoded decoded', ranBoth, rfl⟩, ?_⟩
  rw [code_of_lines (l := ⟨o.lines.toList, _, _⟩) lines, code_of_lines (l := ⟨p.lines.toList, _, _⟩) lines']
  have both : r.lines.toList = header table ++ (added ++ added') := by
    simp only [lines₂, lines₁, List.append_assoc]
  exact code_of_lines both

/-- The lines that a program has when it is compiled alone. -/
def block (options : Options) (table : Scope) (code : List Quad) : List Line :=
  match compile options table code with
  | .ok l => l.code
  | .error _ => []

theorem entries_flatten (parts : List (List Quad)) :
    Quad.entries parts.flatten = parts.flatMap Quad.entries := by
  induction parts with
  | nil => rfl
  | cons code parts ih => simp [Quad.entries, ← ih]

/-- Many programs one behind the other. -/
theorem compile_flatten {parts : List (List Quad)} (alone : ∀ code ∈ parts, ∃ l, compile options table code = .ok l)
    (apart : parts.Pairwise Apart) :
    ∃ n, compile options table (Quad.numberedFrom 0 parts.flatten) = .ok n ∧
      n.code = parts.flatMap (block options table) := by
  induction parts with
  | nil =>
    refine ⟨_, compile_ok_iff.mpr ⟨[], _, rfl, rfl, rfl⟩, ?_⟩
    exact code_of_lines (List.append_nil (header table)).symm
  | cons code parts ih =>
    obtain ⟨l, first⟩ := alone code List.mem_cons_self
    obtain ⟨here, others⟩ := List.pairwise_cons.mp apart
    obtain ⟨m, rest, lines⟩ := ih (fun more member => alone more (List.mem_cons_of_mem code member)) others
    have apart' : Apart code (Quad.numberedFrom 0 parts.flatten) := by
      intro f opened opened'
      rw [Quad.entries_numberedFrom, entries_flatten] at opened'
      obtain ⟨more, member, opened'⟩ := List.mem_flatMap.mp opened'
      exact here more member f opened opened'
    obtain ⟨n, both, lines'⟩ := compile_append first rest apart'
    refine ⟨n, ?_, ?_⟩
    · rw [Quad.numberedFrom_append, Quad.numberedFrom_numberedFrom, ← Quad.numberedFrom_append] at both
      exact both
    · rw [lines', lines, List.flatMap_cons, block, first]

theorem procedures_compile_apart (options : Options) (table : Scope) :
    (∀ code more l m, compile options table code = .ok l → compile options table more = .ok m →
      Apart code more →
      ∃ n, compile options table (Quad.numberedFrom 0 (code ++ more)) = .ok n ∧
        n.code = l.code ++ m.code) ∧
    ∀ parts order : List (List Quad), (∀ code ∈ parts, ∃ l, compile options table code = .ok l) →
      parts.Pairwise Apart → order.Perm parts →
      ∃ n, compile options table (Quad.numberedFrom 0 order.flatten) = .ok n ∧
        n.code = order.flatMap (block options table) := by
  constructor
  · exact fun code more l m => compile_append
  · intro parts order alone apart perm
    apply compile_flatten
    · exact fun code member => alone code (perm.mem_iff.mp member)
    · exact (perm.pairwise_iff Apart.symm).mpr apart

/-- A procedure that keeps a temporary over a call, and the one that it calls. -/
def callerCode : List Quad :=
  Quad.numberedFrom 0 [
    { op := "label", arg1 := "func_f" },
    { op := "+", arg1 := "x", arg2 := "1", res := "t" },
    { op := "param", arg1 := "t" },
    { op := "call", arg1 := "g", res := "v" },
    { op := "return", res := "t" },
    { op := "label", arg1 := "end_f" }]

def calleeCode : List Quad :=
  Quad.numberedFrom 0 [
    { op := "label", arg1 := "func_g" },
    { op := "+", arg1 := "x", arg2 := "v", res := "t" },
    { op := "return", res := "t" },
    { op := "label", arg1 := "end_g" }]

def pairTable : Scope :=
  ⟨[{ name := "v", kind := .variable }, { name := "f", kind := .function, params := [{ name := "x" }] },
    { name := "g", kind := .function, params := [{ name := "x" }] }]⟩

theorem procedures_compile_apart_swapped :
    Apart callerCode calleeCode ∧
    ∃ l m n n', compile {} pairTable callerCode = .ok l ∧ compile {} pairTable calleeCode = .ok m ∧
      l.code.length = 16 ∧ m.code.length = 9 ∧
      compile {} pairTable (Quad.numberedFrom 0 (callerCode ++ calleeCode)) = .ok n ∧
      n.code = l.code ++ m.code ∧
      compile {} pairTable (Quad.numberedFrom 0 [calleeCode, callerCode].flatten) = .ok n' ∧
      n'.code = m.code ++ l.code := by
  have apart : Apart callerCode calleeCode := by decide +kernel
  have first : (compile {} pairTable callerCode).toOption.any (·.code.length = 16) = true := by decide +kernel
  have second : (compile {} pairTable calleeCode).toOption.any (·.code.length = 9) = true := by decide +kernel
  obtain ⟨l, compiled, lines⟩ := (Option.any_eq_true _ _).mp first
  obtain ⟨m, compiled', lines'⟩ := (Option.any_eq_true _ _).mp second
  have compiled := eq_ok_of_toOption compiled
  have compiled' := eq_ok_of_toOption compiled'
  obtain ⟨append, permute⟩ := procedures_compile_apart {} pairTable
  obtain ⟨n, both, code⟩ := append callerCode calleeCode l m compiled compiled' apart
  obtain ⟨n', swapped, code'⟩ := permute [callerCode, calleeCode] [calleeCode, callerCode]
    (by simp [compiled, compiled']) (by simpa using apart) (.swap _ _ _)
  refine ⟨apart, l, m, n, n', compiled, compiled', of_decide_eq_true lines, of_decide_eq_true lines', both,
    code, swapped, ?_⟩
  simpa [block, compiled, compiled'] using code'

end Codegen

end ThreeAddress
