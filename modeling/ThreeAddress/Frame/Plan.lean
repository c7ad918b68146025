import ThreeAddress.Frame.Layout
import ThreeAddress.Options
import ThreeAddress.Symbol.Scope

/-! Frames of all the functions of a program, from its symbols and its calls. -/

namespace ThreeAddress.Frame

/-- A call that stands in a procedure: the caller's name and the callee's parameter count. -/
structure CallSite where
  caller : String
  arity : Nat
deriving DecidableEq, Repr, Inhabited

/-- Parameters of the function that the name stands for; none if there is no such symbol. -/
def arityOf (table : Scope) (callee : String) : Nat :=
  match table.lookup callee with
  | some s => s.params.length
  | none => 0

/-- The calls of the code, where `current` is the procedure that the code starts in. A call in
a procedure without a name is not counted. -/
def callSites (table : Scope) (current : String) : List Quad → List CallSite
  | [] => []
  | q :: rest =>
    match q.label? with
    | some ⟨_, .entry f⟩ => callSites table f rest
    | some ⟨_, .exit _⟩ => callSites table "" rest
    | some ⟨_, .plain⟩ => callSites table current rest
    | none =>
      if q.op = "call" ∧ current ≠ "" then
        ⟨current, arityOf table q.arg1⟩ :: callSites table current rest
      else callSites table current rest

/-- The most parameters among the callees of the function; nothing if it does not call. -/
def maxArity? (sites : List CallSite) (f : String) : Option Nat :=
  match sites.filter (·.caller = f) with
  | [] => none
  | own => some (own.foldl (fun n site => max n site.arity) 0)

def demand (options : Options) (sites : List CallSite) (f : Symbol) : Demand :=
  let counted := if options.countLocals then f.locals else []
  let calls := if options.assumeLeaf then none else maxArity? sites f.name
  { name := f.name
    entry := f.name = options.entry
    leaf := calls.isNone
    localWords := counted.foldl (fun n d => n + d.words) options.placeholderWords
    maxCalleeParams := Int64.ofNat (calls.getD 0) }

/-- One layout for each function, in the order of declaration. -/
def plan (options : Options) (table : Scope) (code : List Quad) : List Layout :=
  let sites := callSites table "" code
  table.functions.map fun f => layout (demand options sites f)

def find (frames : List Layout) (name : String) : Except Error Layout :=
  match frames.find? (·.name = name) with
  | some l => .ok l
  | none => fail (.noFrame name)

end ThreeAddress.Frame
