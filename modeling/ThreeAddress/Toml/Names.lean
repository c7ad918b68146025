import ThreeAddress.Toml.Value

/-! What a TOML document has named so far: nothing is defined twice. -/

namespace ThreeAddress.Toml

inductive NameKind
  | table
  | tableArray
  | value
deriving DecidableEq, Repr, Inhabited

structure Name where
  path : Path
  kind : NameKind
  /-- The table cannot be defined any more. -/
  closed : Bool
  /-- The name came with a pair of the current table. -/
  fresh : Bool
deriving DecidableEq, Repr, Inhabited

/-- The names, and the current table. -/
structure Names where
  names : List Name := []
  current : Path := []
deriving DecidableEq, Repr, Inhabited

namespace Names

def find? (n : Names) (path : Path) : Option Name := n.names.find? (·.path = path)

def add (n : Names) (name : Name) : Names := { n with names := n.names ++ [name] }

def update (n : Names) (path : Path) (f : Name → Name) : Names :=
  { n with names := n.names.map fun x => if x.path = path then f x else x }

/-- The name lies inside of the table. -/
def isInside (path : Path) (x : Name) : Bool := path.isPrefixOf x.path && x.path ≠ path

/-- At the end of the current table the names that came with its pairs are closed. -/
def leave (n : Names) : Names :=
  { n with names := n.names.map fun x =>
      if isInside n.current x && x.fresh then { x with closed := true, fresh := false } else x }

/-- Names the tables around a table: those that are new, none of which is a value. -/
def addOuter? (n : Names) (outer : Path) : Path → Option Names
  | [] => some n
  | part :: parts =>
    let path := outer ++ [part]
    match n.find? path with
    | none => (n.add ⟨path, .table, false, false⟩).addOuter? path parts
    | some x => if x.kind = .value then none else n.addOuter? path parts

/-- Starts a table that was not defined. -/
def enterTable? (n : Names) (path : Path) : Option Names := do
  let n ← n.leave.addOuter? [] path.dropLast
  let n ← match n.find? path with
    | none => some (n.add ⟨path, .table, true, false⟩)
    | some x =>
      if x.kind ≠ .table || x.closed then none
      else some (n.update path fun x => { x with closed := true })
  some { n with current := path }

/-- Starts a further table of an array, in which all names are free again. -/
def enterArray? (n : Names) (path : Path) : Option Names := do
  let n ← n.leave.addOuter? [] path.dropLast
  let n ← match n.find? path with
    | none => some (n.add ⟨path, .tableArray, true, false⟩)
    | some x =>
      if x.kind ≠ .tableArray then none
      else some { n with names := n.names.filter fun x => !isInside path x }
  some { n with current := path }

/-- Names a value by a dotted key. The tables on the way are open ones. -/
def addKey? (n : Names) (outer : Path) : Path → Option Names
  | [] => some (n.update outer fun x => { x with kind := .value })
  | part :: parts =>
    let path := outer ++ [part]
    match n.find? path with
    | none => (n.add ⟨path, .table, false, true⟩).addKey? path parts
    | some x => if parts.isEmpty || x.kind ≠ .table || x.closed then none else n.addKey? path parts

end Names

mutual

/-- The tables inside of a value name nothing twice. The fuel bounds their depth. -/
def isConsistent : (fuel : Nat) → Value → Bool
  | 0, _ => false
  | fuel + 1, .table pairs => (addPairs? fuel {} pairs).isSome
  | fuel + 1, .array items => items.all (isConsistent fuel)
  | _ + 1, _ => true

/-- Names the keys of pairs, whose values are consistent. -/
def addPairs? : (fuel : Nat) → Names → List (Path × Value) → Option Names
  | 0, _, _ => none
  | _ + 1, n, [] => some n
  | fuel + 1, n, (path, v) :: rest => do
    let n ← n.addKey? n.current path
    if isConsistent fuel v then addPairs? fuel n rest else none

end

end ThreeAddress.Toml
