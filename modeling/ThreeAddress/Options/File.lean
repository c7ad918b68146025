import ThreeAddress.Error
import ThreeAddress.Options
import ThreeAddress.Toml.Document

/-! Options files. Fields are found by name in any case, other keys and tables are ignored. -/

namespace ThreeAddress

open Toml (Value Names Statement)

/-- The options as fields of a file. -/
inductive Field
  | entry
  | flushEach
  | assumeLeaf
  | placeholderWords
  | countLocals
  | delaySlots
  | strict
deriving DecidableEq, Repr, Inhabited

namespace Field

def name : Field → String
  | .entry => "entry"
  | .flushEach => "flush_each_instr"
  | .assumeLeaf => "assume_leaf"
  | .placeholderWords => "placeholder_local_words"
  | .countLocals => "count_locals"
  | .delaySlots => "delay_slots"
  | .strict => "strict"

def all : List Field :=
  [.entry, .flushEach, .assumeLeaf, .placeholderWords, .countLocals, .delaySlots, .strict]

def ofName? (name : String) : Option Field := all.find? (·.name = name.toLower)

def typeName : Field → String
  | .entry => "string"
  | .placeholderWords => "int"
  | _ => "bool"

end Field

namespace Options

/-- Sets a field, whose value has to be of the field's type. -/
def set? (o : Options) : Field → Value → Option Options
  | .entry, .text s => some { o with entry := s }
  | .flushEach, .truth b => some { o with flushEach := b }
  | .assumeLeaf, .truth b => some { o with assumeLeaf := b }
  | .placeholderWords, .integer written =>
    (Toml.word? written).map fun n => { o with placeholderWords := Int64.ofInt n }
  | .countLocals, .truth b => some { o with countLocals := b }
  | .delaySlots, .truth b => some { o with delaySlots := b }
  | .strict, .truth b => some { o with strict := b }
  | _, _ => none

/-- What the pairs of the current table mean. -/
inductive Section
  /-- They set fields. -/
  | fields
  /-- They are ignored. -/
  | ignored
  /-- The table has the name of a field, which has no pairs. -/
  | inside (f : Field)
deriving DecidableEq, Repr, Inhabited

/-- How far a file was read. -/
structure Reading where
  options : Options
  names : Names := {}
  part : Section := .fields

namespace Reading

/-- What a value that is missing or not usable means. -/
def required {α : Type} (x : Option α) : Except Error α :=
  match x with
  | some a => .ok a
  | none => fail .badOptions

/-- A table that is named as a field has to be empty, and has no tables inside. -/
def enter (r : Reading) (names : Names) (path : Toml.Path) (array : Bool) : Except Error Reading :=
  match path.head?.bind Field.ofName? with
  | none => .ok { r with names := names, part := .ignored }
  | some f =>
    if path.length > 1 then fail (.tableInField f.typeName)
    else if array then fail .badOptions
    else .ok { r with names := names, part := .inside f }

/-- Sets a field, or ignores the pair. -/
def assign (r : Reading) (path : Toml.Path) (v : Value) : Except Error Reading :=
  match r.part, path.head?.bind Field.ofName? with
  | .inside f, _ => fail (.pairInField f.typeName)
  | .ignored, _ => .ok r
  | .fields, none => .ok r
  | .fields, some f =>
    if path.length > 1 then fail (.pairInField f.typeName)
    else do return { r with options := ← required (r.options.set? f v) }

/-- Takes a statement. The names in tables that are ignored do not count. -/
def step (fuel : Nat) (r : Reading) : Statement → Except Error Reading
  | .table path => do r.enter (← required (r.names.enterTable? path)) path false
  | .arrayTable path => do r.enter (← required (r.names.enterArray? path)) path true
  | .pair path v =>
    if r.part = .ignored then .ok r
    else do
      let names ← required (Toml.addPairs? fuel r.names [(path, v)])
      Reading.assign { r with names := names } path v

end Reading

/-- The options with the values of a file in place of their own. A malformed place counts only if
all that stands before it can be used. -/
def overrideBy (o : Options) (file text : String) : Except Error Options :=
  inContext (.decode file) do
    let d := Toml.Document.ofText text
    let r ← d.statements.foldlM (Reading.step (text.length + 4)) { options := o }
    if d.malformed then fail .badOptions else return r.options

end Options

end ThreeAddress
