import ThreeAddress.Fault
import ThreeAddress.KeySet.Basic
import ThreeAddress.KeySet.Bits
import ThreeAddress.Text.Integer
import ThreeAddress.Wire

/-!
Sessions with named sets of keys. A set keeps track of its storage, which its encoding shows:
a set that never had any is encoded as nil, and a copy takes storage only from a set that has
words.
-/

namespace ThreeAddress.KeySet

/-- A set, and whether it ever had storage. -/
structure Stored where
  keys : Bits := {}
  made : Bool := false
deriving DecidableEq, Repr, Inhabited

namespace Stored

def insert (s : Stored) (k : Nat) : Stored := ⟨s.keys.insert k, true⟩

def erase (s : Stored) (k : Nat) : Stored := { s with keys := s.keys.erase k }

/-- Gives up the words and keeps the storage. -/
def reset (s : Stored) : Stored := { s with keys := {} }

def only (s : Stored) (k : Nat) : Stored := s.reset.insert k

def merge (s t : Stored) : Stored := ⟨s.keys.union t.keys, s.made || !t.keys.words.isEmpty⟩

def copy (s : Stored) : Stored := ⟨s.keys, !s.keys.words.isEmpty⟩

def wire (s : Stored) : Wire.Bytes :=
  if s.made then
    Wire.opening .array ++ s.keys.toList.flatMap (fun k => Wire.int (Int64.ofNat k)) ++ Wire.closing
  else Wire.nil

end Stored

inductive Command
  | assign (keys : List Int)
  | copy (source : String)
  | insert (key : Int)
  | insertAll (keys : List Int)
  | contains (key : Int)
  | erase (key : Int)
  | only (key : Int)
  | merge (source : String)
  | reset
  | first
  | range (limit : Int)
  | wire
deriving DecidableEq, Repr, Inhabited

inductive Reply
  | none
  | bool (b : Bool)
  | first (key : Option Nat)
  | keys (ks : List Nat)
  | bytes (bs : Wire.Bytes)
deriving DecidableEq, Repr, Inhabited

/-- A key is not negative. -/
def key (k : Int) : Except Fault Nat :=
  if k < 0 then .error (.badKey (Text.integerText k)) else .ok k.toNat

def insertKeys (s : Stored) : List Int → Except Fault Stored
  | [] => .ok s
  | k :: rest => do insertKeys (s.insert (← key k)) rest

/-- A visitor that notes what it sees and stops once there are `limit` of them. -/
def upTo {α : Type} (limit : Int) (seen : List α) (k : α) : List α × Bool :=
  (seen ++ [k], (seen.length + 1 : Int) < limit)

/-- The keys that a visitor sees who stops once there are `limit` of them: one at least, if there
is one. -/
def visited {α : Type} (limit : Int) (ks : List α) : List α := visit (upTo limit) [] ks

/-- Sets by name; a name that was never used stands for an empty set. -/
abbrev Session := List (String × Stored)

def Session.get (sets : Session) (name : String) : Stored := (sets.lookup name).getD {}

def Session.put (sets : Session) (name : String) (s : Stored) : Session :=
  (name, s) :: sets.filter (·.1 ≠ name)

def execute (sets : Session) (s : Stored) : Command → Except Fault (Reply × Stored)
  | .assign ks => do return (.none, ← insertKeys {} ks)
  | .copy source => return (.none, (sets.get source).copy)
  | .insert k => do return (.none, s.insert (← key k))
  | .insertAll ks => do return (.none, ← insertKeys s ks)
  | .contains k => do return (.bool (s.keys.contains (← key k)), s)
  | .erase k => do return (.none, s.erase (← key k))
  | .only k => do return (.none, s.only (← key k))
  | .merge source => return (.none, s.merge (sets.get source))
  | .reset => return (.none, s.reset)
  | .first => return (.first s.keys.first?, s)
  | .range limit => return (.keys (s.keys.visit (upTo limit) []), s)
  | .wire => return (.bytes s.wire, s)

/-- Runs a command on the set of the name. -/
def Session.step (sets : Session) (name : String) (c : Command) : Except Fault (Reply × Session) := do
  let (reply, s) ← execute sets (sets.get name) c
  return (reply, sets.put name s)

end ThreeAddress.KeySet
