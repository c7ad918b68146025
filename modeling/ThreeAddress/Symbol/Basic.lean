/-! Declarations and symbols. Sizes are signed 64-bit words that wrap. -/

namespace ThreeAddress

def wordSize : Int64 := 4

/-- A declared variable. Its size is in bytes. -/
structure Decl where
  name : String
  type : String := ""
  size : Int64 := 0
  isArray : Bool := false
deriving DecidableEq, Repr, Inhabited

/-- The words that storage of the size takes: one for a scalar and at least one. -/
def storageWords (size : Int64) (isArray : Bool) : Int64 :=
  if !isArray || size ≤ wordSize then 1 else (size + wordSize - 1) / wordSize

def Decl.words (d : Decl) : Int64 := storageWords d.size d.isArray

/-- Words of consecutive declarations. -/
def totalWords (ds : List Decl) : Int64 := ds.foldl (fun n d => n + d.words) 0

inductive SymbolKind
  | variable
  | function
  | other (number : Int)
deriving DecidableEq, Repr, Inhabited

structure Symbol where
  name : String
  kind : SymbolKind := .variable
  type : String := ""
  size : Int64 := 0
  isArray : Bool := false
  params : List Decl := []
  locals : List Decl := []
deriving DecidableEq, Repr, Inhabited

namespace Symbol

def words (s : Symbol) : Int64 := storageWords s.size s.isArray

def isVariable (s : Symbol) : Bool := s.kind = .variable

def isFunction (s : Symbol) : Bool := s.kind = .function

/-- A global variable that fits a register. -/
def isScalar (s : Symbol) : Bool := s.isVariable && !s.isArray

def paramIndex? (s : Symbol) (name : String) : Option Nat := s.params.findIdx? (·.name = name)

def localIndex? (s : Symbol) (name : String) : Option Nat := s.locals.findIdx? (·.name = name)

end Symbol

end ThreeAddress
