import ThreeAddress.Error
import ThreeAddress.Symbol.Basic

/-! The symbol table: symbols in the order of declaration, one of each name. -/

namespace ThreeAddress

structure Scope where
  symbols : List Symbol := []
deriving DecidableEq, Repr, Inhabited

/-- The first name that occurs twice, in the order of its second occurrence. -/
def repeatedName? (seen : List String) : List String → Option String
  | [] => none
  | name :: rest => if name ∈ seen then some name else repeatedName? (name :: seen) rest

namespace Scope

def lookup (t : Scope) (name : String) : Option Symbol := t.symbols.find? (·.name = name)

/-- Adds a symbol. Its name has to be new, and so has every name among its parameters and
locals. -/
def insert (t : Scope) (s : Symbol) : Except Error Scope :=
  if (t.lookup s.name).isSome then inContext (.symbol s.name) (fail .redefined)
  else match repeatedName? [] ((s.params ++ s.locals).map Decl.name) with
    | some name => inContext (.symbol s.name) (inContext (.symbol name) (fail .redefined))
    | none => .ok ⟨t.symbols ++ [s]⟩

def insertAll (t : Scope) : List Symbol → Except Error Scope
  | [] => .ok t
  | s :: rest => do (← t.insert s).insertAll rest

def functions (t : Scope) : List Symbol := t.symbols.filter Symbol.isFunction

def globalVariables (t : Scope) : List Symbol := t.symbols.filter Symbol.isVariable

end Scope

end ThreeAddress
