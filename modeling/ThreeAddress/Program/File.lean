import ThreeAddress.Program.Basic
import ThreeAddress.Yaml.Value

/-! Unit files: a YAML mapping with the declarations and the code of a unit. Keys that mean
nothing here are ignored, and a missing or null value is empty. -/

namespace ThreeAddress

open Yaml (Node)

/-- The value of a key, null if there is none. -/
def valueOf (pairs : List (String × Node)) (key : String) : Node := (pairs.lookup key).getD .null

def Decl.ofNode? (n : Node) : Option Decl := do
  let pairs ← n.pairs?
  return {
    name := ← (valueOf pairs "name").text?
    type := ← (valueOf pairs "type").text?
    size := Int64.ofInt (← (valueOf pairs "size").integer?)
    isArray := ← (valueOf pairs "array").truth? }

def declsOf? (n : Node) : Option (List Decl) := do (← n.items?).mapM Decl.ofNode?

def FunctionDecl.ofNode? (n : Node) : Option FunctionDecl := do
  let pairs ← n.pairs?
  return {
    name := ← (valueOf pairs "name").text?
    type := ← (valueOf pairs "type").text?
    params := ← declsOf? (valueOf pairs "params")
    locals := ← declsOf? (valueOf pairs "locals") }

def Declarations.ofNode? (n : Node) : Option Declarations := do
  let pairs ← n.pairs?
  return {
    globals := ← declsOf? (valueOf pairs "globals")
    functions := ← (← (valueOf pairs "funcs").items?).mapM FunctionDecl.ofNode?
    code := ← (valueOf pairs "code").text? }

/-- Reads a unit file. -/
def Program.ofText (name text : String) : Except Error Program :=
  match (Yaml.ofText? text).bind Declarations.ofNode? with
  | some d => Program.ofDeclarations name d
  | none => inContext .decodeUnit (fail .badUnit)

end ThreeAddress
