import ThreeAddress.Codegen.Compile
import ThreeAddress.Quad.Reader

/-! Programs: a symbol table and numbered code, made from the declarations of a unit. -/

namespace ThreeAddress

structure FunctionDecl where
  name : String := ""
  type : String := ""
  params : List Decl := []
  locals : List Decl := []
deriving DecidableEq, Repr, Inhabited

/-- A compilation unit as written. Its code is text. -/
structure Declarations where
  globals : List Decl := []
  functions : List FunctionDecl := []
  code : String := ""
deriving DecidableEq, Repr, Inhabited

structure Program where
  name : String
  table : Scope
  code : List Quad
deriving DecidableEq, Repr, Inhabited

def defaultType : String := "int"

/-- The declaration with its defaults: the type and the size of a scalar. -/
def Decl.complete (d : Decl) : Except Error Decl :=
  if d.name = "" then fail .emptyName
  else if d.size < 0 then fail (.negativeSize d.name)
  else .ok { d with
    type := if d.type = "" then defaultType else d.type
    size := if d.size = 0 && !d.isArray then wordSize else d.size }

def completeAll : List Decl → Except Error (List Decl)
  | [] => .ok []
  | d :: rest => do
    let d ← d.complete
    return d :: (← completeAll rest)

def Decl.toSymbol (d : Decl) : Symbol :=
  { name := d.name, kind := .variable, type := d.type, size := d.size, isArray := d.isArray }

def FunctionDecl.toSymbol (f : FunctionDecl) : Except Error Symbol :=
  if f.name = "" then fail .emptyName
  else do
    let params ← inContext .params (completeAll f.params)
    let locals ← inContext .locals (completeAll f.locals)
    return {
      name := f.name
      kind := .function
      type := if f.type = "" then defaultType else f.type
      params := params
      locals := locals }

def addGlobals (t : Scope) : List Decl → Except Error Scope
  | [] => .ok t
  | d :: rest => do
    let v ← inContext (.globalVariable d.name) d.complete
    addGlobals (← inContext .globals (t.insert v.toSymbol)) rest

def addFunctions (t : Scope) : List FunctionDecl → Except Error Scope
  | [] => .ok t
  | f :: rest => do
    let s ← inContext (.function f.name) f.toSymbol
    addFunctions (← inContext .functions (t.insert s)) rest

namespace Program

/-- Globals come before functions in the table. -/
def ofDeclarations (name : String) (d : Declarations) : Except Error Program := do
  let table ← addFunctions (← addGlobals {} d.globals) d.functions
  return ⟨name, table, ← inContext .code (Quad.codeOfText d.code)⟩

def compile (p : Program) (options : Options) : Except Error Asm.Listing :=
  inContext (.compile p.name) (Codegen.compile options p.table p.code)

def frames (p : Program) (options : Options) : List Frame.Layout :=
  Frame.plan options p.table p.code

end Program

end ThreeAddress
