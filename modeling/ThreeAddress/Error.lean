import ThreeAddress.Quad.Basic
import ThreeAddress.Text.Integer
import ThreeAddress.Text.Quoted

/-!
Failures: a cause and the contexts it was reported through. The message gives the contexts
from the outside in, then the cause, with a colon between the parts that are not empty.
-/

namespace ThreeAddress

open Text (Bytes integerText quoted quotedBytes)

inductive Cause
  | allReserved (name : String)
  | allLive (name : String)
  | cannotKeep (name : String)
  | undefinedName (name : String)
  | noValidLocation (name : String)
  | notAnArray (name : String)
  | notAFunction (name : String)
  | outsideOfFunction
  | nestedEntry (entered current : String)
  | exitOutside (function : String)
  | wrongExit (current exited : String)
  | missingExit (function : String)
  | notNumbered (position : Nat) (quad : Quad)
  | unknownOpcode (op : String)
  | wantParentheses (text : Bytes)
  | wantFourFields (text : Bytes) (count : Nat)
  | emptyOpcode (text : Bytes)
  | immediateRange (quad : Quad) (field : String)
  | missingOperand (quad : Quad)
  | variableExpected (quad : Quad) (field : String)
  | noFrame (function : String)
  | redefined
  | lineTooLong
  | noSuchFile (name : String)
  | notFolder (name : String)
  | isFolder (name : String)
  | longName (name : String)
  | badUnit
  | badOptions
  | localsTooLarge (function : String) (words available : Int)
  | argumentCount (function : String) (given wanted : Nat)
  | emptyName
  | negativeSize (name : String)
  | pairInField (type : String)
  | tableInField (type : String)
  | fault
deriving DecidableEq, Repr, Inhabited

/-- The broad kinds of failure. -/
inductive Kind
  | noRegister
  | unresolved
  | state
  | unknownOpcode
  | badQuad
  | noFrame
  | redefined
  | tooLong
  | noSuchFile
  | badUnit
  | badOptions
  | other
  | fault
deriving DecidableEq, Repr, Inhabited

/-- The text that all failures of a kind end with. -/
def Kind.text : Kind → String
  | .noRegister => "no register available"
  | .unresolved => "unresolved reference"
  | .state => "inconsistent generator state"
  | .unknownOpcode => "unknown opcode"
  | .badQuad => "quad syntax"
  | .noFrame => "no frame"
  | .redefined => "redefined"
  | .tooLong => "bufio.Scanner: token too long"
  | _ => ""

namespace Cause

def kind : Cause → Kind
  | .allReserved _ | .allLive _ | .cannotKeep _ => .noRegister
  | .undefinedName _ | .noValidLocation _ | .notAnArray _ | .notAFunction _ => .unresolved
  | .outsideOfFunction | .nestedEntry .. | .exitOutside _ | .wrongExit .. | .missingExit _
  | .notNumbered .. => .state
  | .unknownOpcode _ => .unknownOpcode
  | .wantParentheses _ | .wantFourFields .. | .emptyOpcode _ | .immediateRange ..
  | .missingOperand _ | .variableExpected .. => .badQuad
  | .noFrame _ => .noFrame
  | .redefined => .redefined
  | .lineTooLong => .tooLong
  | .noSuchFile _ => .noSuchFile
  | .badUnit => .badUnit
  | .badOptions => .badOptions
  | .notFolder _ | .isFolder _ | .longName _ | .localsTooLarge .. | .argumentCount .. | .emptyName
  | .negativeSize _ | .pairInField _ => .other
  | .tableInField _ | .fault => .fault

/-- What is particular to this failure. -/
def detail : Cause → String
  | .allReserved name => name ++ ": all registers are reserved"
  | .allLive name => name ++ ": every register holds a live temporary"
  | .cannotKeep name => "keep " ++ name ++ " across the call"
  | .undefinedName name => name ++ ": undefined"
  | .noValidLocation name => name ++ ": no valid location"
  | .notAnArray name => name ++ ": not an array"
  | .notAFunction name => "func " ++ name ++ ": not a function"
  | .outsideOfFunction => "instruction outside of function"
  | .nestedEntry entered current => "func " ++ entered ++ ": entry inside of func " ++ current
  | .exitOutside function => "func " ++ function ++ ": exit outside of function"
  | .wrongExit current exited => "func " ++ current ++ ": exit marker of " ++ exited
  | .missingExit function => "func " ++ function ++ ": no exit marker"
  | .notNumbered position quad =>
    "instr " ++ integerText position ++ " " ++ quad.text ++ ": index " ++ integerText quad.index ++
      ": code is not numbered"
  | .unknownOpcode op => quoted op
  | .wantParentheses text => quotedBytes text ++ ": want parentheses"
  | .wantFourFields text count => quotedBytes text ++ ": want 4 fields, got " ++ integerText count
  | .emptyOpcode text => quotedBytes text ++ ": empty opcode"
  | .immediateRange quad field => quad.text ++ ": " ++ field ++ ": immediate out of range"
  | .missingOperand quad => quad.text ++ ": missing operand"
  | .variableExpected quad field => quad.text ++ ": " ++ field ++ ": variable expected"
  | .noFrame function => function
  | .noSuchFile name => "open " ++ name ++ ": no such file or directory"
  | .notFolder name => "open " ++ name ++ ": not a directory"
  | .isFolder name => "read " ++ name ++ ": is a directory"
  | .longName name => "open " ++ name ++ ": file name too long"
  | .localsTooLarge function words available =>
    "func " ++ function ++ ": locals take " ++ integerText words ++ " words, frame has " ++
      integerText available
  | .argumentCount function given wanted =>
    "call " ++ function ++ ": " ++ integerText given ++ " arguments, want " ++ integerText wanted
  | .emptyName => "empty name"
  | .negativeSize name => name ++ ": negative size"
  | .pairInField type => "unhandled kv part: " ++ type
  | .tableInField type => "unhandled part: " ++ type
  | .redefined | .lineTooLong | .badUnit | .badOptions | .fault => ""

end Cause

/-- Where a failure was met. -/
inductive Context
  | compile (unit : String)
  | load (file : String)
  | loadUnit
  | loadOptions
  | readFile
  | decodeUnit
  | decode (file : String)
  | globalVariable (name : String)
  | globals
  | function (name : String)
  | functions
  | params
  | locals
  | code
  | line (number : Nat)
  | scan
  | symbol (name : String)
  | instr (position : Nat)
  | instrOf (position : Nat) (quad : Quad)
  | left
  | right
  | result
  | index
  | base
  | pointer
  | value
  | argument (position : Nat)
deriving DecidableEq, Repr, Inhabited

def Context.text : Context → String
  | .compile unit => "compile " ++ unit
  | .load file => "load " ++ file
  | .loadUnit => "load unit"
  | .loadOptions => "load options"
  | .readFile => "read file"
  | .decodeUnit => "decode unit"
  | .decode file => "decode " ++ file
  | .globalVariable name => "global " ++ name
  | .globals => "global"
  | .function name => "func " ++ name
  | .functions => "func"
  | .params => "params"
  | .locals => "locals"
  | .code => "code"
  | .line number => "line " ++ integerText number
  | .scan => "scan"
  | .symbol name => name
  | .instr position => "instr " ++ integerText position
  | .instrOf position quad => "instr " ++ integerText position ++ " " ++ quad.text
  | .left => "left"
  | .right => "right"
  | .result => "result"
  | .index => "index"
  | .base => "base"
  | .pointer => "pointer"
  | .value => "value"
  | .argument position => "arg " ++ integerText position

/-- The contexts stand from the outside in. -/
structure Error where
  contexts : List Context := []
  cause : Cause
deriving DecidableEq, Repr, Inhabited

namespace Error

def kind (e : Error) : Kind := e.cause.kind

def within (e : Error) (c : Context) : Error := { e with contexts := c :: e.contexts }

/-- The parts with a colon between them. -/
def joined (parts : List String) : String := ": ".intercalate (parts.filter (· ≠ ""))

def message (e : Error) : String :=
  joined (e.contexts.map Context.text ++ [e.cause.detail, e.kind.text])

end Error

/-- Reports the failure of a computation in a context. -/
def inContext {α : Type} (c : Context) : Except Error α → Except Error α
  | .ok a => .ok a
  | .error e => .error (e.within c)

def fail {α : Type} (c : Cause) : Except Error α := .error { cause := c }

end ThreeAddress
