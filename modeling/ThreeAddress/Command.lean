import ThreeAddress.Folder
import ThreeAddress.Frame.Json
import ThreeAddress.Frame.Report
import ThreeAddress.Options.File
import ThreeAddress.Program.File
import ThreeAddress.Quad.Dump

/-!
The command line. Arguments are a command, its flags and files, in any order behind the
command. Reading files is left to the caller, so that a run is a function of the files' texts.
-/

namespace ThreeAddress.Command

inductive Action
  | compile
  | frames
  | dump
deriving DecidableEq, Repr, Inhabited

def Action.name : Action → String
  | .compile => "compile"
  | .frames => "frames"
  | .dump => "dump"

def Action.ofName? (s : String) : Option Action := [Action.compile, .frames, .dump].find? (·.name = s)

inductive Flag
  | verbosity
  | config
  | entry
  | flushEach
  | assumeLeaf
  | delaySlots
  | lax
  | json
deriving DecidableEq, Repr, Inhabited

/-- The flag takes a text and not a truth value. -/
def Flag.takesText : Flag → Bool
  | .verbosity | .config | .entry => true
  | _ => false

def programFlags : List (String × Flag) := [("verbosity", .verbosity), ("v", .verbosity)]

def optionFlags : List (String × Flag) :=
  [("config", .config), ("c", .config), ("entry", .entry), ("flush-each", .flushEach),
   ("assume-leaf", .assumeLeaf), ("delay-slots", .delaySlots), ("lax", .lax)]

/-- The flags that the program or one of its commands knows. -/
def flagsOf : Option Action → List (String × Flag)
  | none => programFlags
  | some .compile => optionFlags ++ programFlags
  | some .frames => optionFlags ++ [("json", .json)] ++ programFlags
  | some .dump => programFlags

/-- Values of flags; the last value counts. -/
structure Settings where
  config : String := ""
  entry : String := ""
  flushEach : Bool := false
  assumeLeaf : Bool := false
  delaySlots : Bool := false
  lax : Bool := false
  json : Bool := false
deriving DecidableEq, Repr, Inhabited

def Settings.setText (s : Settings) (f : Flag) (value : String) : Settings :=
  match f with
  | .config => { s with config := value }
  | .entry => { s with entry := value }
  | _ => s

def Settings.setTruth (s : Settings) (f : Flag) (value : Bool) : Settings :=
  match f with
  | .flushEach => { s with flushEach := value }
  | .assumeLeaf => { s with assumeLeaf := value }
  | .delaySlots => { s with delaySlots := value }
  | .lax => { s with lax := value }
  | .json => { s with json := value }
  | _ => s

inductive UsageError
  | noSuchFlag (arg : String)
  | valueRequired (arg : String)
  | notATruthValue (arg : String)
  | unexpectedArgument (arg : String)
deriving DecidableEq, Repr, Inhabited

def UsageError.message : UsageError → String
  | .noSuchFlag arg => "parse flag: " ++ arg ++ ": no such flag"
  | .valueRequired arg => "parse flag: " ++ arg ++ ": flag value is required"
  | .notATruthValue arg => "parse flag: " ++ arg ++ ": not a bool value"
  | .unexpectedArgument arg => "no args expected, got " ++ arg

/-- A flag as written: its name and the value behind an equals sign or a space. -/
structure FlagText where
  name : String
  value : Option String
deriving DecidableEq, Repr, Inhabited

/-- Arguments that start with one or two dashes are flags, the dashes alone are not. -/
def FlagText.ofArgument? (arg : String) : Option FlagText :=
  let split (cs : List Char) : FlagText :=
    let name := cs.takeWhile fun c => c ≠ '=' && c ≠ ' '
    let rest := cs.drop name.length
    ⟨.ofList name, if rest.isEmpty then none else some (.ofList (rest.drop 1))⟩
  match arg.toList with
  | ['-'] | ['-', '-'] => none
  | '-' :: '-' :: cs => some (split cs)
  | '-' :: cs => some (split cs)
  | _ => none

/-- An empty value is true, as none is. -/
def truthOf? (s : String) : Option Bool :=
  let s := s.toLower
  if ["", "true", "t", "yes", "y", "1"].contains s then some true
  else if ["false", "f", "no", "n", "0"].contains s then some false
  else none

/-- What a flag does: it changes the settings, or it waits for the next argument. -/
inductive FlagEffect
  | set (s : Settings)
  | wait (f : Flag)
deriving DecidableEq, Repr, Inhabited

/-- Applies a flag. A text that does not stand in the same argument is the next one. -/
def applyFlag (s : Settings) (known : List (String × Flag)) (arg : String) (f : FlagText) :
    Except UsageError FlagEffect :=
  match known.lookup f.name with
  | none => .error (.noSuchFlag arg)
  | some flag =>
    match flag.takesText, f.value with
    | true, some value => .ok (.set (s.setText flag value))
    | true, none => .ok (.wait flag)
    | false, none => .ok (.set (s.setTruth flag true))
    | false, some value =>
      match truthOf? value with
      | some b => .ok (.set (s.setTruth flag b))
      | none => .error (.notATruthValue arg)

/-- What the arguments ask for. -/
structure Request where
  action : Option Action := none
  settings : Settings := {}
  files : List String := []
deriving DecidableEq, Repr, Inhabited

/-- A failure of usage, with the command it happened in. -/
structure UsageFailure where
  action : Option Action
  error : UsageError
deriving DecidableEq, Repr, Inhabited

def Request.known (r : Request) : List (String × Flag) := flagsOf r.action

/-- An argument that is not a flag: the command, else a file. -/
def Request.addArgument (r : Request) (arg : String) : Except UsageError Request :=
  match r.action with
  | some _ => .ok { r with files := r.files ++ [arg] }
  | none =>
    match Action.ofName? arg with
    | some action => .ok { r with action := some action }
    | none => .error (.unexpectedArgument arg)

/-- What an argument is. -/
inductive Argument
  /-- All arguments behind it are files. Before the command it has no meaning. -/
  | separator
  | flag (f : FlagText)
  | other
deriving DecidableEq, Repr, Inhabited

def Argument.of (arg : String) : Argument :=
  if arg = "--" then .separator
  else match FlagText.ofArgument? arg with
    | some f => .flag f
    | none => .other

/-- A failure of usage in the command of the request. -/
def Request.refuse {α : Type} (r : Request) (e : UsageError) : Except UsageFailure α := .error ⟨r.action, e⟩

/-- Reads the arguments. A flag that waits for its value takes the next argument whole. -/
def Request.read (r : Request) (waiting : Option (String × Flag)) :
    List String → Except UsageFailure Request
  | [] =>
    match waiting with
    | none => .ok r
    | some (arg, _) => r.refuse (.valueRequired arg)
  | arg :: rest =>
    match waiting with
    | some (_, flag) => Request.read { r with settings := r.settings.setText flag arg } none rest
    | none =>
      match Argument.of arg with
      | .separator =>
        match r.action with
        | some _ => .ok { r with files := r.files ++ rest }
        | none => r.refuse (.unexpectedArgument arg)
      | .flag f =>
        match applyFlag r.settings r.known arg f with
        | .ok (.set s) => Request.read { r with settings := s } none rest
        | .ok (.wait flag) => Request.read r (some (arg, flag)) rest
        | .error e => r.refuse e
      | .other =>
        match r.addArgument arg with
        | .ok r => Request.read r none rest
        | .error e => r.refuse e

/-- What a run prints, and its failure if it failed. -/
structure Outcome where
  stdout : String := ""
  failure : Option String := none
deriving DecidableEq, Repr, Inhabited

variable {m : Type → Type} [Monad m]

/-- The text of a file. -/
def readText (read : String → m (Except FileFault String)) (file : String) :
    m (Except Error String) := do
  match ← read file with
  | .ok text => return .ok text
  | .error fault => return inContext .readFile (fail (fault.cause file))

/-- The options of a run: those of the file, changed by the flags. A flag that is false changes
nothing. -/
def Settings.options (s : Settings) (base : Options) : Options :=
  { base with
    entry := if s.entry = "" then base.entry else s.entry
    flushEach := s.flushEach || base.flushEach
    assumeLeaf := s.assumeLeaf || base.assumeLeaf
    delaySlots := s.delaySlots || base.delaySlots
    strict := !s.lax && base.strict }

def loadOptions (read : String → m (Except FileFault String)) (s : Settings) : m (Except Error Options) := do
  if s.config = "" then return .ok (s.options {})
  else
    let text ← readText read s.config
    return inContext .loadOptions do
      let base ← Options.overrideBy {} s.config (← text)
      return s.options base

/-- What a command prints for the text of a file. -/
def Action.print (a : Action) (s : Settings) (options : Options) (file : String)
    (text : Except Error String) : Except Error String :=
  let program : Except Error Program := do Program.ofText file (← text)
  match a with
  | .compile => do
    let listing ← inContext (.compile file) (do
      match inContext .loadUnit program with
      | .ok p => p.compile options
      | .error e => .error e)
    return listing.text
  | .frames => do
    let frames := (← inContext (.load file) program).frames options
    return if s.json then Frame.json frames else Frame.report frames
  | .dump => do return Quad.dump (← inContext (.load file) program).code

/-- Runs a command on the files in order, up to the first failure. -/
def runFiles (read : String → m (Except FileFault String)) (a : Action) (s : Settings) (options : Options)
    (printed : String) : List String → m Outcome
  | [] => return { stdout := printed }
  | file :: rest => do
    match a.print s options file (← readText read file) with
    | .ok text => runFiles read a s options (printed ++ text) rest
    | .error e => return { stdout := printed, failure := some (Error.joined [a.name, e.message]) }

/-- Runs the program on its arguments. -/
def run (read : String → m (Except FileFault String)) (args : List String) : m Outcome := do
  match Request.read {} none args with
  | .error ⟨action, e⟩ =>
    return { failure := some (Error.joined [(action.map Action.name).getD "", e.message]) }
  | .ok r =>
    match r.action with
    | none => return {}
    | some a =>
      let options ← match a with
        | .dump => pure (.ok {})
        | _ => loadOptions read r.settings
      match options with
      | .ok options => runFiles read a r.settings options "" r.files
      | .error e => return { failure := some (Error.joined [a.name, e.message]) }

end ThreeAddress.Command
