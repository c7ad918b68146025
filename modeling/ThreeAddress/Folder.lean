import ThreeAddress.Error

/-! Text files by their paths in a folder. -/

namespace ThreeAddress

/-- Why a file cannot be read. -/
inductive FileFault
  | missing
  /-- A file stands where the path wants a folder. -/
  | notFolder
  /-- The path leads to a folder. -/
  | isFolder
  | longName
deriving DecidableEq, Repr, Inhabited

def FileFault.cause (path : String) : FileFault → Cause
  | .missing => .noSuchFile path
  | .notFolder => .notFolder path
  | .isFolder => .isFolder path
  | .longName => .longName path

/-- The files of a folder with their texts. -/
structure Folder where
  files : List (String × String) := []
deriving DecidableEq, Repr, Inhabited

namespace Folder

/-- The names on a path. Empty ones, and dots for the folder itself, lead nowhere. -/
def steps (path : String) : List String :=
  ((path.toList.splitOn '/').map String.ofList).filter fun s => s ≠ "" && s ≠ "."

/-- The path ends in a slash or in a dot behind one, so that it can lead to a folder only. -/
def wantsFolder (path : String) : Bool :=
  match path.toList.reverse with
  | '/' :: _ => true
  | ['.'] => true
  | '.' :: '/' :: _ => true
  | _ => false

/-- The bytes that a name may have. -/
def nameLimit : Nat := 255

def lookup (f : Folder) (steps : List String) : Option String :=
  (f.files.find? fun (name, _) => Folder.steps name = steps).map (·.2)

/-- A file of the folder lies below the steps. -/
def hasBelow (f : Folder) (steps : List String) : Bool :=
  f.files.any fun (name, _) => steps.isPrefixOf (Folder.steps name) && Folder.steps name ≠ steps

/-- The steps go through a file. -/
def passesFile (f : Folder) (steps : List String) : Bool :=
  f.files.any fun (name, _) => (Folder.steps name).isPrefixOf steps && Folder.steps name ≠ steps

/-- The text of a file. Outside of the folder there are folders only. -/
def read (f : Folder) (path : String) : Except FileFault String :=
  let steps := Folder.steps path
  if path = "" then .error .missing
  else if steps.all (· = "..") then .error .isFolder
  else if path.startsWith "/" then .error .missing
  else match f.lookup steps with
    | some text => if wantsFolder path then .error .notFolder else .ok text
    | none =>
      if f.hasBelow steps then .error .isFolder
      else if f.passesFile steps then .error .notFolder
      else if steps.any fun s => s.utf8ByteSize > nameLimit then .error .longName
      else .error .missing

end Folder

end ThreeAddress
