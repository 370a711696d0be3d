import ApiTypes.Location
import ApiTypes.Template.Run

/-!
A file system as far as generation needs one: files with their texts, directories, and a working
directory. Failures carry the operation, the path as it was given, and the reason. With the files
stands what else is found around the program and may be anything: what the web holds, the engine
that fills templates in, and the clock.
-/

namespace ApiTypes

/-- Why an operation on a path failed. -/
inductive FileFault where
  | missing
  | isDirectory
  | notDirectory
  deriving DecidableEq, Repr

structure FileError where
  action : String
  path : String
  fault : FileFault
  deriving Repr

def FileFault.message : FileFault → String
  | .missing => "no such file or directory"
  | .isDirectory => "is a directory"
  | .notDirectory => "not a directory"

def FileError.message (e : FileError) : String :=
  e.action ++ " " ++ e.path ++ ": " ++ e.fault.message

/-- Files and directories by absolute path. The directories above an entry exist too. -/
structure FileSystem where
  workingDirectory : String
  files : List (String × String) := []
  directories : List String := []
  /-- What an address on the web holds, or why nothing comes from there. -/
  web : String → Except String String := fun _ => .error "no network"
  /-- The engine for templates at each moment: a template can ask for the time and for a random
  number. -/
  engine : (moment : Nat) → Template.Engine := fun _ => Template.render
  moment : Nat := 0

namespace FileSystem

/-- The directories on the way to a path, from the root down. A part that takes back the one before
it is on the way too. -/
def above (path : String) : List String :=
  let parts := (Text.split '/' path).filter (· ≠ "")
  (List.range parts.length).map fun n => Location.clean ("/" ++ Text.join "/" (parts.take n))

/-- A file system that holds files, given by paths relative to the working directory, with no
network and the engine for plain templates. -/
def ofFiles (workingDirectory : String) (files : List (String × String)) : FileSystem :=
  let files := files.map fun (path, text) => (Location.absolute workingDirectory path, text)
  { workingDirectory
    files
    directories :=
      workingDirectory :: above workingDirectory ++ files.flatMap fun (path, _) => above path }

def isDirectory (fs : FileSystem) (path : String) : Bool := fs.directories.contains path

def file? (fs : FileSystem) (path : String) : Option String := fs.files.lookup path

/-- Why a path whose directories should exist cannot be used. -/
def faultAbove (fs : FileSystem) (path : String) : Option FileFault :=
  if (above path).any fun d => (fs.file? d).isSome then some .notDirectory
  else if (above path).all fs.isDirectory then none
  else some .missing

/-- A path from the root of the file system on, otherwise as it was given. -/
def fromRoot (fs : FileSystem) (path : String) : String :=
  if Location.isAbsolutePath path then path else fs.workingDirectory ++ "/" ++ path

/-- Reads a file. -/
def read (fs : FileSystem) (path : String) : Except FileError String :=
  let full := Location.absolute fs.workingDirectory path
  match if path = "" then some .missing else fs.faultAbove (fs.fromRoot path) with
  | some fault => .error ⟨"open", path, fault⟩
  | none =>
    match fs.file? full with
    | some text =>
      if path.toList.getLast? = some '/' then .error ⟨"open", path, .notDirectory⟩ else .ok text
    | none =>
      if fs.isDirectory full then .error ⟨"read", path, .isDirectory⟩
      else .error ⟨"open", path, .missing⟩

/-- Makes a directory and those above it. -/
def makeDirectory (fs : FileSystem) (path : String) : Except FileError FileSystem :=
  let full := Location.absolute fs.workingDirectory path
  match (above full ++ [full]).find? fun d => (fs.file? d).isSome with
  | some blocked => .error ⟨"mkdir", blocked, .notDirectory⟩
  | none => .ok { fs with directories := full :: above full ++ fs.directories }

/-- Writes a file, which may exist. -/
def write (fs : FileSystem) (path text : String) : Except FileError FileSystem :=
  let full := Location.absolute fs.workingDirectory path
  match fs.faultAbove full with
  | some fault => .error ⟨"open", path, fault⟩
  | none =>
    if fs.isDirectory full then .error ⟨"open", path, .isDirectory⟩
    else .ok { fs with files := (full, text) :: fs.files.filter (·.1 ≠ full) }

/-- The files that have come or changed since `before`. -/
def changedSince (before after : FileSystem) : List (String × String) :=
  after.files.filter fun (path, text) => before.file? path ≠ some text

end FileSystem

end ApiTypes
