import ApiTypes.CommandLine.Run

/-!
The program on a real file system. The files below the working directory, and those that arguments
name, are read first; what has changed in the end is written back.
-/

namespace ApiTypes.CommandLine

/-- The text of a file, unless there is none. -/
def readText? (path : String) : IO (Option String) := do
  try
    let bytes ← IO.FS.readBinFile path
    return some (Text.ofBytes (bytes.toList.map UInt8.toNat))
  catch _ => return none

/-- The files at some paths, as far as they can be read. -/
def readTexts (paths : List String) : IO (List (String × String)) :=
  paths.filterMapM fun path => do
    return (← readText? path).map fun text => (path, text)

/-- The paths that arguments may name: whole arguments, and what follows an equals sign. -/
def namedPaths (arguments : List String) : List String :=
  arguments.flatMap fun argument => argument :: ((Text.split '=' argument).drop 1)

/-- The file system that the program works on. Hidden directories are left out. -/
def gather (arguments : List String) : IO FileSystem := do
  let here ← IO.currentDir
  let below ← here.walkDir fun directory =>
    return !Text.startsWith "." (Location.base directory.toString)
  let files ← readTexts (below.toList.map (·.toString) ++ namedPaths arguments)
  return FileSystem.ofFiles here.toString files

/-- The variables of the environment that count. -/
def settings : IO Environment :=
  ["TYPEGEN_SPEC", "TYPEGEN_CONCURRENCY", "TYPEGEN_SILENT", "TYPEGEN_ALPHABETIZE"].filterMapM
    fun name => do return (← IO.getEnv name).map (name, ·)

/-- Runs the program; the result is its exit code. -/
def runOnFiles (arguments : List String) : IO UInt32 := do
  let before ← gather arguments
  let (result, after) := (run (← settings) arguments).run.run before
  for (path, text) in before.changedSince after do
    IO.FS.createDirAll (Location.directory path)
    let bytes := text.toList.flatMap Text.bytesOf
    IO.FS.writeBinFile path ⟨(bytes.map UInt8.ofNat).toArray⟩
  match result with
  | .ok text =>
    IO.print (Text.toPlain text)
    return 0
  | .error e =>
    IO.eprintln ("Error: " ++ Text.toPlain e.message)
    return 1

end ApiTypes.CommandLine

def main (arguments : List String) : IO UInt32 :=
  ApiTypes.CommandLine.runOnFiles arguments
