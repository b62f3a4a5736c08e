import DomainCodegen.CommandLine.Run

/-!
# The program

Loads what a command can touch from the machine, runs the command on it, and writes back what the
command changed.
-/

namespace DomainCodegen.Program

def placeText (place : Location) : String := "/" ++ "/".intercalate place

/-- What is at a place, and below it if that is asked for. -/
partial def load (deep : Bool) (place : Location) : IO (List (Location × Disk.Entry)) := do
  try
    let path ← IO.FS.realPath (placeText place)
    if ← path.isDir then
      let inside ← if deep then path.readDir else pure #[]
      let parts ← inside.toList.mapM fun entry => load deep (place ++ [entry.fileName])
      return (place, .directory) :: parts.flatten
    else
      let bytes ← IO.FS.readBinFile (placeText place)
      return [(place, .file bytes.toList)]
  catch _ => return []

/-- The places that lead to a place. -/
def above (place : Location) : List Location := (List.range place.length).map fun n => place.take n

def placeOf (home : Path) (value : String) : Location := (Path.normal home (.ofString value)).names

/-- The arguments that can be paths. -/
def values (arguments : List String) : List String :=
  match CommandLine.readArguments arguments with
  | .error _ => []
  | .ok (given, rest) => (CommandLine.parametersOf given).map Prod.snd ++ rest

/-- The output directory that arguments name. -/
def outputValue (arguments : List String) : String :=
  match CommandLine.readArguments arguments with
  | .error _ => "."
  | .ok (given, _) => ((CommandLine.parametersOf given).lookup .outputDir).getD "."

def loadDisk (arguments : List String) : IO Disk := do
  let home := Path.ofString (← IO.currentDir).toString
  let output := placeOf home (outputValue arguments)
  let named := home.names :: (values arguments).map (placeOf home)
  let around := ((named ++ above output ++ named.flatMap above).eraseDups).filter (· ≠ [])
  let single ← around.mapM (load false)
  let below ← load true output
  let entries := single.flatten.filter fun entry => (below.lookup entry.1).isNone
  return { home := home.names, entries := entries ++ below }

/-- The characters that a command can meet: those of its arguments and of the files. -/
def characters (arguments : List String) (disk : Disk) : List Char :=
  arguments.flatMap String.toList ++ disk.entries.flatMap fun
    | (_, .file bytes) => (Text.Utf8.decode bytes).toOption.getD []
    | (_, .directory) => []

/-- Writes a changed entry; a file takes its place in one step. -/
def store (place : Location) : Disk.Entry → IO Unit
  | .directory => IO.FS.createDirAll (placeText place)
  | .file bytes => do
    let temporary := placeText place ++ ".tmp"
    IO.FS.writeBinFile temporary (ByteArray.mk bytes.toArray)
    IO.FS.rename temporary (placeText place)

/-- Writes back what changed, directories before what is in them. -/
def storeChanges (before after : Disk) : IO Unit :=
  after.entries.reverse.forM fun (place, entry) => do
    if before.get? place ≠ some entry then store place entry

end DomainCodegen.Program

open DomainCodegen in
def main (arguments : List String) : IO UInt32 := do
  let before ← Program.loadDisk arguments
  let _ : Surrogates := ⟨.avoiding (Program.characters arguments before)⟩
  let outcome := CommandLine.run Text.standardCodecs arguments before
  Program.storeChanges before outcome.disk
  IO.print outcome.stdout
  IO.eprint outcome.stderr
  if let some escape := outcome.escape then IO.eprintln escape.message
  return UInt32.ofNat outcome.exitCode
