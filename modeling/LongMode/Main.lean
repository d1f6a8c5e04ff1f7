import LongMode.CommandLine.Program
/-!
The command line program on a real file system: the files that the arguments name are read before it
starts, and those that it made or changed are written when it is done.
-/

namespace LongMode.CommandLine

def Command.files : Command → List String
  | run file _ _ _ _ load save => file :: (load.toList ++ save.toList)
  | disasm file _ => [file]
  | test files => files
  | configShow => []
  | configSave => []

def Request.files (defaultFile : String) (r : Request) : List String :=
  r.config.getD defaultFile :: (r.logFile.toList ++ r.command.files)

def look (name : String) : IO (Option Entry) := do
  try
    let bytes ← IO.FS.readBinFile name
    return some (.file bytes.toList)
  catch _ =>
    try
      let real ← IO.FS.realPath name
      return if ← real.isDir then some .directory else none
    catch _ => return none

/-- The places on the way of a path, each with a text that leads there. -/
def Path.stations (path : Path) : List (Place × String) :=
  let lead := if path.start = .here then "" else "/"
  (List.range (path.names.length + 1)).drop 1 |>.map fun n =>
    let names := path.names.take n
    (names.foldl Place.enter path.start, lead ++ "/".intercalate names)

def gather (names : List String) : IO Files := do
  let mut entries : List (Place × Entry) := []
  for (p, text) in names.flatMap fun name => (Path.ofText name).stations do
    match ← look text with
    | some entry => entries := (p, entry) :: entries
    | none => pure ()
  return ⟨entries⟩

def scatter (names : List String) (before after : Files) : IO Unit := do
  for name in names do
    let p := (Path.ofText name).place
    match after.entries.lookup p with
    | some (.file bytes) =>
      if before.entries.lookup p != some (.file bytes) then
        IO.FS.writeBinFile name bytes.toByteArray
    | _ => pure ()

end LongMode.CommandLine

open LongMode.CommandLine in
def main (args : List String) : IO UInt32 := do
  let home := ((LongMode.Text.pieces (· == '/') (← IO.appPath).toString.toList).map String.ofList).dropLast
  let defaultFile := "/".intercalate (home ++ ["x64emu.json"])
  let names := match Request.ofArguments args with
    | .ok r => r.files defaultFile
    | .error _ => []
  let files ← gather names
  let o := outcome defaultFile args files
  IO.print o.output
  IO.eprint o.messages
  scatter names files o.files
  return UInt32.ofNat o.exit
