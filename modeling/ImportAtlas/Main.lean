import ImportAtlas.CommandLine.Perform

/-!
# The program

The program reads files until the request can be carried out on what it has read, and then does
what the report says.
-/

namespace ImportAtlas.CommandLine

/-- What is at a path, if anything is. -/
def readEntry (path : String) : IO (Option Entry) := do
  try
    let bytes ← IO.FS.readBinFile (Path.resolve path)
    pure (some (.file bytes.toList))
  catch
    | .noFileOrDirectory .. => pure none
    | _ => pure (some .folder)

/-- The tree of what has been read. -/
def knownTree (known : List (String × Option Entry)) : FileTree :=
  let folders := known.filterMap fun (path, entry?) =>
    match entry? with
    | some .folder => some (Path.absolute path)
    | _ => none
  let files := known.filterMap fun (path, entry?) =>
    match entry? with
    | some (.file bytes) => some (Path.absolute path, bytes)
    | _ => none
  FileTree.ofFiles folders files

/-- Carries out a request, reading what it asks for until it asks for nothing new. -/
partial def carryOut (request : Request) (home : String) (known : List (String × Option Entry)) :
    IO Report := do
  let report := request.perform (knownTree known) home
  let wanted := report.consulted.eraseDups.filter fun path => (known.lookup path).isNone
  if wanted.isEmpty then pure report
  else
    let more ← wanted.mapM fun path => do
      let entry? ← readEntry path
      pure (path, entry?)
    carryOut request home (known ++ more)

/-- Writes, prints and logs what a report says. -/
def deliver (report : Report) : IO UInt32 := do
  for (severity, text) in report.log do
    IO.eprintln ("[" ++ severity.word ++ "] " ++ text)
  match report.written? with
  | some (path, text) =>
    IO.FS.createDirAll (Path.parent path)
    IO.FS.writeFile path text
  | none => pure ()
  IO.print report.printed
  match report.exit with
  | .ok code => pure code.toUInt32
  | .error error =>
    IO.eprintln error.message
    pure 1

/-- Carries out the request that arguments make, in the current directory. -/
def execute (args : List String) : IO UInt32 := do
  let directory ← IO.currentDir
  let home ← IO.getEnv "HOME"
  let request := (Request.ofArgs args).inDirectory directory.toString
  let report ← carryOut request (home.getD "/") []
  deliver report

end ImportAtlas.CommandLine

/-- Runs the program. -/
def main (args : List String) : IO UInt32 := ImportAtlas.CommandLine.execute args
