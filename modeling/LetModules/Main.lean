import LetModules.CommandLine.Run

/-!
The command line. The files of the working directory are named on standard input, one path a line; a
path that ends in `/` names a directory. Only these files are read.
-/

namespace LetModules

/-- The lines of a stream, without their ends. -/
partial def readLines (stream : IO.FS.Stream) : IO (List String) := do
  let line ← stream.getLine
  if line.isEmpty then return []
  let rest ← readLines stream
  return String.ofList (line.toList.filter (· ≠ '\n')) :: rest

/-- A file with its text, if it has one. -/
def readEntry (path : String) : IO (String × Option String) := do
  if path.toList.getLast? = some '/' then return (path, none)
  return (path, String.fromUTF8? (← IO.FS.readBinFile path))

/-- The named files and directories as they can be looked up. -/
def readDisk : IO Disk := do
  let paths ← readLines (← IO.getStdin)
  return Entry.find? (Entry.ofFiles (← paths.mapM readEntry))

end LetModules

open LetModules in
/-- Runs a command and prints what comes of it. -/
def main (arguments : List String) : IO UInt32 := do
  let outcome ←
    match CommandLine.Command.ofArguments arguments with
    | .error refusal => pure refusal.outcome
    | .ok command => do pure (command.run (← readDisk))
  (← IO.getStdout).putStr outcome.stdout
  (← IO.getStderr).putStr outcome.stderr
  return UInt32.ofNat outcome.exit
