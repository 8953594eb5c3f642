import Concord.Command.Answer

/-!
The program. It reads the files that a command names, prints the answer, and writes the file that
the answer comes with. A run without a number of passes is told to stop when the standard input
ends.
-/

namespace Concord

/-- The fault that an error of the system stands for. -/
def FileFault.ofSystem : IO.Error → FileFault
  | .noFileOrDirectory .. => .notFound
  | .inappropriateType _ 20 _ => .notDirectory
  | .inappropriateType _ 21 _ => .isDirectory
  | e => .other (toString e)

/-- Reads the files at some paths, whether they are there or not. -/
def readFiles (paths : List String) : IO FileReader := do
  let mut found : List (String × Except FileFault String) := []
  for path in paths do
    let text : Except FileFault String ←
      match Files.check path with
      | .error fault => pure (.error fault)
      | .ok _ =>
          try pure (.ok (← IO.FS.readFile path))
          catch e => pure (.error (.ofSystem e))
    found := (path, text) :: found
  let texts := found
  return fun path => (texts.lookup path).getD (.error .notFound)

/-- Writes the file at a path anew. -/
def writeText (path text : String) : IO (Except CommandError Unit) := do
  match Files.check path with
  | .error fault => return .error (.unwritable path fault)
  | .ok _ =>
      try
        IO.FS.writeFile path text
        return .ok ()
      catch e => return .error (.unwritable path (.ofSystem e))

/-- Waits until the standard input ends: the milliseconds that took. -/
def waitForEnd : IO Nat := do
  let start ← IO.monoMsNow
  let _ ← (← IO.getStdin).readToEnd
  return (← IO.monoMsNow) - start

/-- Does what a command asks for with the files that are there. -/
def perform (command : Command) (config : Option String) : IO (Except CommandError String) := do
  let read ← readFiles (command.paths ++ [config.getD Settings.defaultFile])
  match Settings.load read config with
  | .error e => return .error ((CommandError.ofDocument e).within "Failed to load configuration")
  | .ok settings =>
      let stop ← if command.isUnlimited then some <$> waitForEnd else pure none
      match command.answer settings read stop .epoch with
      | .error e => return .error e
      | .ok answer =>
          match answer.file with
          | none => return .ok answer.text
          | some (path, text) =>
              match ← writeText path text with
              | .error e => return .error e
              | .ok _ => return .ok answer.text

end Concord

/-- Runs the program with the arguments of its command line. -/
def main (arguments : List String) : IO UInt32 := do
  match Concord.Command.ofArguments arguments with
  | .error e =>
      if e.isQuestion then
        IO.println e.message
        return 0
      else
        IO.eprintln e.message
        return 2
  | .ok (command, config) =>
      match ← Concord.perform command config with
      | .error e =>
          IO.eprintln e.text
          return 1
      | .ok text =>
          IO.println text
          return 0
