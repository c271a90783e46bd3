import CodePane.Cli.Run

/-!
# The program

Runs the command line on the files of the machine.
-/

namespace CodePane.Cli

/-- The files of the machine. The user's settings lie in the folder that the environment names for
settings, if it is an absolute name, else below the home folder. -/
def machine : FileSystem IO where
  create name := do
    try
      IO.FS.writeFile name ""
      return true
    catch _ => return false
  read name := do
    try
      return some (← IO.FS.readBinFile name).toList
    catch _ => return none
  settingsFile := do
    let folder ← match ← IO.getEnv "XDG_CONFIG_HOME" with
      | some folder => if folder.toList.head? = some '/' then pure (some folder) else pure none
      | none => pure none
    let folder ← match folder with
      | some folder => pure (some folder)
      | none => return (← IO.getEnv "HOME").map fun home => home ++ "/.config/srcview/config.json"
    return folder.map (· ++ "/srcview/config.json")

end CodePane.Cli

/-- Writes the report or the failure, and ends with its exit code. -/
def main (arguments : List String) : IO UInt32 := do
  match ← (CodePane.Cli.run CodePane.Cli.machine arguments).run with
  | .ok output =>
    IO.print output
    return 0
  | .error failure =>
    IO.eprintln failure.message
    return failure.code
