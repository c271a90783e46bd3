import CodePane.Cli.Files
import CodePane.Cli.Report
import CodePane.Settings.Reader

/-!
# A run of the program

1. `Failure`: why a run stops, and its wording.
2. `settingsOf`, `view`: the settings and the report of a request.
3. `run`: a run from its arguments to its outcome.
-/

namespace CodePane.Cli

/-- Why a run stops without a report. -/
inductive Failure where
  | arguments (e : ArgumentError)
  | logFile
  | settings (name : String)
  | file (name : String)

namespace Failure

def message : Failure → String
  | .arguments e => "error: " ++ e.message
  | .logFile => "Error: Failed to open log file"
  | .settings name => "Error: Failed to load config from " ++ name
  | .file name => "Error: Failed to read " ++ name

def code : Failure → UInt32
  | .arguments _ => 2
  | _ => 1

end Failure

variable {m : Type → Type} [Monad m]

/-- The user's own settings. Without a file, and with one that is not valid, these are the
defaults. -/
def defaultSettings (fs : FileSystem m) : m Settings := do
  match ← fs.settingsFile with
  | none => return {}
  | some file =>
    match Settings.read (← fs.read file) with
    | .ok s => return s
    | .error _ => return {}

/-- The settings of a request: those of the file it names, which must be valid, else the user's
own. -/
def settingsOf (fs : FileSystem m) (r : Request) : ExceptT Failure m Settings := do
  match r.settings with
  | none => ExceptT.lift (defaultSettings fs)
  | some file =>
    match Settings.read (← fs.read file) with
    | .ok s => return s
    | .error _ => throw (.settings file)

/-- The report of a request. The log file comes first, then the settings, then the file. -/
def view (fs : FileSystem m) (r : Request) : ExceptT Failure m String := do
  if let some log := r.logFile then
    unless ← fs.create log do throw .logFile
  let s ← settingsOf fs r
  match ← fs.read r.file with
  | some text => return report r s text
  | none => throw (.file r.file)

/-- The answer to a question for the version. -/
def versionLine : String := "srcview 0.1.0\n"

/-- What a run writes, or why it fails. -/
def run (fs : FileSystem m) (arguments : List String) : ExceptT Failure m String := do
  match parse arguments with
  | .error e => throw (.arguments e)
  | .ok .version => return versionLine
  | .ok (.view r) => view fs r

end CodePane.Cli
