import CoChange.Analysis
import CoChange.Report.Saved
import CoChange.Setup

/-!
# The program

Makes the report that a command line asks for: on a repository, or from a saved report. What is
wrong is found in the order in which it is needed: the format, what is reported on, how it is
analysed.

* `Program.locate`: the repository that a command line names.
* `Program.report`: the written report.
-/

namespace CoChange

/-- Why no repository is found. -/
inductive LocateError where
  | missing (path : String)
  | notARepository (path : String)
  /-- No path is given, and the working directory is none. -/
  | notInside (workingDirectory : String)
  deriving DecidableEq, Repr

def LocateError.message : LocateError → String
  | missing path => "Path does not exist: " ++ path
  | notARepository path => path ++ " is not a git repository"
  | notInside dir => dir ++ " is not a git repository; run from inside one or pass --repo"

/-- Why there is no report. -/
inductive ProgramError where
  | format (e : FormatError)
  | unreadable (path : String) (fault : FileFault)
  | undecodable (path : String) (e : EngineError)
  | locate (e : LocateError)
  | setup (e : AnalysisSetupError)
  | analysis (e : AnalysisError)
  | unwritable (path : String) (fault : FileFault)
  deriving DecidableEq, Repr

def ProgramError.message : ProgramError → String
  | format e => e.message
  | unreadable path fault => "Failed to read report: " ++ path ++ ": " ++ fault.message
  | undecodable path e => "Failed to decode report: " ++ path ++ ": " ++ e.fullMessage
  | locate e => e.message
  | setup e => e.message
  | analysis e => e.message
  | unwritable path fault => "Failed to write report: " ++ path ++ ": " ++ fault.message

namespace Program

/-- What a run of the program finds. -/
structure Surroundings extends Analysis.Setting where
  repositories : Repositories
  workingDirectory : String
  /-- Whether the report goes to a terminal if it does not go to a file. -/
  terminal : Bool

/-- The repository that is named, by its canonical path: the one at the path or in the directory
that holds its administrative files. -/
def locate (s : Surroundings) (path? : Option String) : Except LocateError String :=
  let found? (path : String) : Option String :=
    let path := FilePath.canonical path
    let outer := if FilePath.fileName path = ".git" then FilePath.parent path else path
    if s.repositories.contains outer then some outer else none
  match path? with
  | some path =>
    match found? path with
    | some p => .ok p
    | none => .error (if s.files.exists_ (FilePath.canonical path) then
        .notARepository path else .missing path)
  | none =>
    match found? s.workingDirectory with
    | some p => .ok p
    | none => .error (.notInside s.workingDirectory)

/-- How a report in text form looks: colours are for terminals. -/
def textOptions (c : CommandLine) (settings : Settings) (s : Surroundings) (format : OutputFormat) :
    Report.TextOptions :=
  ⟨c.top, format = .text && c.hasColours settings s.terminal⟩

/-- A saved report, written anew. -/
def rerender (path : String) (format : OutputFormat) (options : Report.TextOptions)
    (files : FileSystem) :
    Except ProgramError Report.Written := do
  let bytes ← (files.read path).mapError (.unreadable path)
  let saved ← (Report.Saved.parse bytes).mapError (.undecodable path)
  return saved.render format options

/-- The report on the repository that a command line names. -/
def analyse (c : CommandLine) (settings : Settings) (s : Surroundings) (format : OutputFormat) :
    FileSystem × Except ProgramError Report.Written :=
  match (locate s c.repository).mapError .locate, (c.analysisConfig settings).mapError .setup with
  | .error e, _ => (s.files, .error e)
  | _, .error e => (s.files, .error e)
  | .ok path, .ok config =>
    let (files, outcome) :=
      Analysis.run s.repositories path config ⟨c.limit, c.resume⟩ false s.toSetting
    (files, (outcome.mapError .analysis).map fun report =>
      if c.raw then .text (report.document.render format)
      else Report.render format (textOptions c settings s format) report.metrics)

def report (c : CommandLine) (settings : Settings) (s : Surroundings) :
    FileSystem × Except ProgramError Report.Written :=
  match (c.outputFormat settings).mapError .format with
  | .error e => (s.files, .error e)
  | .ok format =>
    match c.input with
    | some path => (s.files, rerender path format (textOptions c settings s format) s.files)
    | none => analyse c settings s format

end Program

end CoChange
