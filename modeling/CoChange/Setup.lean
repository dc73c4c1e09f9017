import CoChange.CommandLine.Basic
import CoChange.Logging.Config
import CoChange.Settings.Basic

/-!
# Setting up a run

The command line and the settings together say how a run logs, what it analyses and how it reports.
What the command line says goes before what the settings say, which goes before the defaults.
-/

namespace CoChange

/-- Why logging cannot be set up. -/
inductive LoggingError where
  | format (fault : LogFormat.UnknownName)
  | level (fault : LogLevel.UnknownName)
  | levelWithoutFile
  deriving DecidableEq, Repr

def LoggingError.message : LoggingError → String
  | format fault => fault.message
  | level fault => fault.message
  | levelWithoutFile => "Log file level specified without log file"

/-- Why an analysis cannot be set up. -/
inductive AnalysisSetupError where
  | settings (e : AnalysisSettingsError)
  | memory (size : String) (fault : ByteSize.ParseError)
  | refused (fault : ConfigFault)
  deriving DecidableEq, Repr

def AnalysisSetupError.message : AnalysisSetupError → String
  | settings e => e.message
  | memory size fault => "Invalid --max-memory value: " ++ size ++ ": " ++ fault.message
  | refused fault => fault.refusal

/-- Why the format of the report is not known. -/
inductive FormatError where
  | argument (fault : OutputFormat.UnknownName)
  | setting (e : SettingError)
  deriving DecidableEq, Repr

def FormatError.message : FormatError → String
  | argument fault => fault.message
  | setting e => e.message

namespace CommandLine

/-- The settings with the section selected that the command line names. -/
def selectIn (c : CommandLine) (s : Settings) : Settings := c.configName.elim s s.select

/-! ### Logging -/

/-- The level of the console. A level in the settings that is not understood does not count. -/
def consoleLevel (c : CommandLine) (s : Settings) : LogLevel :=
  if c.debug then .trace
  else if c.verbose then .debug
  else if c.quiet then .error
  else
    match s.logLevel? Settings.baseSection "console-level" with
    | .ok (some level) => level
    | _ => .info

/-- The format of log lines. The settings are asked if the command line gives the default. -/
def logFormatIn (c : CommandLine) (s : Settings) : Except LogFormat.UnknownName LogFormat :=
  if c.logFormat ≠ defaultLogFormat then LogFormat.parse c.logFormat
  else
    match (s.get? Settings.baseSection "log-format").map LogFormat.parse with
    | some (.ok f) => .ok f
    | _ => .ok .text

/-- The level of the log file, if one is given. -/
def logFileLevelIn (c : CommandLine) (s : Settings) :
    Except LogLevel.UnknownName (Option LogLevel) :=
  match c.logFileLevel with
  | some name => some <$> LogLevel.parse name
  | none =>
    match s.logLevel? Settings.baseSection "file-log-level" with
    | .ok level => .ok level
    | .error _ => .ok none

/-- How a run logs. A level for a log file needs a log file. -/
def logging (c : CommandLine) (s : Settings) : Except LoggingError LogConfig := do
  let console := c.consoleLevel s
  let format ← (c.logFormatIn s).mapError .format
  let path := c.logFile.or (s.get? Settings.baseSection "log-file")
  let level ← (c.logFileLevelIn s).mapError .level
  match path, level with
  | some path, level => return ⟨console, some (level.getD console), format, .both path⟩
  | none, none => return ⟨console, none, format, .console⟩
  | none, some _ => throw .levelWithoutFile

/-! ### Analysis and report -/

/-- What an analysis is run with. The settings have to be sound even where the command line goes
before them. -/
def analysisConfig (c : CommandLine) (s : Settings) :
    Except AnalysisSetupError AnalysisConfig := do
  let base ← s.analysis.mapError .settings
  let memory ← match c.maxMemory with
    | some size => (ByteSize.parse size).mapError (.memory size)
    | none => pure base.maxMemoryBytes
  let config : AnalysisConfig := {
    structuralQuery := c.structuralQuery.getD base.structuralQuery
    nameQuery := c.nameQuery.getD base.nameQuery
    maxCouplingUnits := c.maxCouplingUnits.getD base.maxCouplingUnits
    shards := c.shards.getD base.shards
    chunkSize := c.chunkSize.getD base.chunkSize
    maxMemoryBytes := memory
    checkpointDir := c.checkpointDir.or base.checkpointDir }
  config.validate.mapError .refused
  return config

/-- The format of the report: text if nothing else is said. -/
def outputFormat (c : CommandLine) (s : Settings) : Except FormatError OutputFormat :=
  match c.format with
  | some name => (OutputFormat.parse name).mapError .argument
  | none =>
    match s.outputFormat? with
    | .ok f => .ok (f.getD .text)
    | .error e => .error (.setting e)

/-- Whether reports have colours: on a terminal, unless something speaks against it. -/
def hasColours (c : CommandLine) (s : Settings) (terminal : Bool) : Bool :=
  if c.noColour || c.output.isSome then false
  else
    match s.bool? Settings.analysisSection "color" with
    | .ok (some false) => false
    | _ => terminal

end CommandLine

end CoChange
