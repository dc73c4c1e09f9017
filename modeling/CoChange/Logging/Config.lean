import CoChange.FileSystem
import CoChange.Json.Printer
import CoChange.Logging.Level

/-!
# Logging

Log lines go to the console, to a file, or to both, each up to a level of its own. A line is a text
or a JSON document; the latter names the part of the program that wrote it only where details are
logged.
-/

namespace CoChange

/-- Where log lines go. -/
inductive LogDestination where
  | console
  | file (path : String)
  | both (path : String)
  deriving DecidableEq, Repr, Inhabited

/-- The file that log lines go to. -/
def LogDestination.path? : LogDestination → Option String
  | console => none
  | file path | both path => some path

/-- Whether log lines go to the console. -/
def LogDestination.hasConsole : LogDestination → Bool
  | console | both _ => true
  | file _ => false

structure LogConfig where
  consoleLevel : LogLevel
  /-- The level of the file; that of the console if nothing is said. -/
  fileLevel : Option LogLevel
  format : LogFormat
  destination : LogDestination
  deriving DecidableEq, Repr, Inhabited

/-- A log line to be written. -/
structure LogRecord where
  level : LogLevel
  /-- The part of the program that says it. -/
  target : String
  message : String
  deriving DecidableEq, Repr, Inhabited

namespace LogConfig

/-- The level up to which lines go to the file, if there is one. -/
def fileLimit (c : LogConfig) : Option LogLevel :=
  c.destination.path?.map fun _ => c.fileLevel.getD c.consoleLevel

/-- The level up to which lines go to the console, if they do. -/
def consoleLimit (c : LogConfig) : Option LogLevel :=
  if c.destination.hasConsole then some c.consoleLevel else none

/-- The most talkative level. -/
def maxLevel (c : LogConfig) : LogLevel :=
  match c.fileLimit with
  | some level => level.max c.consoleLevel
  | none => c.consoleLevel

/-- Whether a line of a level goes to the file. -/
def reachesFile (c : LogConfig) (level : LogLevel) : Bool := c.fileLimit.any (·.admits level)

/-- Whether a line of a level goes to the console. -/
def reachesConsole (c : LogConfig) (level : LogLevel) : Bool := c.consoleLimit.any (·.admits level)

/-- Whether a line of a level goes anywhere. -/
def isEnabled (c : LogConfig) (level : LogLevel) : Bool :=
  c.reachesConsole level || c.reachesFile level

end LogConfig

/-- Writes a record as a line without its end. -/
def LogRecord.render (format : LogFormat) (time : String) (r : LogRecord) : String :=
  match format with
  | .text => time ++ " [" ++ r.level.name ++ "] " ++ r.message
  | .json =>
    (Json.Value.object <|
      [("timestamp", .string time), ("level", .string r.level.name), ("message", .string r.message)]
        ++ if LogLevel.debug.rank ≤ r.level.rank then
          [("target", .string r.target)] else []).compact

/-- What some records add to the log file; all of them are written at the given time. -/
def LogConfig.fileText (c : LogConfig) (time : String) (records : List LogRecord) : String :=
  String.join ((records.filter (c.reachesFile ·.level)).map fun r => r.render c.format time ++ "\n")

/-- A log file that cannot be opened. -/
structure LogFileError where
  path : String
  fault : FileFault
  deriving DecidableEq, Repr

def LogFileError.message (e : LogFileError) : String :=
  "Failed to open log file: " ++ e.path ++ ": " ++ e.fault.message

end CoChange
