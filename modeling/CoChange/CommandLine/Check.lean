import CoChange.ByteSize
import CoChange.CommandLine.Basic
import CoChange.Logging.Level
import CoChange.OutputFormat

/-!
# Checking the command line

Values that are not understood and combinations that make no sense are refused before anything is
done.
-/

namespace CoChange

/-- Why a command line is refused. -/
inductive ArgumentFault where
  | severalLevels
  | logFormat (fault : LogFormat.UnknownName)
  | levelWithoutFile
  | logFileLevel (fault : LogLevel.UnknownName)
  | format (fault : OutputFormat.UnknownName)
  | memory (size : String) (fault : ByteSize.ParseError)
  | noShards
  | noChunkSize
  | resumeWithShards
  | inputWithRepository
  | rawWithInput
  deriving DecidableEq, Repr

def ArgumentFault.message : ArgumentFault → String
  | severalLevels => "Only one of --verbose, --quiet and --debug may be given"
  | logFormat fault => fault.message
  | levelWithoutFile => "--log-file-level needs a --log-file to apply to"
  | logFileLevel fault => "Invalid --log-file-level: " ++ fault.message
  | format fault => fault.message
  | memory size fault => "Invalid --max-memory value '" ++ size ++ "': " ++ fault.message
  | noShards => "--shards must be greater than zero"
  | noChunkSize => "--chunk-size must be greater than zero"
  | resumeWithShards => "--resume cannot be combined with --shards greater than 1"
  | inputWithRepository =>
    "--input re-renders a saved report and cannot be combined with --repo or --resume"
  | rawWithInput => "--raw cannot be combined with --input"

namespace CommandLine

/-- Refuses a command line unless a condition holds. -/
def require (holds : Bool) (fault : ArgumentFault) : Except ArgumentFault Unit :=
  if holds then .ok () else .error fault

/-- Refuses a value that is there but not understood. -/
def requireParsed (value : Option String) (parse : String → Except ε α)
    (fault : ε → ArgumentFault) :
    Except ArgumentFault Unit :=
  match value.map parse with
  | some (.error e) => .error (fault e)
  | _ => .ok ()

/-- Checks a command line; of several faults the first one counts. -/
def check (c : CommandLine) : Except ArgumentFault Unit := do
  require ([c.verbose, c.quiet, c.debug].count true ≤ 1) .severalLevels
  requireParsed (some c.logFormat) LogFormat.parse .logFormat
  require (c.logFileLevel.isNone || c.logFile.isSome) .levelWithoutFile
  requireParsed c.logFileLevel LogLevel.parse .logFileLevel
  requireParsed c.format OutputFormat.parse .format
  if let some size := c.maxMemory then
    requireParsed (some size) ByteSize.parse (.memory size)
  require (c.shards ≠ some 0) .noShards
  require (c.chunkSize ≠ some 0) .noChunkSize
  require (!(c.resume && c.shards.any (1 < ·))) .resumeWithShards
  require (!(c.input.isSome && (c.resume || c.repository.isSome))) .inputWithRepository
  require (!(c.raw && c.input.isSome)) .rawWithInput

end CommandLine

end CoChange
