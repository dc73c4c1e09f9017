/-!
# The command line

What a user can ask for, and the options that say so.
-/

namespace CoChange

/-- What a user asks for. -/
structure CommandLine where
  repository : Option String
  verbose : Bool
  quiet : Bool
  debug : Bool
  logFormat : String
  logFile : Option String
  logFileLevel : Option String
  configFile : Option String
  configName : Option String
  structuralQuery : Option String
  nameQuery : Option String
  maxCouplingUnits : Option Nat
  limit : Option Nat
  shards : Option Nat
  chunkSize : Option Nat
  maxMemory : Option String
  checkpointDir : Option String
  resume : Bool
  format : Option String
  output : Option String
  raw : Bool
  top : Nat
  noColour : Bool
  input : Option String
  deriving DecidableEq, Repr

namespace CommandLine

/-- The rows of a section of a report, if nothing else is said. -/
def defaultTop : Nat := 10

/-- The format of log lines, if nothing else is said. -/
def defaultLogFormat : String := "text"

/-- What a user asks for who gives no options. -/
def defaults : CommandLine where
  repository := none
  verbose := false
  quiet := false
  debug := false
  logFormat := defaultLogFormat
  logFile := none
  logFileLevel := none
  configFile := none
  configName := none
  structuralQuery := none
  nameQuery := none
  maxCouplingUnits := none
  limit := none
  shards := none
  chunkSize := none
  maxMemory := none
  checkpointDir := none
  resume := false
  format := none
  output := none
  raw := false
  top := defaultTop
  noColour := false
  input := none

instance : Inhabited CommandLine := ⟨defaults⟩

/-- What an option does: where in a command line it stands, and how it is put there. -/
inductive Action where
  | flag (get : CommandLine → Bool) (set : CommandLine → CommandLine)
  | text (get : CommandLine → Option String) (set : String → CommandLine → CommandLine)
  /-- A path is not empty. -/
  | path (get : CommandLine → Option String) (set : String → CommandLine → CommandLine)
  | number (get : CommandLine → Option Nat) (set : Nat → CommandLine → CommandLine)
  | help
  | version

def Action.takesValue : Action → Bool
  | text _ _ | path _ _ | number _ _ => true
  | flag _ _ | help | version => false

/-- An option: its name behind two dashes, other such names, its letter behind one dash, and what it
does. -/
structure OptionSpec where
  name : String
  aliases : List String
  letter : Option Char
  action : Action

def options : List OptionSpec :=
  [⟨"repo", ["repository"], some 'r', .text (·.repository) fun v c =>
    { c with repository := some v }⟩,
    ⟨"verbose", [], some 'v', .flag (·.verbose) fun c => { c with verbose := true }⟩,
    ⟨"quiet", [], some 'q', .flag (·.quiet) fun c => { c with quiet := true }⟩,
    ⟨"debug", [], none, .flag (·.debug) fun c => { c with debug := true }⟩,
    ⟨"log-format", [], none, .text (some ·.logFormat) fun v c => { c with logFormat := v }⟩,
    ⟨"log-file", [], none, .path (·.logFile) fun v c => { c with logFile := some v }⟩,
    ⟨"log-file-level", [], none, .text (·.logFileLevel) fun v c =>
      { c with logFileLevel := some v }⟩,
    ⟨"config-file", [], none, .path (·.configFile) fun v c => { c with configFile := some v }⟩,
    ⟨"config-name", [], none, .text (·.configName) fun v c => { c with configName := some v }⟩,
    ⟨"dsl-struct", [], none, .text (·.structuralQuery) fun v c =>
      { c with structuralQuery := some v }⟩,
    ⟨"dsl-name", [], none, .text (·.nameQuery) fun v c => { c with nameQuery := some v }⟩,
    ⟨"max-coupling-nodes", [], none, .number (·.maxCouplingUnits)
      fun v c => { c with maxCouplingUnits := some v }⟩,
    ⟨"limit", [], some 'L', .number (·.limit) fun v c => { c with limit := some v }⟩,
    ⟨"shards", [], none, .number (·.shards) fun v c => { c with shards := some v }⟩,
    ⟨"chunk-size", [], none, .number (·.chunkSize) fun v c => { c with chunkSize := some v }⟩,
    ⟨"max-memory", [], none, .text (·.maxMemory) fun v c => { c with maxMemory := some v }⟩,
    ⟨"checkpoint-dir", [], none, .path (·.checkpointDir) fun v c =>
      { c with checkpointDir := some v }⟩,
    ⟨"resume", [], none, .flag (·.resume) fun c => { c with resume := true }⟩,
    ⟨"format", [], some 'f', .text (·.format) fun v c => { c with format := some v }⟩,
    ⟨"output", [], some 'o', .path (·.output) fun v c => { c with output := some v }⟩,
    ⟨"raw", [], none, .flag (·.raw) fun c => { c with raw := true }⟩,
    ⟨"top", [], none, .number (some ·.top) fun v c => { c with top := v }⟩,
    ⟨"no-color", [], none, .flag (·.noColour) fun c => { c with noColour := true }⟩,
    ⟨"input", [], none, .path (·.input) fun v c => { c with input := some v }⟩,
    ⟨"help", [], some 'h', .help⟩,
    ⟨"version", [], some 'V', .version⟩]

def optionNamed? (name : String) : Option OptionSpec :=
  options.find? fun o => o.name = name || o.aliases.contains name

def optionLettered? (letter : Char) : Option OptionSpec := options.find? (·.letter = some letter)

end CommandLine

end CoChange
