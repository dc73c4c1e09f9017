import CoChange.AnalysisConfig
import CoChange.ByteSize
import CoChange.FileSystem
import CoChange.Logging.Level
import CoChange.OutputFormat
import CoChange.Text.Number

/-!
# Settings

Settings are texts under keys, in named sections. A look-up goes first to the section that was
selected, if any, then to the section asked for, and last to the section `base`.
-/

namespace CoChange

/-- The sections of a configuration file. -/
abbrev Sections := SortedMap String (SortedMap String String)

structure Settings where
  sections : Sections
  /-- The file that the settings come from. -/
  file : Option String
  /-- The section that goes before all others. -/
  selected : Option String
  deriving Inhabited

/-- Why a setting is not understood. -/
inductive SettingFault where
  | number (fault : Text.NumberFault)
  | boolean
  | logLevel (fault : LogLevel.UnknownName)
  | format (fault : OutputFormat.UnknownName)
  | memory (fault : ByteSize.ParseError)
  deriving DecidableEq, Repr

/-- A setting that is not understood. -/
structure SettingError where
  sectionName : String
  key : String
  raw : String
  fault : SettingFault
  deriving DecidableEq, Repr

def SettingError.message (e : SettingError) : String :=
  let place := e.sectionName ++ "." ++ e.key
  let invalid (cause : String) := "Invalid value for " ++ place ++ " (" ++ e.raw ++ "): " ++ cause
  match e.fault with
  | .number fault => invalid fault.message
  | .format fault => invalid fault.message
  | .boolean => "Invalid boolean value for " ++ place ++ ": " ++ e.raw
  | .logLevel fault => fault.message
  | .memory fault => "Invalid max-memory value in config: " ++ e.raw ++ ": " ++ fault.message

/-- Why no analysis can be run with some settings. -/
inductive AnalysisSettingsError where
  | setting (e : SettingError)
  | refused (fault : ConfigFault)
  deriving DecidableEq, Repr

/-- The refusal of settings, in words. -/
def ConfigFault.refusal (fault : ConfigFault) : String :=
  "Shotness configuration validation failed: " ++ fault.message

def AnalysisSettingsError.message : AnalysisSettingsError → String
  | setting e => e.message
  | refused fault => fault.refusal

namespace Settings

/-- Settings of some sections. -/
def ofSections (sections : Sections) : Settings := ⟨sections, none, none⟩

/-- Gives a section precedence. -/
def select (s : Settings) (name : String) : Settings := { s with selected := some name }

/-- The section that all look-ups end with. -/
def baseSection : String := "base"

def analysisSection : String := "shotness"

/-- The sections that a look-up goes through. -/
def searched (s : Settings) (name : String) : List String :=
  s.selected.toList ++ [name, baseSection]

/-- The text of a setting: that of the first section searched that has the key. -/
def get? (s : Settings) (name key : String) : Option String :=
  (s.searched name).findSome? fun n => (s.sections.get? n).bind (·.get? key)

/-- A setting as something else than a text. -/
def read (s : Settings) (name key : String) (parse : String → Except SettingFault α) :
    Except SettingError (Option α) :=
  match s.get? name key with
  | none => .ok none
  | some raw =>
    match parse raw with
    | .ok a => .ok (some a)
    | .error fault => .error ⟨name, key, raw, fault⟩

/-- The words for yes and no. -/
def truthWords : List (String × Bool) :=
  [("true", true), ("yes", true), ("on", true), ("false", false), ("no", false), ("off", false)]

def bool? (s : Settings) (name key : String) : Except SettingError (Option Bool) :=
  s.read name key fun raw =>
    match truthWords.find? (fun word => Text.eqIgnoreAsciiCase raw word.1) with
    | some (_, b) => .ok b
    | none => .error .boolean

def number? (s : Settings) (name key : String) : Except SettingError (Option Nat) :=
  s.read name key fun raw => (Text.parseNumber raw).mapError .number

def logLevel? (s : Settings) (name key : String) : Except SettingError (Option LogLevel) :=
  s.read name key fun raw => (LogLevel.parse raw).mapError .logLevel

def outputFormat? (s : Settings) : Except SettingError (Option OutputFormat) :=
  s.read analysisSection "format" fun raw => (OutputFormat.parse raw).mapError .format

/-- The settings of the analysis, before they are checked. -/
def analysisFields (s : Settings) : Except SettingError AnalysisConfig := do
  let d := AnalysisConfig.defaults
  let text key := s.get? analysisSection key
  let memory ← s.read analysisSection "max-memory" fun raw => (ByteSize.parse raw).mapError .memory
  let couplings ← s.number? analysisSection "max-coupling-nodes"
  let shards ← s.number? analysisSection "shards"
  let chunk ← s.number? analysisSection "chunk-size"
  return {
    structuralQuery := (text "dsl-struct").getD d.structuralQuery
    nameQuery := (text "dsl-name").getD d.nameQuery
    maxCouplingUnits := couplings.getD d.maxCouplingUnits
    shards := shards.getD d.shards
    chunkSize := chunk.getD d.chunkSize
    maxMemoryBytes := memory.getD d.maxMemoryBytes
    checkpointDir := (text "checkpoint-dir").or d.checkpointDir }

def analysis (s : Settings) : Except AnalysisSettingsError AnalysisConfig := do
  let c ← s.analysisFields.mapError .setting
  c.validate.mapError .refused
  return c

end Settings

end CoChange
