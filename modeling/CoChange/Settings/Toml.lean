import CoChange.Settings.Basic
import CoChange.Toml.Parser
import CoChange.Toml.Printer

/-!
# Settings from configuration files

A table of a configuration file is a section; inner tables have the names on the way to them, with
points in between. A table with inner tables is no section itself: what else stands in it becomes a
section of its own with the key `value`, and so does what stands outside of all tables.
-/

namespace CoChange

/-- A setting: its section, its key and its text. -/
structure Assignment where
  sectionName : String
  key : String
  text : String
  deriving DecidableEq, Repr

/-- The text of a value. -/
def Toml.Value.settingText : Toml.Value → String
  | .string s => s
  | .integer z => toString z
  | .float x => NumberStyle.plain.render x
  | .boolean b => if b then "true" else "false"
  | .datetime d => d.render
  | v => v.render

namespace Settings

/-- The key of a value that stands outside of all sections. -/
def looseKey : String := "value"

/-- The name of a part of the part with a name. -/
def partName (outer : Option String) (key : String) : String :=
  match outer with
  | none => key
  | some name => name ++ "." ++ key

/-- The settings of a section. -/
def sectionAssignments (name : String) (entries : Toml.Entries) : List Assignment :=
  entries.map fun (key, v) => ⟨name, key, v.settingText⟩

mutual

/-- The settings in what stands under a name. -/
def valueAssignments (name : String) : Toml.Value → List Assignment
  | .table entries =>
    if entries.any (·.2.isTable) then entryAssignments (some name) entries
    else sectionAssignments name entries
  | v => [⟨name, looseKey, v.settingText⟩]

/-- The settings in the entries of a table. -/
def entryAssignments (outer : Option String) : List (String × Toml.Value) → List Assignment
  | [] => []
  | (key, v) :: rest =>
    valueAssignments (partName outer key) v ++ entryAssignments outer rest

end

/-- The sections that some settings make; of several for one key the last stays. -/
def sectionsOf (assignments : List Assignment) : Sections :=
  assignments.foldl (fun m a =>
    m.insert a.sectionName ((m.getD a.sectionName ∅).insert a.key a.text)) ∅

def sectionsOfToml (entries : Toml.Entries) : Sections := sectionsOf (entryAssignments none entries)

/-- Why a configuration file is not loaded. -/
inductive LoadError where
  | unreadable (path : String) (fault : FileFault)
  | malformed (path : String) (fault : Toml.SyntaxError)
  deriving DecidableEq, Repr

/-- What could not be done, in words. -/
def LoadError.summary : LoadError → String
  | unreadable path _ => "Failed to read config file: " ++ path
  | malformed path _ => "Failed to parse config file: " ++ path

/-- What could not be done and why, in words. -/
def LoadError.message (e : LoadError) : String :=
  e.summary ++ ": " ++
    match e with
    | unreadable _ fault => fault.message
    | malformed _ fault => "Failed to parse TOML content: " ++ fault.message

/-- The settings in a file, given what reading it has brought. -/
def ofFile (path : String) (content : Except FileFault String) : Except LoadError Settings :=
  match content with
  | .error fault => .error (.unreadable path fault)
  | .ok text =>
    match Toml.parse text with
    | .error fault => .error (.malformed path fault)
    | .ok entries => .ok ⟨sectionsOfToml entries, some path, none⟩

end Settings

end CoChange
