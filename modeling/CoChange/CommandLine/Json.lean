import CoChange.CommandLine.Basic
import CoChange.Json.Basic

/-!
# Command lines as JSON
-/

namespace CoChange.CommandLine

open Json (Value)

/-- What a command line says about an option, if it is one that says something. -/
def Action.value? (c : CommandLine) : Action → Option Value
  | flag get _ => some (.bool (get c))
  | text get _ | path get _ => some (.ofOption .string (get c))
  | number get _ => some (.ofOption .nat (get c))
  | help | version => none

/-- The name of an option as a key. -/
def OptionSpec.key (o : OptionSpec) : String :=
  String.ofList (o.name.toList.map fun c => if c = '-' then '_' else c)

def toJson (c : CommandLine) : Value :=
  .object (options.filterMap fun o => (o.action.value? c).map (o.key, ·))

end CoChange.CommandLine
