import CoChange.CommandLine.Basic
import CoChange.Text.Number

/-!
# Reading the command line

A value stands behind its option, as an argument of its own or behind an equals sign, or directly
behind the letter of the option. Letters of options without values can be put together. An argument
that starts with a dash is never the value of the option in front of it. No option may be given
twice, and nothing but options may be given.

The value of an option is looked at when the next option is: what is wrong with the next argument as
such comes first.
-/

namespace CoChange

/-- Why a command line is not understood, or what it asks for instead of a run. -/
inductive UsageError where
  | unknownArgument (argument : String)
  | missingValue (option : String)
  | badNumber (option value : String) (fault : Text.NumberFault)
  | unwantedValue (option value : String)
  | repeated (option : String)
  | helpWanted
  | versionWanted
  deriving DecidableEq, Repr

def UsageError.message : UsageError → String
  | unknownArgument argument => "unexpected argument '" ++ argument ++ "' found"
  | missingValue option => "a value is required for '--" ++ option ++ "' but none was supplied"
  | badNumber option value fault =>
    "invalid value '" ++ value ++ "' for '--" ++ option ++ "': " ++ fault.message
  | unwantedValue option value =>
    "unexpected value '" ++ value ++ "' for '--" ++ option ++ "' found; no more were expected"
  | repeated option => "the argument '--" ++ option ++ "' cannot be used multiple times"
  | helpWanted => "help"
  | versionWanted => "version"

namespace CommandLine

/-- A command line that is being read. -/
structure Reading where
  result : CommandLine
  /-- The names of the options given so far. -/
  given : List String
  /-- The last option that takes a value, and its value, if it has come. -/
  pending : Option (OptionSpec × Option String)
  /-- Whether two dashes have said that no more options follow. -/
  closed : Bool

namespace Reading

def start : Reading := ⟨defaults, [], none, false⟩

/-- Does what an option does, with its value if it takes one. -/
def apply (r : Reading) (o : OptionSpec) (value : String) : Except UsageError Reading := do
  match o.action with
  -- these two end the reading at once, even where an option is repeated
  | .help => throw .helpWanted
  | .version => throw .versionWanted
  | _ => pure ()
  if r.given.contains o.name then throw (.repeated o.name)
  let given (c : CommandLine) : Reading := { r with result := c, given := o.name :: r.given }
  match o.action with
  | .flag _ set => return given (set r.result)
  | .text _ set => return given (set value r.result)
  | .path _ set => if value.isEmpty then
      throw (.missingValue o.name) else return given (set value r.result)
  | .number _ set =>
    match Text.parseNumber value with
    | .ok n => return given (set n r.result)
    | .error fault => throw (.badNumber o.name value fault)
  | _ => return r

/-- Does what the last option does that takes a value. -/
def settle (r : Reading) : Except UsageError Reading :=
  match r.pending with
  | none => .ok r
  | some (o, none) => .error (.missingValue o.name)
  | some (o, some value) => { r with pending := none }.apply o value

/-- Adds an option, with its value if that stands in the same argument. -/
def add (r : Reading) (o : OptionSpec) (value : Option String) : Except UsageError Reading := do
  let r ← r.settle
  match o.action.takesValue, value with
  | true, none => return { r with pending := some (o, none) }
  | _, value => r.apply o (value.getD "")

/-- Adds options by their letters. -/
def addLetters (r : Reading) : List Char → Except UsageError Reading
  | [] => .ok r
  | c :: rest =>
    match optionLettered? c with
    | none => .error (.unknownArgument (String.ofList ['-', c]))
    | some o =>
      if o.action.takesValue then
        match rest with
        | [] => r.add o none
        | '=' :: value => r.add o (some (String.ofList value))
        | value => r.add o (some (String.ofList value))
      else do
        let r ← r.add o none
        addLetters r rest

/-- Adds an option by its name, which a value may follow behind an equals sign. -/
def addNamed (r : Reading) (argument : List Char) : Except UsageError Reading :=
  let (name, rest) := argument.span (· ≠ '=')
  let value := if rest.isEmpty then none else some (String.ofList (rest.drop 1))
  match optionNamed? (String.ofList name) with
  | none => .error (.unknownArgument (String.ofList ('-' :: '-' :: argument)))
  | some o =>
    match value with
    | some v => if o.action.takesValue then r.add o value else .error (.unwantedValue o.name v)
    | none => r.add o none

/-- Adds an argument that is no option: the value that is awaited. -/
def addValue (r : Reading) (argument : String) : Except UsageError Reading :=
  match r.pending with
  | some (o, none) => if r.closed then .error (.unknownArgument argument)
    else .ok { r with pending := some (o, some argument) }
  | _ => .error (.unknownArgument argument)

def step (r : Reading) (argument : String) : Except UsageError Reading :=
  if r.closed then r.addValue argument
  else
    match argument.toList with
    | ['-', '-'] => .ok { r with closed := true }
    | '-' :: '-' :: rest => r.addNamed rest
    | '-' :: c :: rest => r.addLetters (c :: rest)
    | _ => r.addValue argument

end Reading

def parse (arguments : List String) : Except UsageError CommandLine := do
  let r ← arguments.foldlM Reading.step Reading.start
  return (← r.settle).result

end CommandLine

end CoChange
