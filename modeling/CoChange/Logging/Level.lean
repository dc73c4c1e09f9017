import CoChange.Text.Blank
import CoChange.Text.Case

/-!
# Levels and formats of log lines
-/

namespace CoChange

/-- How much is logged, from nothing to everything; also how important a single line is. -/
inductive LogLevel where
  | off
  | error
  | warn
  | info
  | debug
  | trace
  deriving DecidableEq, Repr, Inhabited

namespace LogLevel

/-- The place of a level in the order. -/
def rank : LogLevel → Nat
  | off => 0
  | error => 1
  | warn => 2
  | info => 3
  | debug => 4
  | trace => 5

/-- Whether a line of level `line` is let through. -/
def admits (limit line : LogLevel) : Bool := line.rank ≤ limit.rank

def max (a b : LogLevel) : LogLevel := if a.rank < b.rank then b else a

def name : LogLevel → String
  | off => "OFF"
  | error => "ERROR"
  | warn => "WARN"
  | info => "INFO"
  | debug => "DEBUG"
  | trace => "TRACE"

/-- A text that names no level. -/
structure UnknownName where
  input : String
  deriving DecidableEq, Repr

def UnknownName.message (e : UnknownName) : String :=
  "Invalid log level '" ++ e.input ++ "'. Valid levels: error, warn, info, debug, trace, off"

/-- Reads a name, in capital or small letters and between blanks. -/
def parse (input : String) : Except UnknownName LogLevel :=
  match [off, error, warn, info, debug, trace].find? fun level =>
      Text.eqIgnoreAsciiCase (Text.trimString input) level.name with
  | some level => .ok level
  | none => .error ⟨input⟩

end LogLevel

inductive LogFormat where
  | text
  | json
  deriving DecidableEq, Repr, Inhabited

namespace LogFormat

/-- A text that names no format. -/
structure UnknownName where
  input : String
  deriving DecidableEq, Repr

def UnknownName.message (e : UnknownName) : String :=
  "Unknown log format '" ++ e.input ++ "'. Expected text or json"

def name : LogFormat → String
  | text => "text"
  | json => "json"

/-- Reads a name, in capital or small letters. -/
def parse (input : String) : Except UnknownName LogFormat :=
  match [text, json].find? fun f => Text.eqIgnoreAsciiCase input f.name with
  | some f => .ok f
  | none => .error ⟨input⟩

end LogFormat

end CoChange
