/-!
# Units of code

What is counted: a unit is a function, a method or another piece of a source file that a query has
picked and named. Its key joins its three parts and is what units are stored under.
-/

namespace CoChange

/-- A named piece of a source file. -/
structure CodeUnit where
  kind : String
  name : String
  file : String
  deriving DecidableEq, Repr, Inhabited

namespace CodeUnit

/-- What the unit is stored under. Underscores inside the parts are not set apart from those between
them, so two units can have one key. -/
def key (u : CodeUnit) : String := u.kind ++ "_" ++ u.name ++ "_" ++ u.file

def relocated (u : CodeUnit) (file : String) : CodeUnit := { u with file }

/-- The unit as it is shown to a reader. -/
def display (u : CodeUnit) : String := u.kind ++ " " ++ u.name ++ " (" ++ u.file ++ ")"

/-- Whether a unit comes before another one, by kind, then name, then file. -/
def precedes (u v : CodeUnit) : Bool :=
  u.kind < v.kind
    || u.kind == v.kind && (u.name < v.name || u.name == v.name && u.file < v.file)

@[simp] theorem relocated_file (u : CodeUnit) (file : String) :
    (u.relocated file).file = file := rfl

@[simp] theorem relocated_self (u : CodeUnit) : u.relocated u.file = u := rfl

@[simp] theorem relocated_relocated (u : CodeUnit) (f g : String) :
    (u.relocated f).relocated g = u.relocated g := rfl

end CodeUnit

end CoChange
