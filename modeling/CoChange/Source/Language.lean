/-!
# Languages of sources

The language of a source is told from the extension of its path, in capital or small letters.
-/

namespace CoChange

/-- A language whose sources are read. -/
inductive Language where
  | rust
  | python
  | go
  deriving DecidableEq, Repr, Inhabited

namespace Language

def name : Language → String
  | rust => "rust"
  | python => "python"
  | go => "go"

def extensions : List (String × Language) :=
  [("rs", rust), ("py", python), ("pyi", python), ("go", go)]

/-- The last part of a path, unless the path leads upwards; slashes and points at the end do not
count. -/
def fileName? (path : String) : Option String :=
  match (path.splitOn "/").filter (fun part => part ≠ "" && part ≠ ".") |>.getLast? with
  | some ".." => none
  | name => name

/-- What stands behind the last point of a name, if anything stands in front of it. -/
def extension? (name : String) : Option String :=
  let (extension, rest) := name.toList.reverse.span (· ≠ '.')
  if 1 < rest.length then some (String.ofList extension.reverse) else none

/-- The language of the source at a path. -/
def ofPath (path : String) : Option Language := do
  let extension ← extension? (← fileName? path)
  extensions.lookup (extension.map Char.toLower)

end Language

end CoChange
