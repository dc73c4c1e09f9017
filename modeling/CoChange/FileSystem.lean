import CoChange.SortedMap.Basic

/-!
# File systems

A file system as a value: files and directories by path. Operations are those that programs store
data with; each fails with the cause that the system would report. Paths are texts whose parts stand
between slashes; the empty path and the root are directories that are always there.

* `FileSystem.Step`: a change of a file system that happens as a whole; saving data is a list of
  steps, and what a crash leaves is the effect of some first steps.
-/

namespace CoChange

abbrev FileContent := List UInt8

/-- What stands at a path. -/
inductive FileEntry where
  | file (content : FileContent)
  | directory
  deriving DecidableEq, Repr, Inhabited

/-- Why an operation on files fails. -/
inductive FileFault where
  | notFound
  | alreadyExists
  | notADirectory
  | isADirectory
  | invalidText
  | other (text : String)
  deriving DecidableEq, Repr

def FileFault.message : FileFault → String
  | notFound => "No such file or directory (os error 2)"
  | alreadyExists => "File exists (os error 17)"
  | notADirectory => "Not a directory (os error 20)"
  | isADirectory => "Is a directory (os error 21)"
  | invalidText => "stream did not contain valid UTF-8"
  | other text => text

/-! ### Paths -/

namespace FilePath

/-- The path without slashes at its end. -/
def trimEnd (path : List Char) : List Char := (path.reverse.dropWhile (· = '/')).reverse

def parent (path : String) : String :=
  let dir := ((trimEnd path.toList).reverse.dropWhile (· != '/')).reverse
  if dir.all (· = '/') then String.ofList (dir.take 1) else String.ofList (trimEnd dir)

/-- A path below a directory. -/
def join (dir name : String) : String :=
  if dir.isEmpty || name.startsWith "/" then name
  else if dir.endsWith "/" then dir ++ name
  else dir ++ "/" ++ name

def fileName (path : String) : String :=
  String.ofList (((trimEnd path.toList).reverse.takeWhile (· != '/')).reverse)

/-- Goes on from some parts of a path, the last one first, by one more: nothing and a point lead
nowhere, two points lead back. -/
def walk (parts : List (List Char)) (part : List Char) : List (List Char) :=
  if part = [] || part = ['.'] then parts
  else if part = ['.', '.'] then parts.drop 1
  else part :: parts

def parts : List Char → List (List Char)
  | [] => [[]]
  | '/' :: rest => [] :: parts rest
  | c :: rest =>
    match parts rest with
    | part :: others => (c :: part) :: others
    | [] => [[c]]

/-- The shortest path that leads to the same place. -/
def canonical (path : String) : String :=
  let inner := ((parts path.toList).foldl walk []).reverse
  String.ofList ((if path.startsWith "/" then ['/'] else []) ++ (inner.intersperse ['/']).flatten)

end FilePath

structure FileSystem where
  entries : SortedMap String FileEntry
  deriving Inhabited

namespace FileSystem

/-- What stands at a path. -/
def entry? (fs : FileSystem) (path : String) : Option FileEntry :=
  if path = "" || path = "/" || path = "." then some .directory else fs.entries.get? path

def exists_ (fs : FileSystem) (path : String) : Bool := (fs.entry? path).isSome

def isFile (fs : FileSystem) (path : String) : Bool :=
  match fs.entry? path with
  | some (.file _) => true
  | _ => false

def isDirectory (fs : FileSystem) (path : String) : Bool := fs.entry? path == some .directory

def names (fs : FileSystem) (dir : String) : List String :=
  (fs.entries.keys.filter fun p => FilePath.parent p == dir).map FilePath.fileName

/-- The path, if the directory that holds it is there. -/
def checkParent (fs : FileSystem) (path : String) : Except FileFault Unit :=
  match fs.entry? (FilePath.parent path) with
  | some .directory => .ok ()
  | some (.file _) => .error .notADirectory
  | none =>
    -- a file further up hides everything below it
    let rec hidden : Nat → String → Bool
      | 0, _ => false
      | fuel + 1, p => fs.isFile p || (!p.isEmpty && p != "/" && hidden fuel (FilePath.parent p))
    if hidden path.length (FilePath.parent path) then .error .notADirectory else .error .notFound

/-- Creates a directory in one that is there. -/
def makeDirectory (path : String) (fs : FileSystem) : Except FileFault FileSystem := do
  fs.checkParent path
  if fs.exists_ path then .error .alreadyExists
  else .ok ⟨fs.entries.insert path .directory⟩

/-- Creates a directory and those above it that are missing; nothing happens if it is there. -/
def makeDirectories (path : String) (fs : FileSystem) : Except FileFault FileSystem :=
  let rec go : Nat → String → Except FileFault FileSystem
    | 0, _ => .error .notFound
    | fuel + 1, p =>
      match fs.makeDirectory p with
      | .ok fs => .ok fs
      | .error .notFound => do
        let fs ← go fuel (FilePath.parent p)
        fs.makeDirectory p
      | .error e => if fs.isDirectory p then .ok fs else .error e
  go (path.length + 1) path

/-- Writes a file, in place of one that is there. -/
def write (path : String) (content : FileContent) (fs : FileSystem) :
    Except FileFault FileSystem := do
  fs.checkParent path
  if fs.isDirectory path then .error .isADirectory
  else .ok ⟨fs.entries.insert path (.file content)⟩

/-- Moves a file over another one. -/
def rename (source target : String) (fs : FileSystem) : Except FileFault FileSystem := do
  fs.checkParent source
  match fs.entry? source with
  | none => .error .notFound
  | some e =>
    fs.checkParent target
    if fs.isDirectory target then .error .isADirectory
    else .ok ⟨(fs.entries.erase source).insert target e⟩

def read (fs : FileSystem) (path : String) : Except FileFault FileContent := do
  fs.checkParent path
  match fs.entry? path with
  | some (.file content) => .ok content
  | some .directory => .error .isADirectory
  | none => .error .notFound

def readText (fs : FileSystem) (path : String) : Except FileFault String := do
  let content ← fs.read path
  match String.fromUTF8? ⟨content.toArray⟩ with
  | some text => .ok text
  | none => .error .invalidText

/-- Removes a path and everything below it. -/
def remove (path : String) (fs : FileSystem) : FileSystem :=
  ⟨fs.entries.filter fun p _ => p != path && !p.startsWith (path ++ "/")⟩

/-! ### Steps -/

/-- A change of a file system that happens as a whole. -/
inductive Step where
  | makeDirectories (path : String)
  | write (path : String) (content : FileContent)
  | rename (source target : String)
  deriving DecidableEq, Repr

/-- The path that a failed step is reported with. -/
def Step.path : Step → String
  | makeDirectories path => path
  | write path _ => path
  | rename _ target => target

/-- The effect of a step. -/
def Step.apply (fs : FileSystem) : Step → Except FileFault FileSystem
  | makeDirectories path => fs.makeDirectories path
  | write path content => fs.write path content
  | rename source target => fs.rename source target

/-- Does steps one after the other up to the first that fails, which is given with its cause. -/
def perform (fs : FileSystem) : List Step → FileSystem × Option (Step × FileFault)
  | [] => (fs, none)
  | s :: rest =>
    match s.apply fs with
    | .ok fs => fs.perform rest
    | .error e => (fs, some (s, e))

end FileSystem

end CoChange
