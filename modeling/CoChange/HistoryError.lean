/-!
# Errors while reading a history

What can go wrong between a repository and the commits that are read from it.
-/

namespace CoChange

/-- Why a history cannot be read to its end. -/
inductive HistoryError where
  /-- The repository cannot be read. -/
  | repository (detail : String)
  /-- The repository at a path cannot be read. -/
  | repositoryAt (detail path : String)
  /-- Two texts cannot be compared. -/
  | diff (detail : String)
  /-- A worker cannot be started. -/
  | worker (detail : String)
  /-- The analysis was asked to stop. -/
  | cancelled
  deriving DecidableEq, Repr, Inhabited

namespace HistoryError

def occursIn (part : List Char) : List Char → Bool
  | [] => part.isEmpty
  | c :: rest => part.isPrefixOf (c :: rest) || occursIn part rest

/-- What can be done about a repository that cannot be read, if the detail tells. -/
def hint? (detail : String) : Option String :=
  let mentions (part : String) := occursIn part.toList detail.toList
  if mentions "not a git repository" || mentions "could not find repository" then
    some "Run from inside a git repository or pass --repo."
  else if mentions "Permission denied" then
    some "Check read access to the repository directory."
  else none

def message : HistoryError → String
  | repository detail =>
    match hint? detail with
    | some hint => "Repository error: " ++ detail ++ "\n\n" ++ hint
    | none => "Repository error: " ++ detail
  | repositoryAt detail path => "Repository error: " ++ detail ++ "\n\nRepository path: " ++ path
  | diff detail => "Diff error: " ++ detail
  | worker detail => "Worker error: " ++ detail
  | cancelled => "Analysis was cancelled"

def isCancelled (e : HistoryError) : Bool := e == cancelled

end HistoryError

end CoChange
