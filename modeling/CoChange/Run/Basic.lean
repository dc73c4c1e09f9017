import CoChange.Engine
import CoChange.HistoryError

/-!
# Feeding commits to an engine

Commits are pulled one by one from a history. A pull may fail, and a request to stop may come in
while it goes on; both end the run at once, and the engine keeps what it has consumed.
-/

namespace CoChange

/-- What is pulled from a history. -/
structure Pull where
  commit : Except HistoryError Commit
  /-- Whether a request to stop comes in while the commit is fetched. -/
  stops : Bool

/-- Opens the history of some commits. -/
abbrev OpenHistory := List String → Except HistoryError (List Pull)

/-- How a run ended: the engine, whether a stop is requested, and the number of commits that were
consumed, or what ended the run early. -/
structure Run where
  engine : Engine
  stopped : Bool
  outcome : Except HistoryError Nat

/-- Feeds pulled commits to an engine; `consumed` commits came before. -/
def driveFromIn (orders : TableOrders) (consumed : Nat) (stopped : Bool) (e : Engine) :
    List Pull → Run
  | [] => ⟨e, stopped, .ok consumed⟩
  | p :: rest =>
    if stopped || p.stops then ⟨e, true, .error .cancelled⟩
    else
      match p.commit with
      | .error err => ⟨e, false, .error err⟩
      | .ok c => driveFromIn orders (consumed + 1) false (e.stepIn orders c) rest

/-- Opens a history and feeds it to an engine. -/
def openAndDriveIn (orders : TableOrders) (stopped : Bool) (e : Engine)
    (opened : Except HistoryError (List Pull)) : Run :=
  match opened with
  | .error err => ⟨e, stopped, .error err⟩
  | .ok pulls => driveFromIn orders 0 stopped e pulls

/-- `openAndDriveIn`, with all tables walked through by their keys. -/
def openAndDrive (stopped : Bool) (e : Engine) (opened : Except HistoryError (List Pull)) : Run :=
  openAndDriveIn .byKey stopped e opened

end CoChange
