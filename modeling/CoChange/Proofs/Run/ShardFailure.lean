import CoChange.Proofs.Sharding

/-!
# A run in shards is all or nothing

The history of a shard ends its run early if it cannot be opened, if one of its pulls fails, or if a
request to stop is noticed behind a pull (`historyFault?`). Otherwise the fork consumes all commits
that the history yields.

* **`driveFromIn_of_fault`**, **`driveFromIn_of_faultless`**: how one history ends a run.
* **`join_allOrNothing`**: the forks are merged in the order of their shards if no history has a
  fault; otherwise the engine stays as it was, and the error is that of the first history that has
  one.
* **`sharded_run_is_atomic`**: so it is with a run in shards, whatever order the workers finish in.
-/

namespace CoChange

variable {stopped : Bool} {pulls : List Pull} {histories : List (Except HistoryError (List Pull))}
    {err : HistoryError}

/-- The error that a run ends with at a pull, if it does. A request to stop goes before an error of
the pull. -/
def Pull.fault? (stopped : Bool) (p : Pull) : Option HistoryError :=
  if stopped || p.stops then some .cancelled
  else
    match p.commit with
    | .error err => some err
    | .ok _ => none

/-- The error that a history ends a run with, if it does. -/
def historyFault? (stopped : Bool) : Except HistoryError (List Pull) → Option HistoryError
  | .error err => some err
  | .ok pulls => pulls.findSome? (Pull.fault? stopped)

def pulledCommits (pulls : List Pull) : List Commit := pulls.filterMap (·.commit.toOption)

def yieldedCommits : Except HistoryError (List Pull) → List Commit
  | .error _ => []
  | .ok pulls => pulledCommits pulls

/-! ## One history -/

/-- A pull without a fault is no request to stop, and yields a commit. -/
theorem Pull.fault?_eq_none_iff {p : Pull} :
    p.fault? stopped = none ↔ stopped = false ∧ p.stops = false ∧ ∃ c, p.commit = .ok c := by
  cases stopped <;> cases hstops : p.stops <;> cases hcommit : p.commit <;>
    simp [Pull.fault?, hstops, hcommit]

/-- A pull with a fault ends a run. -/
theorem driveFromIn_cons_of_fault (orders : TableOrders) {p : Pull}
    (h : p.fault? stopped = some err) (rest : List Pull) (consumed : Nat) (e : Engine) :
    (driveFromIn orders consumed stopped e (p :: rest)).outcome = .error err := by
  rw [Pull.fault?] at h
  rw [driveFromIn]
  split at h
  · rename_i hstop
    rw [if_pos hstop, ← Option.some.inj h]
  · rename_i hstop
    rw [if_neg hstop]
    cases hcommit : p.commit with
    | error err' =>
      rw [hcommit] at h
      rw [← Option.some.inj h]
    | ok c => simp [hcommit] at h

/-- A pull without a fault is consumed. -/
theorem driveFromIn_cons_of_faultless (orders : TableOrders) {p : Pull}
    (h : p.fault? stopped = none) (rest : List Pull) (consumed : Nat) (e : Engine) :
    ∃ c, p.commit = .ok c ∧
      driveFromIn orders consumed stopped e (p :: rest) =
        driveFromIn orders (consumed + 1) stopped (e.stepIn orders c) rest := by
  obtain ⟨rfl, hstops, c, hcommit⟩ := Pull.fault?_eq_none_iff.mp h
  refine ⟨c, hcommit, ?_⟩
  rw [driveFromIn, hstops, hcommit]
  rfl

/-- **A run ends with the error of the first pull that has a fault.** Commits in front of it are
consumed, and nothing behind it is looked at. -/
theorem driveFromIn_of_fault (orders : TableOrders)
    (h : pulls.findSome? (Pull.fault? stopped) = some err) (consumed : Nat) (e : Engine) :
    (driveFromIn orders consumed stopped e pulls).outcome = .error err := by
  induction pulls generalizing consumed e with
  | nil => simp at h
  | cons p rest ih =>
    rw [List.findSome?_cons] at h
    cases hfault : p.fault? stopped with
    | some err' =>
      rw [hfault] at h
      exact driveFromIn_cons_of_fault orders (hfault.trans h) rest consumed e
    | none =>
      -- what is pulled in front of the fault is consumed, and changes nothing in the outcome
      rw [hfault] at h
      obtain ⟨c, -, hstep⟩ := driveFromIn_cons_of_faultless orders hfault rest consumed e
      rw [hstep]
      exact ih h (consumed + 1) (e.stepIn orders c)

/-- **Without a fault all commits are consumed.** The induction is on the pulls, with the number of
commits consumed so far. -/
theorem driveFromIn_of_faultless (orders : TableOrders)
    (h : pulls.findSome? (Pull.fault? stopped) = none) (consumed : Nat) (e : Engine) :
    driveFromIn orders consumed stopped e pulls =
      ⟨e.runIn orders (pulledCommits pulls), stopped,
        .ok (consumed + (pulledCommits pulls).length)⟩ := by
  induction pulls generalizing consumed e with
  | nil => rfl
  | cons p rest ih =>
    rw [List.findSome?_cons] at h
    cases hfault : p.fault? stopped with
    | some err' => simp [hfault] at h
    | none =>
      rw [hfault] at h
      obtain ⟨c, hcommit, hstep⟩ := driveFromIn_cons_of_faultless orders hfault rest consumed e
      have hpulled : pulledCommits (p :: rest) = c :: pulledCommits rest := by
        rw [pulledCommits, List.filterMap_cons, hcommit]
        rfl
      rw [hstep, ih h, hpulled, List.length_cons, Nat.add_assoc, Nat.add_comm 1]
      rfl

/-- A history with a fault is consumed up to it, and ends with its error. -/
theorem openAndDrive_of_fault {history : Except HistoryError (List Pull)}
    (h : historyFault? stopped history = some err) (e : Engine) :
    (openAndDrive stopped e history).outcome = .error err := by
  cases history with
  | error err' => exact congrArg Except.error (Option.some.inj h)
  | ok pulls => exact driveFromIn_of_fault .byKey h 0 e

/-- A history without a fault is consumed to its end. -/
theorem openAndDrive_of_faultless {history : Except HistoryError (List Pull)}
    (h : historyFault? stopped history = none) (e : Engine) :
    openAndDrive stopped e history =
      ⟨e.run (yieldedCommits history), stopped, .ok (yieldedCommits history).length⟩ := by
  cases history with
  | error err' => simp [historyFault?] at h
  | ok pulls =>
    have hdrive := driveFromIn_of_faultless .byKey h 0 e
    rwa [Nat.zero_add] at hdrive

/-! ## The histories of all shards -/

/-- How a run ends that has a history for each shard: with the error of the first history that has a
fault and the engine as it was; or with the forks merged in the order of the shards, and the number
of commits that the histories yielded, if none has a fault. -/
structure AllOrNothing (stopped : Bool) (e : Engine)
    (histories : List (Except HistoryError (List Pull)))
    (run : Run) : Prop where
  failed : ∀ err, histories.findSome? (historyFault? stopped) = some err →
    run.outcome = .error err ∧ run.engine = e
  merged : histories.findSome? (historyFault? stopped) = none →
    run.outcome = .ok (histories.map fun h => (yieldedCommits h).length).sum ∧
      run.engine = e.merge (histories.map fun h => e.reset.run (yieldedCommits h))

namespace Sharded

/-- Gathering stops at the first history that has a fault. -/
theorem gather_of_fault (h : histories.findSome? (historyFault? stopped) = some err) (e : Engine) :
    gather (histories.map (openAndDrive stopped e)) = .error err := by
  induction histories with
  | nil => simp at h
  | cons history rest ih =>
    rw [List.findSome?_cons] at h
    rw [List.map_cons, gather]
    cases hfault : historyFault? stopped history with
    | some err' =>
      -- the first worker that fails gives the error, whatever the others do
      rw [hfault] at h
      rw [openAndDrive_of_fault (hfault.trans h)]
      rfl
    | none =>
      rw [hfault] at h
      rw [openAndDrive_of_faultless hfault, ih h]
      rfl

/-- Without a fault, all forks and the number of all commits are gathered. -/
theorem gather_of_faultless (h : histories.findSome? (historyFault? stopped) = none) (e : Engine) :
    gather (histories.map (openAndDrive stopped e)) =
      .ok (histories.map fun h => e.run (yieldedCommits h),
        (histories.map fun h => (yieldedCommits h).length).sum) := by
  induction histories with
  | nil => rfl
  | cons history rest ih =>
    rw [List.findSome?_cons] at h
    cases hfault : historyFault? stopped history with
    | some err' => simp [hfault] at h
    | none =>
      rw [hfault] at h
      rw [List.map_cons, gather, openAndDrive_of_faultless hfault, ih h]
      rfl

/-- **Forks are merged all or none.** The errors are looked through in the order of the shards,
before the first fork is merged. -/
theorem join_allOrNothing (stopped : Bool) (e : Engine)
    (histories : List (Except HistoryError (List Pull))) :
    AllOrNothing stopped e histories (join e (histories.map (openAndDrive stopped e.reset))) where
  failed err h := by
    rw [join, gather_of_fault h]
    exact ⟨rfl, rfl⟩
  merged h := by
    rw [join, gather_of_faultless h]
    exact ⟨rfl, rfl⟩

end Sharded

open Sharded in
/-- **A run in several shards is all or nothing**, in whatever order the workers finish. The second
part leaves the history of each shard open, so that shards may fare differently that have the same
identifiers. -/
theorem sharded_run_is_atomic (stopped : Bool) (e : Engine)
    {finish : List (Nat × Run) → List (Nat × Run)} (hfinish : ∀ l, (finish l).Perm l) :
    (∀ (ids : List String) (shards : Nat) (open_ : OpenHistory),
      2 ≤ (partition ids.length shards).length →
      AllOrNothing stopped e ((pieces ids shards).map open_)
        (runFinishing finish stopped e ids shards open_)) ∧
    ∀ histories : List (Except HistoryError (List Pull)),
      AllOrNothing stopped e histories (join e (inOrder histories.length
        (finish (histories.zipIdx.map fun (history, shard) =>
          (shard, openAndDrive stopped e.reset history))))) := by
  refine ⟨fun ids shards open_ hshards => ?_, fun histories => ?_⟩
  · rw [runFinishing, if_neg (by omega), inOrder_workers (hfinish _)]
    have hruns : (partition ids.length shards).map
        (fun r => openAndDrive stopped e.reset (open_ (r.slice ids))) =
        ((pieces ids shards).map open_).map (openAndDrive stopped e.reset) := by
      rw [pieces, List.map_map, List.map_map]
      rfl
    rw [hruns]
    exact join_allOrNothing stopped e _
  · have hnumbered : histories.zipIdx.map
        (fun (history, shard) => (shard, openAndDrive stopped e.reset history)) =
        (histories.map (openAndDrive stopped e.reset)).zipIdx.map Prod.swap := by
      rw [List.zipIdx_map, List.map_map]
      rfl
    have horder := inOrder_numbered
      (hfinish ((histories.map (openAndDrive stopped e.reset)).zipIdx.map Prod.swap))
    rw [List.length_map] at horder
    rw [hnumbered, horder]
    exact join_allOrNothing stopped e histories

/-! ### Three shards

The first one ends well, the pull behind the first commit of the second one fails, and the history
of the third one cannot be opened. The last shard gets done first. -/

namespace Sample

def faults : OpenHistory
  | ["first"] => .ok [⟨.ok first, false⟩]
  | ["second"] => .ok [⟨.ok merge, false⟩, ⟨.error (.repository "object missing"), false⟩]
  | _ => .error (.repository "cannot open")

end Sample

/-- The error is that of the second shard, the first one to fail in the order of the shards, though
the last one was done first. The engine is left as it was. -/
theorem sharded_run_is_atomic_sample :
    let e := (Engine.new Sample.query 0).step Sample.first
    let run :=
      Sharded.runFinishing List.reverse false e ["first", "second", "third"] 3 Sample.faults
    (∀ l : List (Nat × Run), l.reverse.Perm l) ∧
    2 ≤ (partition ["first", "second", "third"].length 3).length ∧
    run.outcome = .error (.repository "object missing") ∧ run.engine = e := by
  intro e run
  have hranges : 2 ≤ (partition ["first", "second", "third"].length 3).length := by decide
  have hatomic := (sharded_run_is_atomic false e List.reverse_perm).1
    ["first", "second", "third"] 3 Sample.faults hranges
  exact ⟨List.reverse_perm, hranges, hatomic.failed _ rfl⟩

end CoChange
