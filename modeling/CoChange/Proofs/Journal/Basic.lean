import CoChange.Proofs.Registry.Event
import Mathlib.Data.Finset.Card

/-!
# Journals of a history

What a history says about units, told without counts or couplings. A *journal* keeps for each unit
that is there the positions of the commits that touched it, and nothing else:

* a rename carries the positions of a unit over to the new file;
* a touch adds the position of the commit;
* the deletion of a file, which comes last in a commit, drops its units.

A *chronicle* is a journal with the number of commits so far and the merges that were consumed,
since a merge that comes again is passed over. `commonCommits` are the commits that two units share,
as far as they are small enough to count.

`Admissible` collects what a history has to satisfy for units to keep apart: no path is named by two
changes of a commit, no two units that occur have one key, and files are renamed only to paths where
no unit is.
-/

namespace CoChange

/-- For each unit that is there, the positions of the commits that touched it. -/
abbrev Journal := CodeUnit → Option (Finset Nat)

/-- The event touches only units with a property, or moves them to where they have it still. -/
def Event.Keeps (P : CodeUnit → Prop) : Event → Prop
  | .rename _ target => ∀ u, P u → P (u.relocated target)
  | .touch u => P u

namespace Journal

def empty : Journal := fun _ => none

/-- Carries the units of a file over to another path. -/
def rename (source target : String) (J : Journal) : Journal := fun u =>
  if u.file = target then J (u.relocated source)
  else if u.file = source then none
  else J u

/-- Adds a position to a unit, which is there from then on. -/
def touch (i : Nat) (u : CodeUnit) (J : Journal) : Journal := fun v =>
  if v = u then some (insert i ((J u).getD ∅)) else J v

/-- Drops the units of a file. -/
def remove (file : String) (J : Journal) : Journal := fun u => if u.file = file then none else J u

/-- Drops the units of the files that a commit deletes. -/
def clear (c : Commit) (J : Journal) : Journal := fun u =>
  if ∃ change ∈ c.changes, change.kind = .deleted ∧ change.source = u.file then none else J u

/-- To drop the units of all deleted files is to drop those of one after the other. -/
theorem clear_eq_foldl (c : Commit) (J : Journal) :
    J.clear c = (Engine.deletedFiles c).foldl (fun J file => J.remove file) J := by
  have hfold (files : List String) (J : Journal) (u : CodeUnit) :
      files.foldl (fun J file => J.remove file) J u = if u.file ∈ files then none else J u := by
    induction files generalizing J with
    | nil => rw [List.foldl_nil, if_neg List.not_mem_nil]
    | cons file files ih =>
      rw [List.foldl_cons, ih, remove]
      by_cases hrest : u.file ∈ files
      · rw [if_pos hrest, if_pos (List.mem_cons_of_mem file hrest)]
      · simp only [List.mem_cons, hrest, or_false, if_false]
  funext u
  have hmem : u.file ∈ Engine.deletedFiles c ↔
      ∃ change ∈ c.changes, change.kind = .deleted ∧ change.source = u.file := by
    simp only [Engine.deletedFiles, List.mem_map, List.mem_filter, beq_iff_eq, and_assoc]
  rw [hfold, clear]
  simp only [hmem]

/-- What an event of the commit at a position does. -/
def apply (i : Nat) (J : Journal) : Event → Journal
  | .rename source target => J.rename source target
  | .touch u => J.touch i u

/-! ### Positions -/

def Noted (J : Journal) (i : Nat) (u : CodeUnit) : Prop := ∃ S, J u = some S ∧ i ∈ S

/-- After a touch the position is noted of the unit that was touched, and of those it was noted of
before. -/
theorem noted_touch {J : Journal} {i : Nat} {u v : CodeUnit} :
    (J.touch i u).Noted i v ↔ v = u ∨ J.Noted i v := by
  unfold Noted touch
  by_cases h : v = u
  · subst h
    simp
  · simp [h]

/-- A rename moves no position if the units that have it are of other files and the new path is
free. -/
theorem noted_rename {J : Journal} {source target : String} {i : Nat}
    (hsource : ∀ u, J.Noted i u → u.file ≠ source)
    (hfree : ∀ u : CodeUnit, u.file = target → J u = none) {v : CodeUnit} :
    (J.rename source target).Noted i v ↔ J.Noted i v := by
  by_cases ht : v.file = target
  · -- what stands under the new path comes from the old one, where the position is not
    have hold : ¬ J.Noted i v := fun ⟨S, hS, _⟩ => by
      rw [hfree v ht] at hS
      exact absurd hS (by simp)
    refine iff_of_false (fun ⟨S, hS, hi⟩ => ?_) hold
    rw [rename, if_pos ht] at hS
    exact hsource _ ⟨S, hS, hi⟩ (CodeUnit.relocated_file v source)
  · by_cases hs : v.file = source
    · -- nothing is left under the old path, and nothing with the position was there
      refine iff_of_false (fun ⟨S, hS, _⟩ => ?_) fun hold => hsource v hold hs
      rw [rename, if_neg ht, if_pos hs] at hS
      exact absurd hS (by simp)
    · simp only [Noted, rename, if_neg ht, if_neg hs]

def Below (n : Nat) (J : Journal) : Prop := ∀ i u, J.Noted i u → i < n

theorem Below.mono {n m : Nat} {J : Journal} (h : J.Below n) (hnm : n ≤ m) : J.Below m :=
  fun i u hu => Nat.lt_of_lt_of_le (h i u hu) hnm

/-- An event at a position leaves no position beyond it. A renaming only carries positions over. -/
theorem Below.apply {n i : Nat} {J : Journal} (h : J.Below n) (hi : i < n) (event : Event) :
    (J.apply i event).Below n := by
  rintro j v ⟨S, hS, hj⟩
  cases event with
  | rename source target =>
    replace hS : J.rename source target v = some S := hS
    unfold rename at hS
    split at hS
    · exact h j _ ⟨S, hS, hj⟩
    · split at hS
      · exact absurd hS (by simp)
      · exact h j v ⟨S, hS, hj⟩
  | touch u =>
    replace hS : J.touch i u v = some S := hS
    unfold touch at hS
    split at hS
    · -- the only position that is new is that of the commit
      rw [← Option.some.inj hS, Finset.mem_insert] at hj
      rcases hj with rfl | hj
      · exact hi
      · cases hu : J u with
        | none => simp [hu] at hj
        | some T => exact h j u ⟨T, hu, by simpa [hu] using hj⟩
    · exact h j v ⟨S, hS, hj⟩

/-- To drop units leaves no position beyond those that were there. -/
theorem Below.clear {n : Nat} {J : Journal} (h : J.Below n) (c : Commit) : (J.clear c).Below n := by
  rintro j v ⟨S, hS, hj⟩
  unfold Journal.clear at hS
  split at hS
  · exact absurd hS (by simp)
  · exact h j v ⟨S, hS, hj⟩

/-! ### Properties of all units -/

/-- All units that are there have a property. -/
def All (P : CodeUnit → Prop) (J : Journal) : Prop := ∀ u, (J u).isSome = true → P u

/-- What holds of all units that are there holds of them after an event that keeps it. -/
theorem All.apply {P : CodeUnit → Prop} {J : Journal} (h : J.All P) (i : Nat) {event : Event}
    (hevent : event.Keeps P) : (J.apply i event).All P := by
  intro v hv
  cases event with
  | rename source target =>
    replace hv : (J.rename source target v).isSome = true := hv
    unfold rename at hv
    split at hv
    · rename_i ht
      -- the unit has come from the old path
      rw [← CodeUnit.relocated_self v, ht, ← CodeUnit.relocated_relocated v source target]
      exact hevent _ (h _ hv)
    · split at hv
      · exact absurd hv (by simp)
      · exact h v hv
  | touch u =>
    replace hv : (J.touch i u v).isSome = true := hv
    unfold touch at hv
    split at hv
    · rename_i hvu
      rw [hvu]
      exact hevent
    · exact h v hv

/-- Deletions only take units away. -/
theorem All.clear {P : CodeUnit → Prop} {J : Journal} (h : J.All P) (c : Commit) :
    (J.clear c).All P := by
  intro v hv
  unfold Journal.clear at hv
  split at hv
  · exact absurd hv (by simp)
  · exact h v hv

end Journal

/-- A journal, with the number of commits so far and the merges that were consumed. -/
structure Chronicle where
  position : Nat
  merges : Finset String
  journal : Journal

namespace Chronicle

def empty : Chronicle := ⟨0, ∅, .empty⟩

/-- Whether a commit is a merge that was consumed before. -/
def skips (h : Chronicle) (c : Commit) : Bool := c.isMerge && decide (c.hash ∈ h.merges)

/-- The journal after a commit that is not passed over: its events in their order, then what it
deletes. -/
def record (q : UnitQuery) (h : Chronicle) (c : Commit) : Journal :=
  ((c.events q).foldl (Journal.apply h.position) h.journal).clear c

/-- The chronicle after one more commit. -/
def step (q : UnitQuery) (h : Chronicle) (c : Commit) : Chronicle :=
  if h.skips c then { h with position := h.position + 1 }
  else
    ⟨h.position + 1, if c.isMerge then insert c.hash h.merges else h.merges, h.record q c⟩

/-- The chronicle of a history. -/
def of (q : UnitQuery) (commits : List Commit) : Chronicle := commits.foldl (step q) empty

theorem of_append_singleton (q : UnitQuery) (commits : List Commit) (c : Commit) :
    of q (commits ++ [c]) = (of q commits).step q c := by
  rw [of, List.foldl_append]
  rfl

theorem position_step (q : UnitQuery) (h : Chronicle) (c : Commit) :
    (h.step q c).position = h.position + 1 := by
  unfold step
  split <;> rfl

/-- The position of a chronicle is the number of its commits. -/
theorem position_of (q : UnitQuery) (commits : List Commit) :
    (of q commits).position = commits.length := by
  induction commits using List.reverseRecOn with
  | nil => rfl
  | append_singleton rest c ih =>
    rw [of_append_singleton, position_step, ih, List.length_append, List.length_singleton]

/-- The journal in the middle of the commit after some others: behind some of its events. -/
def during (q : UnitQuery) (before : List Commit) (done : List Event) : Journal :=
  done.foldl (Journal.apply before.length) (of q before).journal

theorem during_append_singleton (q : UnitQuery) (before : List Commit) (done : List Event)
    (event : Event) :
    during q before (done ++ [event]) = (during q before done).apply before.length event := by
  rw [during, List.foldl_append]
  rfl

/-- In the middle of a commit, units have what they had before the commit and what its events
keep. -/
theorem all_during {q : UnitQuery} {P : CodeUnit → Prop} {before : List Commit} {done : List Event}
    (h : (of q before).journal.All P) (hdone : ∀ event ∈ done, event.Keeps P) :
    (during q before done).All P := by
  unfold during
  generalize (of q before).journal = J at h
  induction done generalizing J with
  | nil => exact h
  | cons event rest ih =>
    obtain ⟨hevent, hrest⟩ := List.forall_mem_cons.mp hdone
    exact ih hrest _ (h.apply _ hevent)

theorem record_of (q : UnitQuery) (before : List Commit) (c : Commit) :
    (of q before).record q c = (during q before (c.events q)).clear c := by
  rw [record, position_of, during]

/-- A commit notes its own position and no later one. -/
theorem below_of (q : UnitQuery) (commits : List Commit) :
    (of q commits).journal.Below commits.length := by
  induction commits using List.reverseRecOn with
  | nil => exact fun i u ⟨S, hS, _⟩ => absurd hS (by simp [of, empty, Journal.empty])
  | append_singleton before c ih =>
    rw [of_append_singleton, List.length_append, List.length_singleton, step]
    -- the positions before the commit, then those that its events note, then what deletions leave
    have hmono := ih.mono (Nat.le_succ before.length)
    split
    · exact hmono
    · show ((of q before).record q c).Below _
      rw [record_of]
      have hduring : (during q before (c.events q)).Below (before.length + 1) := by
        unfold during
        generalize (of q before).journal = J at hmono
        induction c.events q generalizing J with
        | nil => exact hmono
        | cons event rest ihe => exact ihe _ (hmono.apply (Nat.lt_succ_self _) event)
      exact hduring.clear c

/-- **A property that all events keep is one of all units.** The induction is on the commits, from
the last one; what a commit drops at its end has the property or not. -/
theorem all_of {q : UnitQuery} {P : CodeUnit → Prop} {commits : List Commit}
    (h : ∀ c ∈ commits, ∀ event ∈ c.events q, event.Keeps P) : (of q commits).journal.All P := by
  induction commits using List.reverseRecOn with
  | nil => exact fun u hu => absurd hu (by simp [of, empty, Journal.empty])
  | append_singleton before c ih =>
    have hold := ih fun c' hc' => h c' (List.mem_append_left _ hc')
    rw [of_append_singleton, step]
    split
    · exact hold
    · show ((of q before).record q c).All P
      rw [record_of]
      exact (all_during hold (h c (List.mem_append_right _ (List.mem_singleton.mpr rfl)))).clear c

end Chronicle

/-! ## Small commits -/

/-- The units that a commit touches. -/
def Commit.touchedUnits (q : UnitQuery) (c : Commit) : Finset CodeUnit :=
  (c.changes.flatMap (·.units q)).toFinset

/-- Whether a commit touches at most as many units as a cap allows; a cap of zero allows all. -/
def Commit.isSmall (q : UnitQuery) (cap : Nat) (c : Commit) : Bool :=
  cap = 0 || (c.touchedUnits q).card ≤ cap

/-- Whether the commit at a position is small. -/
def smallAt (q : UnitQuery) (cap : Nat) (commits : List Commit) (s : Nat) : Bool :=
  (commits[s]?).any (·.isSmall q cap)

/-- The small commits among the common positions of two units. -/
def commonCommits (q : UnitQuery) (cap : Nat) (commits : List Commit) (S T : Finset Nat) :
    Finset Nat :=
  (S ∩ T).filter fun s => smallAt q cap commits s = true

/-! ## Admissible histories -/

/-- The paths that a change names: an insertion its new one, a deletion its old one, and a
modification both. -/
def Change.paths (c : Change) : List String :=
  match c.kind with
  | .inserted => [c.target]
  | .deleted => [c.source]
  | .modified => [c.source, c.target]
  | .untracked => []

/-- No path is named by two changes of the commit. -/
def Commit.NamesApart (c : Commit) : Prop :=
  c.changes.Pairwise fun a b => ∀ path, path ∈ a.paths → path ∉ b.paths

/-- The history comes, in the middle of a commit that it does not pass over, to a journal with some
events of the commit still ahead. -/
def Reaches (q : UnitQuery) (commits : List Commit) (J : Journal) (ahead : List Event) : Prop :=
  ∃ before c after done, commits = before ++ c :: after ∧ (Chronicle.of q before).skips c = false ∧
    c.events q = done ++ ahead ∧ J = Chronicle.during q before done

/-- The unit is there at some time of the history. -/
def Occurs (q : UnitQuery) (commits : List Commit) (u : CodeUnit) : Prop :=
  ∃ J ahead, Reaches q commits J ahead ∧ (J u).isSome = true

/-- What keeps the units of a history apart. -/
structure Admissible (q : UnitQuery) (commits : List Commit) : Prop where
  /-- Inside one commit no path is named by two changes. -/
  apart : ∀ c, c ∈ commits → c.NamesApart
  /-- Distinct units have distinct keys. -/
  distinct : ∀ u v, Occurs q commits u → Occurs q commits v → u.key = v.key → u = v
  /-- Whenever a file is renamed, no unit is there under its new path. -/
  untracked : ∀ J source target ahead, Reaches q commits J (.rename source target :: ahead) →
    ∀ u : CodeUnit, u.file = target → J u = none

theorem Reaches.append {q : UnitQuery} {commits : List Commit} {J : Journal} {ahead : List Event}
    (h : Reaches q commits J ahead) (more : List Commit) : Reaches q (commits ++ more) J ahead := by
  obtain ⟨before, c, after, done, rfl, hskip, hevents, hJ⟩ := h
  exact ⟨before, c, after ++ more, done, by simp, hskip, hevents, hJ⟩

/-- Whatever all events of a history keep holds of all units that are there at any moment of it. -/
theorem Reaches.all {q : UnitQuery} {P : CodeUnit → Prop} {commits : List Commit} {J : Journal}
    {ahead : List Event} (h : Reaches q commits J ahead)
    (hkeeps : ∀ c ∈ commits, ∀ event ∈ c.events q, event.Keeps P) : J.All P := by
  obtain ⟨before, c, after, done, rfl, _, hevents, rfl⟩ := h
  refine Chronicle.all_during
    (Chronicle.all_of fun c' hc' => hkeeps c' (List.mem_append_left _ hc'))
    fun event hevent => hkeeps c (List.mem_append_right _ List.mem_cons_self) event ?_
  rw [hevents]
  exact List.mem_append_left _ hevent

/-- A beginning of an admissible history is admissible. -/
theorem Admissible.of_append {q : UnitQuery} {commits more : List Commit}
    (h : Admissible q (commits ++ more)) : Admissible q commits where
  apart := fun c hc => h.apart c (List.mem_append_left _ hc)
  distinct := fun u v ⟨J, ahead, hJ, hu⟩ ⟨J', ahead', hJ', hv⟩ =>
    h.distinct u v ⟨J, ahead, hJ.append more, hu⟩ ⟨J', ahead', hJ'.append more, hv⟩
  untracked := fun J source target ahead hJ => h.untracked J source target ahead (hJ.append more)

end CoChange
