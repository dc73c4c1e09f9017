import CoChange.Analysis
import CoChange.Proofs.Checkpoint.Resuming

/-!
# Which saved runs are carried on

A saved run is carried on over a history if it *lines up* with it (`Analysis.LinesUp`): the last
commit that it has consumed stands in the history at the position that the number of its commits
gives. **`Analysis.resumePosition_of_holds`** says what follows for the engine. Nothing is asked of
the commits in front of the last one:

* **`resume_accepts_iff`**: the first commits of the history are those of the saved run exactly if
  those in front of the last one are. They are if both lists are taken from one order of commits.
* **`resume_over_other_commits`**: a saved run is carried on over a history that it has not
  consumed.
-/

namespace CoChange

namespace Analysis

/-- The last of some commits stands in a history where it would stand if they were the first
ones. -/
def LinesUp (before ids : List String) : Prop :=
  ∀ hash ∈ before.getLast?, ids[before.length - 1]? = some hash

theorem isBehind_iff {before ids : List String} :
    isBehind ids before.length before.getLast? = true ↔ LinesUp before ids := by
  rcases List.eq_nil_or_concat before with rfl | ⟨front, hash, rfl⟩
  · simp [isBehind, LinesUp]
  · simp [isBehind, LinesUp]

instance (before ids : List String) : Decidable (LinesUp before ids) :=
  decidable_of_iff _ isBehind_iff

theorem LinesUp.of_prefix {before ids : List String} (h : before <+: ids) : LinesUp before ids := by
  rcases List.eq_nil_or_concat before with rfl | ⟨front, hash, rfl⟩
  · simp [LinesUp]
  · obtain ⟨rest, rfl⟩ := h
    simp [LinesUp]

/-- The commits in front of the last one decide whether a history that lines up begins with the
whole. -/
theorem LinesUp.take_eq_iff {before ids : List String} (h : LinesUp before ids) :
    ids.take before.length = before ↔
      ids.take (before.length - 1) = before.take (before.length - 1) := by
  rcases List.eq_nil_or_concat before with rfl | ⟨front, hash, rfl⟩
  · simp
  · have hlast : ids[front.length]? = some hash := by simpa [LinesUp] using h
    rw [List.concat_eq_append, List.length_append, List.length_singleton, Nat.add_sub_cancel,
      List.take_left, List.take_add_one, hlast]
    simp

/-- **If both are taken from one order of commits, the history begins with the saved run.** In an
order without repetitions the last commit of the saved run has one place, and what stands in front
of it is told by that place. -/
theorem LinesUp.take_eq_of_infix {before ids order : List String} (h : LinesUp before ids)
    (hnodup : order.Nodup) (hbefore : before <:+: order) (hids : ids <:+: order) :
    ids.take before.length = before := by
  rcases List.eq_nil_or_concat before with rfl | ⟨front, hash, rfl⟩
  · simp
  · have hlast : ids[front.length]? = some hash := by simpa [LinesUp] using h
    obtain ⟨a, b, hab⟩ := hbefore
    obtain ⟨a', b', hab'⟩ := hids
    rw [List.concat_eq_append, List.append_assoc, List.append_assoc] at hab
    rw [List.append_assoc] at hab'
    -- the last commit stands in the order once, so both lists begin at the same place
    have hpos : order[a.length + front.length]? = some hash := by
      rw [← hab, List.getElem?_append_right (Nat.le_add_right _ _), Nat.add_sub_cancel_left,
        List.getElem?_append_right (Nat.le_refl _), Nat.sub_self]
      rfl
    have hpos' : order[a'.length + front.length]? = some hash := by
      rw [← hab', List.getElem?_append_right (Nat.le_add_right _ _), Nat.add_sub_cancel_left,
        List.getElem?_append_left (List.getElem?_eq_some_iff.mp hlast).1, hlast]
    have hstart : a.length = a'.length := by
      have heq := (List.getElem?_inj (List.getElem?_eq_some_iff.mp hpos).1 hnodup).mp
        (hpos.trans hpos'.symm)
      omega
    have hrest : front ++ ([hash] ++ b) = ids ++ b' :=
      (List.append_inj (hab.trans hab'.symm) hstart).2
    have hlength : front.length + 1 ≤ ids.length := (List.getElem?_eq_some_iff.mp hlast).1
    have htake := congrArg (List.take (front.length + 1)) hrest
    rw [List.take_append_of_le_length hlength, ← List.append_assoc,
      List.take_left' (by simp)] at htake
    rw [List.concat_eq_append, List.length_append, List.length_singleton, ← htake]

/-! ## The position of a saved run -/

/-- **A saved run that lines up is carried on behind its last commit; another one is given up.**
Nothing is changed in the file system in either case, and the engine that is given up is the one
that was there. -/
theorem resumePosition_of_holds {s : CheckpointStore} {fs : FileSystem} {now : Timestamp}
    {state : EngineState} (h : s.Holds now state fs) (hnow : now.Valid) (hfits : state.Fits)
    (before : List String) (hprocessed : state.processed = before.length)
    (hlast : state.last = before.getLast?) (e : Engine) (ids : List String) :
    resumePosition s fs e ids =
      if LinesUp before ids then .ok (fs, e.restore state, before.length)
      else .ok (s.clear fs, e.reset, 0) := by
  have hresume : s.resume fs e = .ok (some (s.metadataOf now state, e.restore state)) := by
    rw [CheckpointStore.resume, h.resumeInPlace hnow hfits]
    rfl
  -- the description gives the position and the last commit of the state
  have hbehind : (isBehind ids (s.metadataOf now state).processed (s.metadataOf now state).last =
      true) ↔ LinesUp before ids := by
    rw [← isBehind_iff, ← hprocessed, ← hlast]
    rfl
  rw [resumePosition, hresume, ok_bind]
  by_cases hlines : LinesUp before ids
  · rw [if_pos hlines, ← hprocessed]
    exact if_pos (hbehind.mpr hlines)
  · rw [if_neg hlines]
    exact if_neg fun hb => hlines (hbehind.mp hb)

/-- Without a checkpoint a run starts at the first commit, with the engine as it is and nothing
changed in the file system. -/
theorem resumePosition_of_not_exists {s : CheckpointStore} {fs : FileSystem}
    (h : s.exists_ fs = false) (e : Engine) (ids : List String) :
    resumePosition s fs e ids = .ok (fs, e, 0) := by
  have hresume : s.resume fs e = .ok none := by
    rw [CheckpointStore.resume, CheckpointStore.resumeInPlace_of_not_exists h]
    rfl
  rw [resumePosition, hresume]
  rfl

end Analysis

/-- **What a resumption asks of a history.** -/
theorem resume_accepts_iff {s : CheckpointStore} {fs : FileSystem} {now : Timestamp}
    (saver fresh : Engine) (commits : List Commit) (ids : List String)
    (hempty : saver.processed = 0 ∧ saver.last = none)
    (hsaved : s.Holds now (saver.run commits).state fs) (hnow : now.Valid)
    (hfits : (saver.run commits).state.Fits) :
    let p := commits.map (·.hash)
    (Analysis.resumePosition s fs fresh ids =
      if Analysis.LinesUp p ids then .ok (fs, fresh.restore (saver.run commits).state, p.length)
      else .ok (s.clear fs, fresh.reset, 0)) ∧
    (∀ files e position, Analysis.resumePosition s fs fresh ids = .ok (files, e, position) →
      0 < position →
        (ids.take position = p ↔ ids.take (position - 1) = p.take (position - 1)) ∧
        ∀ order : List String, order.Nodup → p <:+: order → ids <:+: order →
          ids.take position = p) := by
  intro p
  have hprocessed : (saver.run commits).state.processed = p.length := by
    show (saver.run commits).processed = _
    rw [Engine.processed_run, hempty.1, Nat.zero_add, List.length_map]
  have hlast : (saver.run commits).state.last = p.getLast? := by
    show (saver.run commits).last = _
    rw [Engine.last_run, hempty.2, Option.or_none]
  have hposition := Analysis.resumePosition_of_holds hsaved hnow hfits p hprocessed hlast fresh ids
  refine ⟨hposition, fun files e position heq hpos => ?_⟩
  rw [hposition] at heq
  by_cases hlines : Analysis.LinesUp p ids
  · rw [if_pos hlines, Except.ok.injEq, Prod.mk.injEq, Prod.mk.injEq] at heq
    obtain ⟨-, -, rfl⟩ := heq
    exact ⟨hlines.take_eq_iff, fun order => hlines.take_eq_of_infix⟩
  · rw [if_neg hlines, Except.ok.injEq, Prod.mk.injEq, Prod.mk.injEq] at heq
    omega

/-! ### A saved run over a root and a branch, and a history with another branch in front -/

namespace Sample

/-- Adds a file with one function. -/
def adding (hash path : String) : Commit := ⟨hash, 1, [added path [foo]]⟩

/-- Has consumed the commits `r` and `y`. -/
def saver : Engine := (Engine.new query 0).run [adding "r" "r.go", adding "y" "y.go"]

theorem fits_saver : saver.state.Fits := by decide +kernel

theorem exists_holds (e : Engine) : ∃ fs, store.Holds ⟨0, 0⟩ e.state fs := by
  obtain ⟨fs, hsave, -⟩ := prepared_files.ready.save ⟨0, 0⟩ e
  exact ⟨fs, CheckpointStore.holds_of_save hsave⟩

theorem valid_start : (⟨0, 0⟩ : Timestamp).Valid := ⟨by decide, by decide⟩

end Sample

/-- A checkpoint behind the first two commits is taken up there, with the engine that was saved. -/
theorem resume_accepts_sample :
    ∃ fs, Sample.store.Holds ⟨0, 0⟩ Sample.saver.state fs ∧ Sample.saver.state.Fits ∧
      Analysis.resumePosition Sample.store fs Sample.saver.reset ["r", "y", "m"] =
        .ok (fs, Sample.saver.reset.restore Sample.saver.state, 2) ∧
      ["r", "y", "m"].take 2 = ["r", "y"] := by
  obtain ⟨fs, hholds⟩ := Sample.exists_holds Sample.saver
  have haccepts := resume_accepts_iff (Engine.new Sample.query 0) Sample.saver.reset
    [Sample.adding "r" "r.go", Sample.adding "y" "y.go"] ["r", "y", "m"] ⟨rfl, rfl⟩ hholds
    Sample.valid_start Sample.fits_saver
  have hposition := haccepts.1.trans (if_pos (by decide))
  exact ⟨fs, hholds, Sample.fits_saver, hposition,
    (haccepts.2 _ _ _ hposition (by decide)).2 ["r", "y", "m"] (by decide) ⟨[], ["m"], rfl⟩
      ⟨[], [], rfl⟩⟩

/-- **A saved run is carried on over a history that it has not consumed**: it is of `r` and `y`, the
history of `x`, `y` and `m`. The report then counts `r`, which is not in the history, and misses
`x`. -/
theorem resume_over_other_commits :
    ∃ fs, Sample.store.Holds ⟨0, 0⟩ Sample.saver.state fs ∧ ["r", "y"].Nodup ∧
      ["x", "y", "m"].Nodup ∧
      Analysis.resumePosition Sample.store fs Sample.saver.reset ["x", "y", "m"] =
        .ok (fs, Sample.saver.reset.restore Sample.saver.state, 2) ∧
      ["x", "y", "m"].take 2 ≠ ["r", "y"] ∧
      (let carried := (Sample.saver.reset.restore Sample.saver.state).run [Sample.adding "m" "m.go"]
      let whole := Sample.saver.reset.run
        [Sample.adding "x" "x.go", Sample.adding "y" "y.go", Sample.adding "m" "m.go"]
      carried.registry.entries.keys =
        ["Function_foo_m.go", "Function_foo_r.go", "Function_foo_y.go"] ∧
      whole.registry.entries.keys =
        ["Function_foo_m.go", "Function_foo_x.go", "Function_foo_y.go"]) := by
  obtain ⟨fs, hholds⟩ := Sample.exists_holds Sample.saver
  have hposition := Analysis.resumePosition_of_holds hholds Sample.valid_start Sample.fits_saver
    ["r", "y"] rfl rfl Sample.saver.reset ["x", "y", "m"]
  exact ⟨fs, hholds, by decide, by decide, hposition.trans (if_pos (by decide)), by decide,
    by decide +kernel, by decide +kernel⟩

end CoChange
