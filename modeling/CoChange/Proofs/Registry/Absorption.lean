import CoChange.Proofs.Registry.Event

/-!
# Commits as registries of their own

A commit that neither deletes nor renames a file only adds to a registry, and what it adds does not
depend on what is there: it adds the registry that it would leave in an empty engine.

* **`joinEntry`** is associative, so registries can be added in any grouping (`Entries.join_assoc`).
* **`entries_applyCommit`**: a plain commit on a registry adds to it the plain commit on an empty
  one.
* **`indexed_applyCommit`**, **`populated_applyCommit`**: a plain commit keeps the index right, and
  leaves no file without keys.
-/

namespace CoChange

/-- The commit neither deletes a file nor gives one another path. -/
def Commit.IsPlain (c : Commit) : Prop :=
  ∀ ch ∈ c.changes, ch.kind ≠ .deleted ∧ ch.isRename = false

theorem Commit.IsPlain.deletedFiles {c : Commit} (h : c.IsPlain) : Engine.deletedFiles c = [] := by
  rw [Engine.deletedFiles, List.map_eq_nil_iff, List.filter_eq_nil_iff]
  intro ch hch
  rw [beq_iff_eq]
  exact (h ch hch).1

/-- A plain commit only touches. -/
theorem Commit.IsPlain.events {c : Commit} (h : c.IsPlain) (q : UnitQuery) :
    c.events q = (c.changes.flatMap (·.units q)).map .touch := by
  unfold Commit.events
  rw [List.map_flatMap]
  refine List.flatMap_congr fun ch hch => ?_
  rw [Change.events, (h ch hch).2]
  rfl

/-! ## Adding entries -/

instance : Std.Associative Registry.joinEntry where
  assoc := fun a b c => by
    simp only [Registry.joinEntry, Nat.add_assoc, SortedMap.unionWith_assoc]

/-- A unit that is seen for the first time adds one to the count, and no peers. -/
theorem Registry.joinEntry_first (e : Entry) (u : CodeUnit) :
    joinEntry e (.first u) = { e with count := e.count + 1 } := by
  simp only [joinEntry, Entry.first, SortedMap.unionWith_empty]

namespace Entries

/-- The entries of two registries, with those of one key added. -/
def join (es es' : Entries) : Entries := es.unionWith Registry.joinEntry es'

theorem get?_join (es es' : Entries) (k : String) :
    (es.join es').get? k = Option.merge Registry.joinEntry (es.get? k) (es'.get? k) :=
  SortedMap.get?_unionWith _ es es' k

/-- A unit after a join is one from before: that of the first entry if there are two. -/
theorem unit_of_join {es es' : Entries} {k : String} {d : Entry}
    (h : (es.join es').get? k = some d) :
    (∃ x, es.get? k = some x ∧ d.unit = x.unit) ∨ ∃ y, es'.get? k = some y ∧ d.unit = y.unit := by
  rw [get?_join] at h
  cases hx : es.get? k with
  | none =>
    rw [hx, Option.merge_none_left] at h
    exact Or.inr ⟨d, h, rfl⟩
  | some x =>
    -- the unit of the older entry stays
    refine Or.inl ⟨x, rfl, ?_⟩
    cases hy : es'.get? k with
    | none =>
      rw [hx, hy, Option.merge_none_right, Option.some.injEq] at h
      rw [h]
    | some y =>
      rw [hx, hy, Option.merge_some_some, Option.some.injEq] at h
      rw [← h]
      rfl

theorem join_empty (es : Entries) : es.join ∅ = es := SortedMap.unionWith_empty _ es

theorem join_assoc (a b c : Entries) : (a.join b).join c = a.join (b.join c) :=
  SortedMap.unionWith_assoc a b c

end Entries

namespace Registry

/-! ## A pass over two registries

The same touches go over a registry that has older entries and over one that has none. The keys that
they touch are all in the second one, which is what makes the counting of pairs agree as well. -/

/-- The first pass has what the second one has, and older entries. -/
structure Pass.Extends (older : Entries) (p p₀ : Pass) : Prop where
  entries : p.registry.entries = older.join p₀.registry.entries
  touched : p.touched = p₀.touched
  there : ∀ k, k ∈ p₀.touched → k ∈ p₀.registry.entries

/-- A touch keeps one pass ahead of the other by what was absorbed: the count is raised once on
either side, and a new unit is one that neither knew. -/
theorem Pass.Extends.touch {older : Entries} {p p₀ : Pass} (h : p.Extends older p₀) (u : CodeUnit) :
    (p.touch u).Extends older (p₀.touch u) where
  entries := by
    refine SortedMap.ext_get? fun k => ?_
    rw [get?_touch, Entries.get?_join, get?_touch, h.entries, Entries.get?_join, h.touched]
    by_cases hk : k = u.key
    · rw [if_pos hk, if_pos hk]
      cases hnew : p₀.registry.entries.get? k with
      | none =>
        -- a key that is not there has not been touched, so an older entry counts this touch
        have ht : k ∉ p₀.touched := fun ht =>
          SortedMap.get?_eq_none_iff.mp hnew (h.there k ht)
        cases older.get? k with
        | none => rfl
        | some e => simp [ht, joinEntry_first]
      | some e₀ =>
        cases older.get? k with
        | none => simp
        | some e => by_cases ht : k ∈ p₀.touched <;> simp [ht, joinEntry, Nat.add_assoc]
    · rw [if_neg hk, if_neg hk]
  touched := congrArg (SortedSet.insert u.key) h.touched
  there := fun k hk => mem_touch.mpr ((mem_touched_touch.mp hk).imp id (h.there k))

/-- Touches keep one pass ahead of the other by what was absorbed. The induction is on the units. -/
theorem Pass.Extends.touches {older : Entries} {p p₀ : Pass} (h : p.Extends older p₀)
    (units : List CodeUnit) :
    ((units.map Event.touch).foldl apply p).Extends older
      ((units.map Event.touch).foldl apply p₀) := by
  induction units generalizing p p₀ with
  | nil => exact h
  | cons u rest ih => exact ih (h.touch u)

/-- The pairs of the touched keys are added on both sides alike. -/
theorem Pass.Extends.couple {older : Entries} {p p₀ : Pass} (h : p.Extends older p₀) :
    (p.registry.couple p.touched).entries = older.join (p₀.registry.couple p₀.touched).entries := by
  refine SortedMap.ext_get? fun k => ?_
  rw [Entries.get?_join, get?_couple, get?_couple, h.entries, Entries.get?_join, h.touched]
  by_cases ht : k ∈ p₀.touched
  · obtain ⟨e₀, he₀⟩ := SortedMap.mem_iff.mp (h.there k ht)
    rw [he₀]
    cases older.get? k with
    | none => rfl
    | some e => simp [ht, joinEntry, SortedMap.unionWith_assoc]
  · simp only [if_neg ht, Option.map_id']

/-- The pairs of a commit are counted over both registries alike, since the same keys were
touched. -/
theorem Pass.Extends.coupleWithin {older : Entries} {p p₀ : Pass} (h : p.Extends older p₀)
    (cap : Nat) :
    (p.registry.coupleWithin cap p.touched).entries =
      older.join (p₀.registry.coupleWithin cap p₀.touched).entries := by
  rw [Registry.coupleWithin, Registry.coupleWithin, h.touched]
  cases withinCap cap p₀.touched with
  | true => exact h.touched ▸ h.couple
  | false => exact h.entries

/-! ## The index -/

theorem Indexed.touches {p : Pass} (h : p.registry.Indexed) (units : List CodeUnit) :
    ((units.map Event.touch).foldl Pass.apply p).registry.Indexed := by
  induction units generalizing p with
  | nil => exact h
  | cons u rest ih => exact ih (h.touch u)

/-- After touches, every file of the index has some unit. Only files of touched units are added. -/
theorem populated_touches {p : Pass} (h : p.registry.files.Populated) (units : List CodeUnit) :
    ((units.map Event.touch).foldl Pass.apply p).registry.files.Populated := by
  induction units generalizing p with
  | nil => exact h
  | cons u rest ih =>
    refine ih (p := p.touch u) ?_
    rw [Pass.files_touch]
    split
    · exact h
    · exact h.add u.file u.key

end Registry

namespace Engine

open Registry

variable {q : UnitQuery} {cap : Nat} {c : Commit}

/-- The touched keys of a commit are the same for every registry. -/
theorem touched_passOf (q : UnitQuery) (r r' : Registry) (c : Commit) :
    (passOf q r c).touched = (passOf q r' c).touched :=
  SortedSet.ext_mem fun _ => by rw [passOf, passOf, Pass.mem_touched_foldl, Pass.mem_touched_foldl]

/-- **A plain commit adds to a registry what it leaves in an empty one.** Nothing that a plain
commit does depends on what is there, apart from adding to it. -/
theorem entries_applyCommit (hplain : c.IsPlain) (r : Registry) :
    (applyCommit q cap r c).registry.entries =
      r.entries.join (applyCommit q cap .empty c).registry.entries := by
  have hstart : Pass.Extends r.entries ⟨r, ∅⟩ ⟨.empty, ∅⟩ :=
    ⟨(Entries.join_empty r.entries).symm, rfl, fun k hk => absurd hk (SortedMap.not_mem_empty k)⟩
  have hpass := hstart.touches (c.changes.flatMap (·.units q))
  rw [← hplain.events q] at hpass
  rw [applyCommit_eq, applyCommit_eq, dropFiles, dropFiles, hplain.deletedFiles]
  exact hpass.coupleWithin cap

/-- A commit without renames and deletions keeps the index exact: touches list new units, and pairs
change no unit. -/
theorem indexed_applyCommit (hplain : c.IsPlain) {r : Registry} (h : r.Indexed) :
    (applyCommit q cap r c).registry.Indexed := by
  rw [applyCommit_eq, dropFiles, hplain.deletedFiles, passOf, hplain.events, coupleWithin]
  have htouches := Indexed.touches (p := ⟨r, ∅⟩) h (c.changes.flatMap (·.units q))
  split
  · exact htouches.couple _
  · exact htouches

/-- A commit without renames and deletions leaves no file of the index without units. -/
theorem populated_applyCommit (hplain : c.IsPlain) {r : Registry} (h : r.files.Populated) :
    (applyCommit q cap r c).registry.files.Populated := by
  rw [applyCommit_eq, dropFiles, hplain.deletedFiles, passOf, hplain.events, coupleWithin]
  have htouches := populated_touches (p := ⟨r, ∅⟩) h (c.changes.flatMap (·.units q))
  split
  · exact htouches
  · exact htouches

end Engine

end CoChange
