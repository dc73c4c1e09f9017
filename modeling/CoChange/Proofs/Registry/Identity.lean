import CoChange.Proofs.Registry.Removal
import CoChange.Proofs.Registry.Rename
import CoChange.Proofs.Sharding
import Mathlib.Data.List.Induction

/-!
# Units and their keys

Entries stand under the keys of units, and a key joins the three parts of a unit with underscores
that may occur in the parts as well. So a registry tells units apart as far as their keys do:

* **`tally_touchRun`**: after any commits that touch units, the entry under a key is of the first
  unit with that key, and counts the commits that touch some unit with it.
* **`units_own_entries_iff`**: every touched unit has an entry of its own, with a count of its own
  and under its own file only, exactly if no two touched units have one key. Then what happens to
  other files does not reach it.
* `keysApart_of_no_underscore`: keys tell units apart whose kinds and names have no underscore.
-/

namespace CoChange

namespace CodeUnit

def KeysApart (units : List CodeUnit) : Prop :=
  ∀ u ∈ units, ∀ v ∈ units, u.key = v.key → u = v

instance (units : List CodeUnit) : Decidable (KeysApart units) :=
  inferInstanceAs (Decidable (∀ u ∈ units, ∀ v ∈ units, u.key = v.key → u = v))

theorem KeysApart.mono {units fewer : List CodeUnit} (h : KeysApart units) (hsub : fewer ⊆ units) :
    KeysApart fewer := fun u hu v hv => h u (hsub hu) v (hsub hv)

/-- What stands in front of the first underscore, and what stands behind it. -/
theorem append_underscore_inj {a b c d : List Char} (ha : '_' ∉ a) (hb : '_' ∉ b)
    (h : a ++ '_' :: c = b ++ '_' :: d) : a = b ∧ c = d := by
  have front : ∀ l rest : List Char, '_' ∉ l →
      (l ++ '_' :: rest).takeWhile (· != '_') = l := by
    intro l rest hl
    have hpos : ∀ x ∈ l, (x != '_') = true := fun x hx => by
      rw [bne_iff_ne]
      exact fun heq => hl (heq ▸ hx)
    rw [List.takeWhile_append_of_pos hpos]
    simp
  have hab : a = b := by rw [← front a c ha, h, front b d hb]
  subst hab
  simpa using h

/-- Keys tell units apart whose kinds and names have no underscore: the first two underscores of a
key are those between its parts. -/
theorem keysApart_of_no_underscore {units : List CodeUnit}
    (h : ∀ u ∈ units, '_' ∉ u.kind.toList ∧ '_' ∉ u.name.toList) : KeysApart units := by
  intro u hu v hv heq
  have hlist := congrArg String.toList heq
  simp only [key, String.toList_append, List.append_assoc] at hlist
  obtain ⟨hkind, hrest⟩ := append_underscore_inj (h u hu).1 (h v hv).1 hlist
  obtain ⟨hname, hfile⟩ := append_underscore_inj (h u hu).2 (h v hv).2 hrest
  have heqs : u.kind = v.kind ∧ u.name = v.name ∧ u.file = v.file :=
    ⟨String.toList_inj.mp hkind, String.toList_inj.mp hname, String.toList_inj.mp hfile⟩
  cases u
  cases v
  simpa using heqs

end CodeUnit

namespace Registry

/-! ## Commits that only touch -/

/-- The registry after a commit that touches the given units in order, and does nothing else. -/
def touchCommit (cap : Nat) (r : Registry) (units : List CodeUnit) : Registry :=
  let p := (units.map Event.touch).foldl Pass.apply ⟨r, ∅⟩
  p.registry.coupleWithin cap p.touched

/-- The registry after such commits, from an empty one. -/
def touchRun (cap : Nat) (commits : List (List CodeUnit)) : Registry :=
  commits.foldl (touchCommit cap) .empty

/-- That is what a commit without deletions and renames does. -/
theorem registry_applyCommit {q : UnitQuery} {cap : Nat} {c : Commit} (hplain : c.IsPlain)
    (r : Registry) :
    (Engine.applyCommit q cap r c).registry =
      touchCommit cap r (c.changes.flatMap (·.units q)) := by
  rw [Engine.applyCommit_eq, Engine.dropFiles, hplain.deletedFiles, Engine.passOf, hplain.events]
  rfl

/-- An engine that runs over commits without deletions and renames, each merge of which is new to
it, touches their units commit by commit. -/
theorem registry_run_of_isPlain {e : Engine} {history : List Commit}
    (hplain : ∀ c ∈ history, c.IsPlain) (hfresh : e.FreshMerges history) :
    (e.run history).registry =
      (history.map fun c => c.changes.flatMap (·.units e.query)).foldl (touchCommit e.cap)
        e.registry := by
  induction history generalizing e with
  | nil => rfl
  | cons c rest ih =>
    obtain ⟨hc, hrest⟩ := List.forall_mem_cons.mp hplain
    have hstep : (e.step c).registry =
        touchCommit e.cap e.registry (c.changes.flatMap (·.units e.query)) := by
      rw [Engine.registry_step, if_pos hfresh.takes, registry_applyCommit hc]
    rw [Engine.run_cons, ih hrest hfresh.step, hstep, Engine.query_step, Engine.cap_step,
      List.map_cons, List.foldl_cons]

/-- Touches of one commit: a key that one of the units has counts once more, unless it was touched
before, and a new entry is of the first such unit. -/
theorem tally_touches (units : List CodeUnit) (p : Pass) (k : String) :
    ((units.map Event.touch).foldl Pass.apply p).registry.tally k =
      match p.registry.tally k, units.find? (·.key == k) with
      | some (v, n), some _ => some (v, if k ∈ p.touched then n else n + 1)
      | none, some u => some (u, 1)
      | t, none => t := by
  induction units generalizing p with
  | nil =>
    rw [List.map_nil, List.foldl_nil]
    cases p.registry.tally k <;> rfl
  | cons u rest ih =>
    rw [List.map_cons, List.foldl_cons, Pass.apply_touch, ih, tally_touch, List.find?_cons]
    by_cases hk : k = u.key
    · -- the key is touched now, so the rest does not count it again
      have ht : k ∈ (p.touch u).touched := Pass.mem_touched_touch.mpr (Or.inl hk)
      have hb : (u.key == k) = true := by rw [hk, beq_self_eq_true]
      rw [if_pos hk, hb]
      cases p.registry.tally k <;> cases rest.find? (·.key == k) <;> simp [ht]
    · have ht : k ∈ (p.touch u).touched ↔ k ∈ p.touched :=
        Pass.mem_touched_touch.trans (or_iff_right hk)
      have hb : (u.key == k) = false := by simpa using Ne.symm hk
      rw [if_neg hk, hb]
      simp only [ht]

/-- A commit raises the count under a key by one if it touches some unit with the key. Where nothing
stood, the first such unit has the entry. -/
theorem tally_touchCommit (cap : Nat) (r : Registry) (units : List CodeUnit) (k : String) :
    (touchCommit cap r units).tally k =
      match r.tally k, units.find? (·.key == k) with
      | some (v, n), some _ => some (v, n + 1)
      | none, some u => some (u, 1)
      | t, none => t := by
  rw [touchCommit, tally_coupleWithin, tally_touches]
  simp only [SortedMap.not_mem_empty, if_false]

/-- **The entry under a key is of the first unit that was touched with it, and counts the commits
that touched some unit with it.** -/
theorem tally_touchRun (cap : Nat) (commits : List (List CodeUnit)) (k : String) :
    (touchRun cap commits).tally k =
      (commits.flatten.find? (·.key == k)).map fun u =>
        (u, commits.countP fun units => units.any (·.key == k)) := by
  induction commits using List.reverseRecOn with
  | nil => rfl
  | append_singleton commits units ih =>
    have hlast : touchRun cap (commits ++ [units]) = touchCommit cap (touchRun cap commits) units :=
      List.foldl_concat ..
    rw [hlast, tally_touchCommit, ih, List.flatten_append, List.find?_append, List.countP_append,
      List.flatten_singleton, List.countP_singleton, ← List.isSome_find?]
    cases hbefore : commits.flatten.find? (·.key == k) with
    | some v => cases units.find? (·.key == k) <;> rfl
    | none =>
      -- a key without an entry was touched by no commit
      have hzero : (commits.countP fun units => units.any (·.key == k)) = 0 := by
        rw [List.countP_eq_zero]
        intro c hc hany
        obtain ⟨u, hu, hk⟩ := List.any_eq_true.mp hany
        exact List.find?_eq_none.mp hbefore u (List.mem_flatten_of_mem hc hu) hk
      rw [hzero]
      cases units.find? (·.key == k) <;> rfl

/-- A commit that touches keeps the index exact. -/
theorem Indexed.touchCommit {r : Registry} (h : r.Indexed) (cap : Nat) (units : List CodeUnit) :
    (r.touchCommit cap units).Indexed := by
  rw [Registry.touchCommit, coupleWithin]
  have htouches := Indexed.touches (p := ⟨r, ∅⟩) h units
  split
  · exact htouches.couple _
  · exact htouches

/-- The index is exact after commits that touch. The induction is on the commits, from the last
one. -/
theorem indexed_touchRun (cap : Nat) (commits : List (List CodeUnit)) :
    (touchRun cap commits).Indexed := by
  induction commits using List.reverseRecOn with
  | nil => exact indexed_empty
  | append_singleton commits units ih =>
    rw [touchRun, List.foldl_concat]
    exact ih.touchCommit cap units

/-! ## Entries of one's own -/

/-- After the given commits a unit has its own entry: it is the unit of the entry under its key, the
commits that touched it are counted there and no others, and its key is listed under its file
alone. -/
structure Owns (r : Registry) (commits : List (List CodeUnit)) (u : CodeUnit) : Prop where
  tally : r.tally u.key = some (u, commits.countP fun units => u ∈ units)
  listed : ∀ file, r.files.Lists file u.key ↔ file = u.file

variable {cap : Nat} {commits : List (List CodeUnit)} {u : CodeUnit}

/-- If keys tell the touched units apart, each of them is the first unit with its key, and the
commits that touch a unit with its key are those that touch it. -/
theorem owns_touchRun (hapart : CodeUnit.KeysApart commits.flatten) (hu : u ∈ commits.flatten) :
    (touchRun cap commits).Owns commits u := by
  have hfirst : commits.flatten.find? (·.key == u.key) = some u := by
    cases hfind : commits.flatten.find? (·.key == u.key) with
    | none => exact absurd (beq_self_eq_true u.key) (List.find?_eq_none.mp hfind u hu)
    | some v =>
      have hkey : v.key = u.key := by simpa using List.find?_some hfind
      rw [hapart v (List.mem_of_find?_eq_some hfind) u hu hkey]
  -- a commit touches the key exactly if it touches the unit
  have hcount : (commits.countP fun units => units.any (·.key == u.key)) =
      commits.countP fun units => u ∈ units := by
    refine List.countP_congr fun c hc => ?_
    rw [List.any_eq_true, decide_eq_true_iff]
    constructor
    · rintro ⟨v, hv, hkey⟩
      rw [← hapart v (List.mem_flatten_of_mem hc hv) u hu (by simpa using hkey)]
      exact hv
    · exact fun hmem => ⟨u, hmem, beq_self_eq_true _⟩
  have htally : (touchRun cap commits).tally u.key =
      some (u, commits.countP fun units => u ∈ units) := by
    rw [tally_touchRun, hfirst, Option.map_some, hcount]
  refine ⟨htally, fun file => ?_⟩
  rw [indexed_iff_tally.mp (indexed_touchRun cap commits), htally]
  constructor
  · rintro ⟨v, n, heq, hf⟩
    rw [Option.some.injEq, Prod.mk.injEq] at heq
    rw [← hf, heq.1]
  · rintro rfl
    exact ⟨u, _, rfl, rfl⟩

/-- The removal of another file leaves an entry of its own. -/
theorem Owns.removeFile {r : Registry} (h : r.Owns commits u) {file : String}
    (hfile : file ≠ u.file) : (r.removeFile file).Owns commits u where
  tally := by rw [tally_removeFile, if_neg fun hl => hfile ((h.listed file).mp hl), h.tally]
  listed := fun file' => by
    rw [lists_removeFile, h.listed]
    exact ⟨fun hf => hf.2, fun hf => ⟨fun heq => hfile (heq ▸ hf), hf⟩⟩

/-- So does giving another file a new path, unless one of its units gets the key there. -/
theorem Owns.rename {r : Registry} (h : r.Owns commits u) {source target : String}
    (hsource : source ≠ u.file)
    (hfree : ∀ k, k ∈ r.moves source target → r.newKey source target k ≠ u.key) :
    (r.rename source target).Owns commits u := by
  -- the unit stands in another file than the one that moves, and no unit that moves gets its key
  have hstays : u.key ∉ r.moves source target := fun hm =>
    hsource ((h.listed source).mp (mem_moves.mp hm).1)
  refine ⟨(tally_rename_of_not_mem hstays hfree).trans h.tally, fun file => ?_⟩
  by_cases hne : source = target
  · rw [hne, Registry.rename_self]
    exact h.listed file
  · rw [lists_rename hne, h.listed]
    constructor
    · rintro (⟨_, k, hk, heq⟩ | ⟨_, hf⟩)
      · exact absurd heq (hfree k hk)
      · exact hf
    · exact fun hf => Or.inr ⟨fun hs => hsource (hs.symm.trans hf), hf⟩

/-- The units that a rename moves after some touches have been touched, in the file that is
renamed. -/
theorem exists_touched_of_mem_moves {source target k : String}
    (hk : k ∈ (touchRun cap commits).moves source target) :
    ∃ v ∈ commits.flatten, v.file = source ∧
      (touchRun cap commits).newKey source target k = (v.relocated target).key := by
  obtain ⟨e, he, hef⟩ := (indexed_touchRun cap commits source k).mp (mem_moves.mp hk).1
  have htally := tally_of_get? he
  rw [tally_touchRun, Option.map_eq_some_iff] at htally
  obtain ⟨v, hfind, heq⟩ := htally
  rw [Prod.mk.injEq] at heq
  refine ⟨v, List.mem_of_find?_eq_some hfind, heq.1 ▸ hef, ?_⟩
  rw [newKey_of_mem hk he, heq.1]

end Registry

/-- **Every touched unit has an entry of its own exactly if keys tell the touched units apart.**
Then neither the removal of another file nor its renaming reaches the entry, as long as no unit gets
its key by the renaming. The registry is that of any new engine which has run over commits that
touch these units, without deletions, renames and repeated merges. -/
theorem units_own_entries_iff (cap : Nat) (commits : List (List CodeUnit)) :
    let r := Registry.touchRun cap commits
    ((∀ u ∈ commits.flatten, r.Owns commits u) ↔ CodeUnit.KeysApart commits.flatten) ∧
    (CodeUnit.KeysApart commits.flatten → ∀ u ∈ commits.flatten,
      (∀ file, file ≠ u.file → (r.removeFile file).Owns commits u) ∧
      (∀ source target, source ≠ u.file →
        (∀ v ∈ commits.flatten, v.file = source → (v.relocated target).key ≠ u.key) →
        (r.rename source target).Owns commits u)) ∧
    ∀ (query : UnitQuery) (history : List Commit), (∀ c ∈ history, c.IsPlain) →
      ((history.filter (·.isMerge)).map (·.hash)).Nodup →
      (history.map fun c => c.changes.flatMap (·.units query)) = commits →
      ((Engine.new query cap).run history).registry = r := by
  intro r
  refine ⟨⟨fun howns u hu v hv hkey => ?_, fun hapart u hu => Registry.owns_touchRun hapart hu⟩,
    fun hapart u hu => ⟨fun file hfile => ?_, fun source target hsource hfree => ?_⟩,
    fun query history hplain honce hcommits => ?_⟩
  · -- one key has one entry, and that has one unit
    have htally := (howns u hu).tally
    rw [hkey, (howns v hv).tally, Option.some.injEq, Prod.mk.injEq] at htally
    exact htally.1.symm
  · exact (Registry.owns_touchRun hapart hu).removeFile hfile
  · refine (Registry.owns_touchRun hapart hu).rename hsource fun k hk heq => ?_
    obtain ⟨v, hv, hvf, hnew⟩ := Registry.exists_touched_of_mem_moves hk
    exact hfree v hv hvf (hnew.symm.trans heq)
  · rw [Registry.registry_run_of_isPlain hplain (freshMerges_new query cap honce)]
    exact congrArg (List.foldl (Registry.touchCommit cap) .empty) hcommits

/-! ### Two functions of one name in two files, and two units of one key -/

namespace Sample

def run : CodeUnit := unit "run" "io_util.go"

def runIo : CodeUnit := unit "run_io" "util.go"

end Sample

/-- Two functions of one name in two files have two entries, and the removal of one file leaves the
other entry alone. -/
theorem units_own_entries_sample :
    CodeUnit.KeysApart [Sample.unit "foo" "a.go", Sample.unit "foo" "b.go"] ∧
    (Registry.removeFile "b.go" (.touchRun 0
      [[Sample.unit "foo" "a.go"], [Sample.unit "foo" "a.go", Sample.unit "foo" "b.go"]])).tally
        "Function_foo_a.go" = some (Sample.unit "foo" "a.go", 2) := by
  have hapart : CodeUnit.KeysApart
      [Sample.unit "foo" "a.go", Sample.unit "foo" "a.go", Sample.unit "foo" "b.go"] :=
    CodeUnit.keysApart_of_no_underscore (by decide)
  refine ⟨fun u hu v hv => hapart u (List.mem_cons_of_mem _ hu) v (List.mem_cons_of_mem _ hv), ?_⟩
  have howns := (units_own_entries_iff 0
    [[Sample.unit "foo" "a.go"], [Sample.unit "foo" "a.go", Sample.unit "foo" "b.go"]]).2.1 hapart
    (Sample.unit "foo" "a.go") (by decide)
  exact (howns.1 "b.go" (by decide)).tally

/-- **Two units of one key share an entry**: one commit touches both, the entry is of the first one
alone, and goes when the file of that one is removed. -/
theorem units_of_one_key :
    Sample.run ≠ Sample.runIo ∧ Sample.run.file ≠ Sample.runIo.file ∧
    (Registry.touchRun 0 [[Sample.run, Sample.runIo]]).size = 1 ∧
    ¬ (Registry.touchRun 0 [[Sample.run, Sample.runIo]]).Owns [[Sample.run, Sample.runIo]]
      Sample.runIo ∧
    ((Registry.touchRun 0 [[Sample.run, Sample.runIo]]).removeFile "io_util.go").size = 0 := by
  refine ⟨by decide, by decide, by decide, fun h => ?_, by decide⟩
  have htally := h.tally
  rw [Registry.tally_touchRun] at htally
  exact absurd htally (by decide)

end CoChange
