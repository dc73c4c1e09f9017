import CoChange.Proofs.Metrics.Hotness
import CoChange.Proofs.Metrics.Totals
import CoChange.Proofs.Sharding

/-!
# Statistics of commits and metrics agree

An engine counts twice: for each commit how many units and how many pairs it touched, and in its
registry the changes and the common changes of each unit. While nothing is deleted, the two accounts
agree.

* **`Accounted.step`**: a commit adds the same to both, if its renames give no two units one key and
  move nothing that it touched before. A merge that comes again adds to neither.
* **`Tracks.accounted`**: so it is after an admissible history without deletions, of which no two
  commits have one hash.
* **`RawReport.AddsUp`**: what that means for a report, where couplings stand once.
* **`metrics_account_for_stats`**: the result, also for forks that are merged and for runs in
  shards.
-/

namespace CoChange

/-! ## Renames of an admissible history -/

namespace Describes

section Commit

variable {q : UnitQuery} {commits before after : List Commit} {c : Commit} {r : Registry}
  {counted : Nat → Bool}

/-- **The renames of an admissible commit give no two units one key.** Units with different keys
have them before and after the renames, so no two keys that move can meet, nor one of them a key
that is there. -/
theorem renamesSeparate (hadm : Admissible q commits) (hsplit : commits = before ++ c :: after)
    (hskip : (Chronicle.of q before).skips c = false)
    (h : Describes counted (Chronicle.of q before).journal r) (hi : counted before.length = false) :
    Engine.RenamesSeparate q r c := by
  intro done source target ahead hevents
  have hreach : Reaches q commits
      (Chronicle.during q before done) (.rename source target :: ahead) :=
    ⟨before, c, after, done, hsplit, hskip, hevents, rfl⟩
  have hnext : Reaches q commits ((Chronicle.during q before done).rename source target) ahead := by
    refine ⟨before, c, after, done ++ [.rename source target], hsplit, hskip, ?_, ?_⟩
    · rw [hevents, List.append_assoc, List.singleton_append]
    · rw [Chronicle.during_append_singleton]
      rfl
  -- in front of the rename the journal describes the registry, and behind it no two units have one
  -- key
  exact (h.during hadm hsplit hskip hi hevents).describes.separates
    (hadm.untracked _ source target ahead hreach)
    fun u v hu hv => hadm.distinct u v ⟨_, _, hnext, hu⟩ ⟨_, _, hnext, hv⟩

/-- **They move nothing that the commit has touched before.** A path that is renamed is named by no
other change, and touches behind the rename are under the new path. -/
theorem touchedStay (hadm : Admissible q commits) (hsplit : commits = before ++ c :: after)
    (hskip : (Chronicle.of q before).skips c = false)
    (h : Describes counted (Chronicle.of q before).journal r) (hi : counted before.length = false) :
    Registry.Pass.TouchedStay ⟨r, ∅⟩ (c.events q) := by
  intro done source target ahead hevents k hk hmoves
  have hmid := h.during hadm hsplit hskip hi hevents
  rw [Registry.Pass.mem_touched_foldl, or_iff_left (SortedMap.not_mem_empty k)] at hk
  obtain ⟨u, hu, rfl⟩ := hk
  obtain ⟨S, hS, _⟩ := (hmid.noted u).mpr hu
  -- what is moved is of the old file, and so is the unit
  have hfile : u.file = source :=
    (hmid.describes.lists_iff (Option.isSome_of_eq_some hS)).mp (Registry.mem_moves.mp hmoves).1
  have hpairs :=
    (hadm.apart c (hsplit ▸ List.mem_append_right _ List.mem_cons_self)).pairwise_events q
  rw [hevents, List.pairwise_append] at hpairs
  exact hpairs.2.2 _ hu _ List.mem_cons_self u source target rfl rfl hfile

end Commit

end Describes

/-! ## Both accounts -/

/-- The statistics of the commits add up to what the registry has: each changed unit is one change,
and each pair stands on both sides. -/
structure Engine.Accounted (e : Engine) : Prop where
  changes : e.registry.entries.total = (e.stats.values.map (·.unitsTouched)).sum
  pairs : e.registry.entries.pairTotal = 2 * (e.stats.values.map (·.couplingPairs)).sum

theorem CommitStats.two_mul_couplingPairs (n : Nat) :
    2 * (ofTouched n).couplingPairs = n * (n - 1) :=
  Nat.mul_div_cancel' (Nat.even_mul_pred_self n).two_dvd

namespace Engine

variable {e : Engine} {c : Commit}

theorem accounted_new (q : UnitQuery) (cap : Nat) : (new q cap).Accounted := ⟨rfl, rfl⟩

/-- What the statistics of the commits add up to grows by those of the commit that is taken. A
commit that touches nothing has none, and would add nothing. -/
theorem sum_stats_step (htakes : e.takes c = true) (hnew : c.hash ∉ e.stats) (f : CommitStats → Nat)
    (hzero : f (.ofTouched 0) = 0) :
    ((e.step c).stats.values.map f).sum =
      (e.stats.values.map f).sum + f (.ofTouched (passOf e.query e.registry c).touched.size) := by
  have hstats : (e.step c).stats = e.statsAfter c := by rw [step_eq]
  rw [hstats, statsAfter, htakes, Bool.true_and]
  cases hempty : (passOf e.query e.registry c).touched.isEmpty with
  | false =>
    rw [Bool.not_false, if_pos rfl]
    exact SortedMap.sum_values_insert hnew _ f
  | true =>
    -- a commit that touches nothing is not entered, and would count for nothing
    have hsize : (passOf e.query e.registry c).touched.size = 0 :=
      List.length_eq_zero_iff.mpr (List.isEmpty_iff.mp hempty)
    rw [hsize, hzero]
    rfl

/-- **A commit that deletes nothing adds the same to both accounts.** What it adds to the counts is
the number of touched keys, and what it adds to the couplings is one for each pair of them, which is
what its statistics say. -/
theorem Accounted.step (h : e.Accounted) (hcap : e.cap = 0) (hm : e.registry.entries.Mutual)
    (hnew : c.hash ∉ e.stats) (hkeep : deletedFiles c = [])
    (hsep : e.takes c = true → RenamesSeparate e.query e.registry c)
    (hstay : e.takes c = true → Registry.Pass.TouchedStay ⟨e.registry, ∅⟩ (c.events e.query)) :
    (e.step c).Accounted := by
  cases htakes : e.takes c with
  | false =>
    -- a merge that is passed over leaves both sides as they are
    have hregistry : (e.step c).registry = e.registry := by
      rw [registry_step, htakes, if_neg Bool.false_ne_true]
    have hstats : (e.step c).stats = e.stats := by
      rw [step_eq]
      show e.statsAfter c = e.stats
      rw [statsAfter, htakes, Bool.false_and, if_neg Bool.false_ne_true]
    exact ⟨by rw [hregistry, hstats, h.changes], by rw [hregistry, hstats, h.pairs]⟩
  | true =>
    have hregistry : (e.step c).registry = (applyCommit e.query 0 e.registry c).registry := by
      rw [registry_step, htakes, if_pos rfl, hcap]
    constructor
    · rw [hregistry, total_applyCommit 0 hm (hsep htakes) (hstay htakes) hkeep, h.changes,
        sum_stats_step htakes hnew _ rfl]
      rfl
    · rw [hregistry, pairTotal_applyCommit hm (hsep htakes) (hstay htakes) hkeep, h.pairs,
        sum_stats_step htakes hnew _ rfl, Nat.mul_add, CommitStats.two_mul_couplingPairs]

/-- An engine has statistics only of commits that it has consumed. -/
theorem mem_stats_run {q : UnitQuery} {cap : Nat} {commits : List Commit} {hash : String}
    (h : hash ∈ ((new q cap).run commits).stats) : hash ∈ commits.map (·.hash) := by
  induction commits using List.reverseRecOn with
  | nil => exact absurd h (SortedMap.not_mem_empty hash)
  | append_singleton before c ih =>
    rw [run_append] at h
    have hstats : hash ∈ ((new q cap).run before).statsAfter c := by
      have hstep : (((new q cap).run before).run [c]).stats =
          ((new q cap).run before).statsAfter c := by
        show (((new q cap).run before).step c).stats = _
        rw [step_eq]
      rwa [hstep] at h
    rw [List.map_append, List.mem_append, List.map_singleton, List.mem_singleton]
    -- the last commit is entered under its own hash, if at all
    rw [statsAfter] at hstats
    split at hstats
    · exact (SortedMap.mem_insert.mp hstats).elim Or.inr fun hold => Or.inl (ih hold)
    · exact Or.inl (ih hstats)

/-- **Both accounts agree after an admissible history** that deletes nothing and repeats no hash.
The induction is on the history, and the journal of the commits so far gives what a step asks
for. -/
theorem accounted_run {q : UnitQuery} {commits : List Commit} (hadm : Admissible q commits)
    (hkeep : ∀ c ∈ commits, deletedFiles c = []) (honce : (commits.map (·.hash)).Nodup) :
    ((new q 0).run commits).Accounted := by
  induction commits using List.reverseRecOn with
  | nil => exact accounted_new q 0
  | append_singleton before c ih =>
    rw [List.map_append, List.map_singleton, List.nodup_append'] at honce
    obtain ⟨hbefore, _, hapart⟩ := honce
    have hsplit : before ++ [c] = before ++ c :: [] := rfl
    have hcounted : smallAt q 0 before before.length = false := by simp [smallAt]
    have htracks : Tracks q 0 before ((new q 0).run before) := tracks_run hadm.of_append
    have hskip : ((new q 0).run before).takes c = true → (Chronicle.of q before).skips c = false :=
      fun htakes => by rwa [htracks.takes c, Bool.not_eq_true'] at htakes
    have hcoh := htracks.describes.coherent
    have hold := ih hadm.of_append (fun c' hc' => hkeep c' (List.mem_append_left _ hc')) hbefore
    rw [run_append]
    -- the last hash is new, and an admissible history keeps the units of the commit apart
    refine hold.step htracks.cap_eq ⟨hcoh.symmetric, hcoh.closed⟩ (fun hmem => ?_)
      (hkeep c (List.mem_append_right _ (List.mem_singleton.mpr rfl)))
        (fun htakes => ?_) fun htakes => ?_
    · exact hapart (mem_stats_run hmem) (List.mem_singleton.mpr rfl)
    · rw [htracks.query_eq]
      exact htracks.describes.renamesSeparate hadm hsplit (hskip htakes) hcounted
    · rw [htracks.query_eq]
      exact htracks.describes.touchedStay hadm hsplit (hskip htakes) hcounted

end Engine

/-! ## The report -/

/-- The report has as many changes as the commits touched units, and its metrics as many common
changes as the commits touched pairs. The total in the metrics is that number as long as a word of
64 bits holds it, and what a word holds of it otherwise. -/
structure RawReport.AddsUp (r : RawReport) : Prop where
  counts : r.counts.sum = (r.commitStats.values.map (·.unitsTouched)).sum
  changes : (r.commitStats.values.map (·.unitsTouched)).sum < 2 ^ 64 →
    r.metrics.totals.changes = (r.commitStats.values.map (·.unitsTouched)).sum
  word : r.metrics.totals.changes = (r.commitStats.values.map (·.unitsTouched)).sum % 2 ^ 64
  pairs : (r.metrics.couplings.map (·.changes)).sum =
    (r.commitStats.values.map (·.couplingPairs)).sum

/-- What the registry and the statistics of an engine agree on, its report agrees on. -/
theorem Engine.Accounted.addsUp {e : Engine} (h : e.Accounted)
    (hcoh : e.registry.entries.Coherent) :
    e.finalize.AddsUp := by
  have hcounts : e.finalize.counts.sum = (e.finalize.commitStats.values.map (·.unitsTouched)).sum :=
    (RawReport.sum_counts e.stats hcoh.irreflexive).trans h.changes
  have hword : e.finalize.metrics.totals.changes =
      (e.finalize.commitStats.values.map (·.unitsTouched)).sum % 2 ^ 64 :=
    hcounts ▸ RawReport.wordSum_eq e.finalize.counts
  exact {
    counts := hcounts
    changes := fun hfits => hword.trans (Nat.mod_eq_of_lt hfits)
    word := hword
    pairs := Nat.eq_of_mul_eq_mul_left
      Nat.two_pos ((RawReport.sum_couplings e.stats hcoh).trans h.pairs) }

/-- **The statistics of commits account for the metrics.** After an admissible history that deletes
nothing and repeats no hash, the report of an engine that started empty adds up, if no cap keeps
pairs from being counted. If the commits are plain, so do the report of forks that consume
consecutive shards and are merged, and that of a run in shards. -/
theorem metrics_account_for_stats {q : UnitQuery} {commits : List Commit}
    (hadm : Admissible q commits) (hkeep : ∀ c ∈ commits, ∀ ch ∈ c.changes, ch.kind ≠ .deleted)
    (honce : (commits.map (·.hash)).Nodup) :
    ((Engine.new q 0).run commits).finalize.AddsUp ∧
    ((∀ c ∈ commits, c.IsPlain) →
      (∀ shards : List (List Commit), shards.flatten = commits →
        ((Engine.new q 0).merge
          (List.zipWith Engine.run ((Engine.new q 0).fork shards.length) shards)).finalize.AddsUp) ∧
      ∀ (ids : List String) (fetch : String → Commit) (open_ : OpenHistory)
        (finish : List (Nat × Run) → List (Nat × Run)) (shards : Nat),
        ids.map fetch = commits → Yields fetch ids open_ → (∀ l, (finish l).Perm l) →
        (Sharded.runFinishing finish false
          (Engine.new q 0) ids shards open_).engine.finalize.AddsUp) := by
  have hfiles : ∀ c ∈ commits, Engine.deletedFiles c = [] := fun c hc => by
    rw [Engine.deletedFiles, List.map_eq_nil_iff, List.filter_eq_nil_iff]
    exact fun ch hch hdel => hkeep c hc ch hch (beq_iff_eq.mp hdel)
  have hwhole : ((Engine.new q 0).run commits).finalize.AddsUp :=
    (Engine.accounted_run hadm hfiles honce).addsUp (tracks_run hadm).describes.coherent
  refine ⟨hwhole, fun hplain => ?_⟩
  have hfresh : (Engine.new q 0).FreshMerges commits :=
    freshMerges_new q 0 (honce.sublist (List.filter_sublist.map _))
  constructor
  · rintro shards rfl
    rw [Engine.zipWith_fork, Engine.finalize_eq_of_ledger (Engine.ledger_merge_fork hplain hfresh)]
    exact hwhole
  · rintro ids fetch open_ finish shards rfl hyields hfinish
    rw [(Sharded.finalize_runFinishing hplain hfresh hyields hfinish shards).2]
    exact hwhole

/-! ### Two small histories

A file with two functions is added. Then it is renamed and one of them is edited; or it stays where
it is, and a merge edits one of them. -/

namespace Sample

theorem events_merge : merge.events query = [.touch (unit "foo" "a.go")] := by decide +kernel

/-- The second history is admissible: its units have different keys, and it renames nothing. -/
theorem admissible_merge : Admissible query [first, merge] where
  apart := by
    simp only [List.forall_mem_cons, Commit.NamesApart, first, merge, List.pairwise_singleton]
    exact ⟨trivial, trivial, by simp⟩
  distinct := fun u v ⟨_, _, hJ, hu⟩ ⟨_, _, hJ', hv⟩ => by
    have hkeeps : ∀ c ∈ [first, merge], ∀ event ∈ c.events query, event.Keeps (· ∈ units) := by
      simp only [List.forall_mem_cons, events_first, events_merge, Event.Keeps]
      exact ⟨⟨by decide, by decide, by simp⟩, ⟨by decide, by simp⟩, by simp⟩
    have hdistinct : ∀ u ∈ units, ∀ v ∈ units, u.key = v.key → u = v := by decide
    exact hdistinct u (hJ.all hkeeps u hu) v (hJ'.all hkeeps v hv)
  untracked := by
    rintro J source target ahead ⟨before, c, after, done, hsplit, _, hevents, _⟩
    have hc : c ∈ [first, merge] := hsplit ▸ List.mem_append_right _ List.mem_cons_self
    have hmem : Event.rename source target ∈ c.events query :=
      hevents ▸ List.mem_append_right _ List.mem_cons_self
    rw [(isPlain c hc).events query] at hmem
    obtain ⟨u, _, hu⟩ := List.mem_map.mp hmem
    exact absurd hu (by simp)

end Sample

/-- The history with the renaming adds up. The one without adds up as well when it is run in two
branches that are merged, and in two shards that finish the other way round. -/
theorem metrics_account_for_stats_sample :
    let e := Engine.new Sample.query 0
    let open_ : OpenHistory := fun part => .ok (part.map fun id => ⟨.ok (Sample.fetch id), false⟩)
    Admissible Sample.query [Sample.first, Sample.second] ∧
    (e.run [Sample.first, Sample.second]).finalize.AddsUp ∧
    (e.run [Sample.first, Sample.second]).finalize.metrics.totals.changes = 3 ∧
    Admissible Sample.query [Sample.first, Sample.merge] ∧
    (e.merge [e.reset.run [Sample.first], e.reset.run [Sample.merge]]).finalize.AddsUp ∧
    (Sharded.runFinishing List.reverse
      false e ["first", "merge"] 2 open_).engine.finalize.AddsUp := by
  intro e open_
  have hrenamed := metrics_account_for_stats Sample.admissible (by decide) (by decide)
  have hplain :=
    (metrics_account_for_stats Sample.admissible_merge (by decide) (by decide)).2 Sample.isPlain
  exact ⟨Sample.admissible, hrenamed.1, by decide +kernel, Sample.admissible_merge,
    hplain.1 [[Sample.first], [Sample.merge]] rfl,
    hplain.2 ["first", "merge"] Sample.fetch
      open_ List.reverse 2 rfl (fun _ _ => rfl) List.reverse_perm⟩

end CoChange
