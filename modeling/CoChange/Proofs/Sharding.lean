import CoChange.Proofs.Partition
import CoChange.Proofs.Registry.Absorption
import CoChange.Run.Sharded

/-!
# Shards and one engine agree

A history of plain commits can be cut into shards: forks that consume one shard each and are merged
in order leave what one engine leaves that consumes everything.

* `Engine.ledger`: what an engine has consumed, without the index of its registry. Ledgers are added
  by `Ledger.join`, which is associative.
* **`ledger_run`**: the ledger after plain commits is that before them, with the ledger of the
  commits alone added.
* **`ledger_merge_fork`**: so merging the forks of consecutive shards adds up to the whole.
* **`runFinishing_eq`**: a run in shards over a history that yields its commits merges the forks of
  the slices, in whatever order the workers finish. So it reports what a run of one engine reports
  (`finalize_runFinishing`).
* **`fork_merge_eq_run`**: the result, for merged forks and for runs in shards.

Merges have to be new, each once: a fork does not know what the others have consumed.
-/

namespace CoChange

/-- What an engine has consumed. -/
@[ext]
structure Ledger where
  entries : Entries
  merges : SortedSet String
  stats : SortedMap String CommitStats
  processed : Nat
  last : Option String

namespace Ledger

/-- Adds what was consumed after it. -/
def join (a b : Ledger) : Ledger where
  entries := a.entries.join b.entries
  merges := SortedMap.union a.merges b.merges
  stats := a.stats.union b.stats
  processed := a.processed + b.processed
  last := b.last.or a.last

instance {α : Type} : Std.Associative (fun (_ v : α) => v) where
  assoc := fun _ _ _ => rfl

/-- Ledgers are joined in any grouping. -/
theorem join_assoc (a b c : Ledger) : (a.join b).join c = a.join (b.join c) := by
  simp only [join, Entries.join_assoc, SortedMap.union, SortedMap.unionWith_assoc, Nat.add_assoc,
    Option.or_assoc]

end Ledger

namespace Engine

open Registry

/-- The ledger of an engine; a log that is asleep counts as empty. -/
def ledger (e : Engine) : Ledger :=
  ⟨e.registry.entries, e.merges.seen.getD ∅, e.stats, e.processed, e.last⟩

/-- What an engine counts after a branch was absorbed is what both count, taken together. -/
theorem ledger_absorb (e branch : Engine) :
    (e.absorb branch).ledger = e.ledger.join branch.ledger := by
  have hmerges : (e.merges.union branch.merges).seen.getD ∅ =
      SortedMap.union (e.merges.seen.getD ∅) (branch.merges.seen.getD ∅) := by
    unfold MergeLog.union
    cases branch.merges.seen with
    | none => exact (SortedMap.unionWith_empty _ _).symm
    | some hashes => rfl
  have hlast : (e.absorb branch).last = branch.last.or e.last := by
    unfold absorb
    cases branch.last <;> rfl
  exact Ledger.ext rfl hmerges rfl rfl hlast

/-- What an engine counts after a merge is what it and the branches count, taken together in their
order. -/
theorem ledger_merge (e : Engine) (branches : List Engine) :
    (e.merge branches).ledger = (branches.map ledger).foldl Ledger.join e.ledger := by
  show (branches.foldl absorb e).ledger = _
  induction branches generalizing e with
  | nil => rfl
  | cons b rest ih => rw [List.foldl_cons, ih, ledger_absorb, List.map_cons, List.foldl_cons]

/-! ## One commit -/

/-- No merge comes twice or is in the log. -/
structure FreshMerges (e : Engine) (commits : List Commit) : Prop where
  nodup : ((commits.filter (·.isMerge)).map (·.hash)).Nodup
  new : ∀ c ∈ commits, c.isMerge = true → c.hash ∉ e.merges.seen.getD ∅

section Fresh

variable {e : Engine} {c : Commit} {commits more : List Commit}

/-- A commit whose hash is new is taken. -/
theorem FreshMerges.takes (h : e.FreshMerges (c :: commits)) : e.takes c = true := by
  rw [takes_eq]
  cases hm : c.isMerge with
  | false => rfl
  | true => simp [h.new c List.mem_cons_self hm]

/-- After a commit, the merges of the rest are new: the log has grown by the commit at most, and
that does not come again. -/
theorem FreshMerges.stepIn (h : e.FreshMerges (c :: commits)) (orders : TableOrders) :
    (e.stepIn orders c).FreshMerges commits where
  nodup := by
    have hnodup := h.nodup
    rw [List.filter_cons] at hnodup
    split at hnodup
    · exact (List.nodup_cons.mp hnodup).2
    · exact hnodup
  new := by
    intro c' hc' hm' hmem
    rcases (mem_seen_stepIn orders e c c'.hash).mp hmem with ⟨hm, heq⟩ | hold
    · -- the step recorded this hash, so it comes a second time
      have hnodup := h.nodup
      rw [List.filter_cons, if_pos hm, List.map_cons, List.nodup_cons] at hnodup
      exact hnodup.1 (heq ▸ List.mem_map_of_mem (List.mem_filter.mpr ⟨hc', hm'⟩))
    · exact h.new c' (List.mem_cons_of_mem _ hc') hm' hold

/-- Merges that are new to an engine are new to a fork of it. -/
theorem FreshMerges.reset (h : e.FreshMerges commits) : e.reset.FreshMerges commits :=
  ⟨h.nodup, fun c _ _ => SortedMap.not_mem_empty c.hash⟩

/-- Merges that are new all along are new in the first part. -/
theorem FreshMerges.of_append (h : e.FreshMerges (commits ++ more)) : e.FreshMerges commits where
  nodup := by
    have hnodup := h.nodup
    rw [List.filter_append, List.map_append] at hnodup
    exact hnodup.of_append_left
  new := fun c hc => h.new c (List.mem_append_left _ hc)

/-- After the first part of the commits, the merges of the rest are still new. -/
theorem FreshMerges.runIn (h : e.FreshMerges (commits ++ more)) (orders : TableOrders) :
    (e.runIn orders commits).FreshMerges more := by
  induction commits generalizing e with
  | nil => exact h
  | cons c rest ih =>
    rw [runIn_cons]
    exact ih (h.stepIn orders)

/-- What is new behind a commit is new to the engine that the commit leaves. -/
theorem FreshMerges.step (h : e.FreshMerges (c :: commits)) : (e.step c).FreshMerges commits :=
  h.stepIn .byKey

/-- So it is behind several commits. -/
theorem FreshMerges.run (h : e.FreshMerges (commits ++ more)) : (e.run commits).FreshMerges more :=
  h.runIn .byKey

end Fresh

@[simp] theorem reset_step (e : Engine) (c : Commit) : (e.step c).reset = e.reset := by
  rw [reset, query_step, cap_step, reset]

@[simp] theorem reset_run (e : Engine) (commits : List Commit) :
    (e.run commits).reset = e.reset := by
  rw [reset, query_run, cap_run, reset]

@[simp] theorem reset_reset (e : Engine) : e.reset.reset = e.reset := rfl

/-- The log of merges after a commit is what it was, with what an empty engine has after the
commit. -/
theorem seen_step (e : Engine) (c : Commit) :
    (e.step c).merges.seen.getD ∅ =
      SortedMap.union (e.merges.seen.getD ∅) ((e.reset.step c).merges.seen.getD ∅) := by
  refine SortedSet.ext_mem fun hash => ?_
  rw [SortedMap.union, SortedMap.mem_unionWith, mem_seen_step, mem_seen_step]
  have hnone : hash ∉ e.reset.merges.seen.getD ∅ := SortedMap.not_mem_empty hash
  tauto

/-- **A plain commit that is taken adds what it leaves in an empty engine.** The entries are joined,
the statistics are united, and the log has one more hash if the commit is a merge. -/
theorem ledger_step {e : Engine} {c : Commit} (hplain : c.IsPlain) (htakes : e.takes c = true) :
    (e.step c).ledger = e.ledger.join (e.reset.step c).ledger := by
  have htakes₀ : e.reset.takes c = true := by
    have hnone : c.hash ∉ e.reset.merges.seen.getD ∅ := SortedMap.not_mem_empty c.hash
    rw [takes_eq]
    simp [hnone]
  have hentries : (e.step c).registry.entries =
      e.registry.entries.join (e.reset.step c).registry.entries := by
    rw [registry_step, registry_step, if_pos htakes, if_pos htakes₀]
    exact entries_applyCommit hplain e.registry
  -- the statistics of a commit are told by the touched keys, which the registry does not matter to
  have hstats : (e.step c).stats = e.stats.union (e.reset.step c).stats := by
    rw [step_eq, step_eq]
    show e.statsAfter c = e.stats.union (e.reset.statsAfter c)
    have htouched : (passOf e.reset.query e.reset.registry c).touched =
        (passOf e.query e.registry c).touched := touched_passOf e.query _ _ c
    simp only [statsAfter, htakes, htakes₀, htouched, Bool.true_and]
    cases (passOf e.query e.registry c).touched.isEmpty with
    | true => exact (SortedMap.unionWith_empty _ _).symm
    | false =>
      refine SortedMap.ext_get? fun hash => ?_
      simp only [Bool.not_false, if_true]
      rw [SortedMap.get?_insert, SortedMap.union, SortedMap.get?_unionWith, SortedMap.get?_insert]
      have hnone : e.reset.stats.get? hash = none := SortedMap.get?_empty hash
      by_cases hh : hash = c.hash
      · rw [if_pos hh, if_pos hh]
        cases e.stats.get? hash <;> rfl
      · rw [if_neg hh, if_neg hh, hnone, Option.merge_none_right]
  have hprocessed : (e.step c).processed = e.processed + (e.reset.step c).processed := by
    rw [step_eq, step_eq]
    exact congrArg (e.processed + ·) (Nat.zero_add 1).symm
  have hlast : (e.step c).last = (e.reset.step c).last.or e.last := by
    rw [step_eq, step_eq]
    rfl
  exact Ledger.ext hentries (seen_step e c) hstats hprocessed hlast

/-! ## Several commits -/

/-- An engine that has consumed nothing adds nothing. -/
theorem join_ledger_reset (l : Ledger) (e : Engine) : l.join e.reset.ledger = l :=
  Ledger.ext (Entries.join_empty _) (SortedMap.unionWith_empty _ _) (SortedMap.unionWith_empty _ _)
    rfl Option.none_or

/-- **Plain commits add what they leave in an empty engine.** The induction is on the commits, and
joining is associative. -/
theorem ledger_run {e : Engine} {commits : List Commit} (hplain : ∀ c ∈ commits, c.IsPlain)
    (hfresh : e.FreshMerges commits) :
    (e.run commits).ledger = e.ledger.join (e.reset.run commits).ledger := by
  induction commits generalizing e with
  | nil => exact (join_ledger_reset e.ledger e).symm
  | cons c rest ih =>
    obtain ⟨hc, hrest⟩ := List.forall_mem_cons.mp hplain
    calc ((e.step c).run rest).ledger
        = (e.step c).ledger.join (e.reset.run rest).ledger := by
          rw [ih hrest hfresh.step, reset_step]
      _ = e.ledger.join ((e.reset.step c).ledger.join (e.reset.run rest).ledger) := by
          rw [ledger_step hc hfresh.takes, Ledger.join_assoc]
      _ = e.ledger.join ((e.reset.step c).run rest).ledger := by
          rw [ih hrest hfresh.reset.step, reset_step, reset_reset]

/-- **Forks that consume consecutive shards add up to one engine that consumes them all.** The
induction is on the shards. What the rest adds does not depend on what the first ones left. -/
theorem ledger_merge_fork {e : Engine} {shards : List (List Commit)}
    (hplain : ∀ c ∈ shards.flatten, c.IsPlain) (hfresh : e.FreshMerges shards.flatten) :
    (e.merge (shards.map e.reset.run)).ledger = (e.run shards.flatten).ledger := by
  rw [ledger_merge]
  induction shards generalizing e with
  | nil => rfl
  | cons s rest ih =>
    rw [List.flatten_cons] at hplain hfresh
    obtain ⟨hs, hrest⟩ := List.forall_mem_append.mp hplain
    -- with the first fork merged, the rest is merged into an engine that has consumed its shard
    rw [List.map_cons, List.map_cons, List.foldl_cons, ← ledger_run hs hfresh.of_append,
      List.flatten_cons, run_append, ← ih hrest hfresh.run, reset_run]

/-- All forks of an engine are the same, an empty engine with its settings. -/
theorem eq_reset_of_mem_fork {e fork : Engine} {n : Nat} (h : fork ∈ e.fork n) : fork = e.reset :=
  List.eq_of_mem_replicate h

/-- The forks of an engine, each with its shard. -/
theorem zipWith_fork (e : Engine) (shards : List (List Commit)) :
    List.zipWith run (e.fork shards.length) shards = shards.map e.reset.run := by
  induction shards with
  | nil => rfl
  | cons s rest ih => exact congrArg (_ :: ·) ih

/-! ## The index -/

/-- What every commit of a history keeps of a registry, a run over the history keeps. -/
theorem registry_run_of_applyCommit {P : Registry → Prop} {e : Engine} {commits : List Commit}
    (hkeeps : ∀ c ∈ commits, ∀ r, P r → P (applyCommit e.query e.cap r c).registry)
    (h : P e.registry) :
    P (e.run commits).registry := by
  induction commits generalizing e with
  | nil => exact h
  | cons c rest ih =>
    obtain ⟨hc, hrest⟩ := List.forall_mem_cons.mp hkeeps
    refine ih (e := e.step c) (by simpa only [query_step, cap_step] using hrest) ?_
    rw [registry_step]
    split
    · exact hc _ h
    · exact h

/-- Plain commits keep the file index in step with the entries. -/
theorem indexed_run {e : Engine} {commits : List Commit} (hplain : ∀ c ∈ commits, c.IsPlain)
    (h : e.registry.Indexed) : (e.run commits).registry.Indexed :=
  registry_run_of_applyCommit (fun _ hc _ => indexed_applyCommit (hplain _ hc)) h

theorem populated_run {e : Engine} {commits : List Commit} (hplain : ∀ c ∈ commits, c.IsPlain)
    (h : e.registry.files.Populated) : (e.run commits).registry.files.Populated :=
  registry_run_of_applyCommit (P :=
    fun r => r.files.Populated) (fun _ hc _ => populated_applyCommit (hplain _ hc)) h

end Engine

theorem freshMerges_new (query : UnitQuery) (cap : Nat) {commits : List Commit}
    (h : ((commits.filter (·.isMerge)).map (·.hash)).Nodup) :
    (Engine.new query cap).FreshMerges commits :=
  ⟨h, fun c _ _ => SortedMap.not_mem_empty c.hash⟩

/-! ## Runs in shards -/

/-- The history yields the commits of any piece of the identifiers. -/
def Yields (fetch : String → Commit) (ids : List String) (open_ : OpenHistory) : Prop :=
  ∀ part, part <:+: ids → open_ part = .ok (part.map fun id => ⟨.ok (fetch id), false⟩)

/-- Pulls that give the commits in order, and never a request to stop. -/
def pullsOf (commits : List Commit) : List Pull := commits.map fun c => ⟨.ok c, false⟩

/-- Commits that a history yields are consumed one by one, in front of whatever it does next. -/
theorem driveFromIn_pullsOf_append (orders : TableOrders) (commits : List Commit)
    (rest : List Pull) (consumed : Nat) (e : Engine) :
    driveFromIn orders consumed false e (pullsOf commits ++ rest) =
      driveFromIn orders (consumed + commits.length) false (e.runIn orders commits) rest := by
  induction commits generalizing consumed e with
  | nil => rfl
  | cons c commits ih =>
    have hcons : pullsOf (c :: commits) ++ rest = ⟨.ok c, false⟩ :: (pullsOf commits ++ rest) := rfl
    rw [hcons, driveFromIn, if_neg (by simp)]
    show driveFromIn orders (consumed + 1) false (e.stepIn orders c) _ = _
    rw [ih, List.length_cons, Nat.add_assoc, Nat.add_comm 1]
    rfl

/-- Commits that are pulled are all consumed. -/
theorem openAndDriveIn_pullsOf (orders : TableOrders) (commits : List Commit) (e : Engine) :
    openAndDriveIn orders false e (.ok (pullsOf commits)) =
      ⟨e.runIn orders commits, false, .ok commits.length⟩ := by
  have happend := driveFromIn_pullsOf_append orders commits [] 0 e
  rw [List.append_nil, Nat.zero_add] at happend
  exact happend

theorem pullsOf_map (fetch : String → Commit) (ids : List String) :
    pullsOf (ids.map fetch) = ids.map fun id => ⟨.ok (fetch id), false⟩ := List.map_map

/-- Commits that are yielded are consumed before the rest of the history. -/
theorem driveFromIn_append (orders : TableOrders) (fetch : String → Commit) (ids : List String)
    (rest : List Pull) (consumed : Nat) (e : Engine) :
    driveFromIn orders consumed false e (ids.map (fun id => ⟨.ok (fetch id), false⟩) ++ rest) =
      driveFromIn orders (consumed + ids.length) false (e.runIn orders (ids.map fetch)) rest := by
  rw [← pullsOf_map, driveFromIn_pullsOf_append, List.length_map]

theorem openAndDrive_yielded {fetch : String → Commit} {ids part : List String}
    {open_ : OpenHistory} (h : Yields fetch ids open_) (hpart : part <:+: ids) (e : Engine) :
    openAndDrive false e (open_ part) = ⟨e.run (part.map fetch), false, .ok part.length⟩ := by
  have hpulled := openAndDriveIn_pullsOf .byKey (part.map fetch) e
  rwa [pullsOf_map, ← h part hpart, List.length_map] at hpulled

namespace Sharded

/-- Of pairs with different first parts, each can be looked up, in whatever order they stand. -/
theorem lookup_of_mem {κ α : Type} [BEq κ] [LawfulBEq κ] {l : List (κ × α)}
    (hl : (l.map (·.1)).Nodup) {a : κ × α} (ha : a ∈ l) : l.lookup a.1 = some a.2 := by
  induction l with
  | nil => simp at ha
  | cons b rest ih =>
    rw [List.map_cons, List.nodup_cons] at hl
    rcases List.mem_cons.mp ha with rfl | hrest
    · rw [List.lookup_cons, beq_self_eq_true]
    · have hne : (a.1 == b.1) = false := by
        rw [beq_eq_false_iff_ne]
        exact fun heq => hl.1 (heq ▸ List.mem_map_of_mem hrest)
      rw [List.lookup_cons, hne]
      exact ih hl.2 hrest

/-- **Numbered runs come in the order of their numbers, whatever order they stand in.** Each number
occurs once, so sorting by it gives one list. -/
theorem inOrder_numbered {runs : List Run} {finished : List (Nat × Run)}
    (h : finished.Perm (runs.zipIdx.map Prod.swap)) : inOrder runs.length finished = runs := by
  -- the numbers are those that are looked up
  have hkeys : (runs.zipIdx.map Prod.swap).map (·.1) = List.range runs.length := by
    rw [List.map_map, List.range_eq_range', ← List.zipIdx_map_snd]
    rfl
  have hnodup : (finished.map (·.1)).Nodup := by
    rw [(h.map _).nodup_iff, hkeys]
    exact List.nodup_range
  have hlookup : ∀ a ∈ runs.zipIdx.map Prod.swap, List.lookup a.1 finished = some a.2 :=
    fun a ha => lookup_of_mem hnodup (h.mem_iff.mpr ha)
  calc inOrder runs.length finished
      = (runs.zipIdx.map Prod.swap).filterMap fun a => List.lookup a.1 finished := by
        rw [inOrder, ← hkeys, List.filterMap_map]
        rfl
    _ = (runs.zipIdx.map Prod.swap).filterMap fun a => some a.2 := List.filterMap_congr hlookup
    _ = runs.zipIdx.map (·.1) := by
        rw [List.filterMap_map, ← List.filterMap_eq_map]
        rfl
    _ = runs := List.zipIdx_map_fst ..

/-- The workers have the numbers of their shards. -/
theorem workers_eq (stopped : Bool) (e : Engine) (ids : List String) (ranges : List Range)
    (open_ : OpenHistory) :
    workers stopped e ids ranges open_ =
      (ranges.map fun r => openAndDrive stopped e.reset (open_ (r.slice ids))).zipIdx.map
        Prod.swap := by
  rw [workers, List.zipIdx_map, List.map_map]
  rfl

/-- **The runs of the workers come in the order of their shards, whatever order they finish in.** A
worker carries the number of its shard, and what it does depends on nothing else. -/
theorem inOrder_workers {stopped : Bool} {e : Engine} {ids : List String} {ranges : List Range}
    {open_ : OpenHistory} {finished : List (Nat × Run)}
    (h : finished.Perm (workers stopped e ids ranges open_)) :
    inOrder ranges.length finished =
      ranges.map fun r => openAndDrive stopped e.reset (open_ (r.slice ids)) := by
  rw [workers_eq] at h
  rw [← inOrder_numbered h, List.length_map]

/-- Runs that all ended well are gathered into their engines and the number of all commits. -/
theorem gather_ok {α : Type} (l : List α) (engine : α → Engine) (consumed : α → Nat) :
    gather (l.map fun a => ⟨engine a, false, .ok (consumed a)⟩) =
      .ok (l.map engine, (l.map consumed).sum) := by
  induction l with
  | nil => rfl
  | cons a rest ih =>
    rw [List.map_cons, gather, ih]
    rfl

/-- The pieces of the identifiers that the shards get. -/
def pieces (ids : List String) (shards : Nat) : List (List String) :=
  (partition ids.length shards).map (·.slice ids)

/-- **A run in several shards merges the forks of its pieces**, whatever order the workers finish
in. -/
theorem runFinishing_eq {fetch : String → Commit} {ids : List String} {open_ : OpenHistory}
    (h : Yields fetch ids open_) {finish : List (Nat × Run) → List (Nat × Run)}
    (hfinish : ∀ l, (finish l).Perm l) (e : Engine) {shards : Nat}
    (hshards : ¬ (partition ids.length shards).length ≤ 1) :
    runFinishing finish false e ids shards open_ =
      ⟨e.merge ((pieces ids shards).map fun part => e.reset.run (part.map fetch)), false,
        .ok ids.length⟩ := by
  -- in whatever order the workers finish, their runs are put back in the order of the pieces
  have hruns : inOrder (partition ids.length shards).length
      (finish (workers false e ids (partition ids.length shards) open_)) =
        (pieces ids shards).map fun part =>
          ⟨e.reset.run (part.map fetch), false, .ok part.length⟩ := by
    rw [inOrder_workers (hfinish _), pieces, List.map_map]
    exact List.map_congr_left fun r _ => openAndDrive_yielded h (slice_isInfix r ids) e.reset
  have hlength : ((pieces ids shards).map List.length).sum = ids.length := by
    rw [← List.length_flatten, pieces, flatten_slices]
  rw [runFinishing, if_neg hshards, hruns, join, gather_ok, hlength]
  simp [List.any_map]

end Sharded

/-! ## The agreement -/

namespace Engine

/-- What an engine reports depends on its ledger only. -/
theorem finalize_eq_of_ledger {e e' : Engine} (h : e.ledger = e'.ledger) :
    e.finalize = e'.finalize := by
  have hentries : e.registry.entries = e'.registry.entries := congrArg Ledger.entries h
  have hstats : e.stats = e'.stats := congrArg Ledger.stats h
  unfold finalize
  rw [hentries, hstats]

/-- A merge builds the index anew, from entries that one engine has as well. It lists what the index
of that engine lists. -/
theorem lists_merge {e : Engine} {branches : List Engine} {commits : List Commit}
    (hledger : (e.merge branches).ledger = (e.run commits).ledger)
    (hplain : ∀ c ∈ commits, c.IsPlain) (h : e.registry.Indexed) {file key : String} :
    (e.merge branches).registry.files.Lists file key ↔
      (e.run commits).registry.files.Lists file key := by
  have hentries : (e.merge branches).registry.entries = (e.run commits).registry.entries :=
    congrArg Ledger.entries hledger
  show FileIndex.Lists (.ofEntries (e.merge branches).registry.entries) file key ↔ _
  rw [hentries, FileIndex.lists_ofEntries]
  exact (indexed_run hplain h file key).symm

/-- It is the same index if it was built from the entries before. -/
theorem files_merge {e : Engine} {branches : List Engine} {commits : List Commit}
    (hledger : (e.merge branches).ledger = (e.run commits).ledger)
    (hplain : ∀ c ∈ commits, c.IsPlain) (h : e.registry.files = .ofEntries e.registry.entries) :
    (e.merge branches).registry.files = (e.run commits).registry.files := by
  obtain ⟨hindexed, hpop⟩ := Registry.files_eq_ofEntries_iff.mp h
  have hentries : (e.merge branches).registry.entries = (e.run commits).registry.entries :=
    congrArg Ledger.entries hledger
  have hbuilt : (e.run commits).registry.files = .ofEntries (e.run commits).registry.entries :=
    Registry.files_eq_ofEntries_iff.mpr ⟨indexed_run hplain hindexed, populated_run hplain hpop⟩
  rw [hbuilt, ← hentries]
  rfl

end Engine

/-- **A run in shards ends well and reports what a run of one engine reports.** A report has no
position and no last commit in it, which are the only things that may differ. -/
theorem Sharded.finalize_runFinishing {e : Engine} {fetch : String → Commit} {ids : List String}
    {open_ : OpenHistory} {finish : List (Nat × Run) → List (Nat × Run)}
    (hplain : ∀ c ∈ ids.map fetch, c.IsPlain) (hfresh : e.FreshMerges (ids.map fetch))
    (hyields : Yields fetch ids open_) (hfinish : ∀ l, (finish l).Perm l) (shards : Nat) :
    (runFinishing finish false e ids shards open_).outcome = .ok ids.length ∧
      (runFinishing finish false e ids shards open_).engine.finalize =
        (e.run (ids.map fetch)).finalize := by
  by_cases hone : (partition ids.length shards).length ≤ 1
  · -- for a single piece no worker is started
    have hsame : runFinishing finish false e ids shards open_ = openAndDrive false e (open_ ids) :=
      if_pos hone
    rw [hsame, openAndDrive_yielded hyields List.infix_rfl e]
    exact ⟨rfl, rfl⟩
  · rw [runFinishing_eq hyields hfinish e hone]
    have hpieces : ((pieces ids shards).map (List.map fetch)).flatten = ids.map fetch := by
      rw [← List.map_flatten, pieces, flatten_slices]
    refine ⟨rfl, Engine.finalize_eq_of_ledger ?_⟩
    rw [← hpieces] at hplain hfresh ⊢
    rw [← Engine.ledger_merge_fork hplain hfresh, List.map_map]
    rfl

/-- **Forks that consume consecutive shards and are merged in order leave what one engine leaves
that consumes everything**, and so a run in shards reports what a run of one engine reports. -/
theorem fork_merge_eq_run (e : Engine) (commits : List Commit)
    (hindex : e.registry.isConsistent = true) (hplain : ∀ c ∈ commits, c.IsPlain)
    (honce : ((commits.filter (·.isMerge)).map (·.hash)).Nodup)
    (hnew : ∀ c ∈ commits, c.isMerge = true → c.hash ∉ e.merges.hashes) :
    (∀ shards : List (List Commit), shards.flatten = commits →
      let merged := e.merge (List.zipWith Engine.run (e.fork shards.length) shards)
      let whole := e.run commits
      merged.registry.entries = whole.registry.entries ∧
      (∀ file, merged.registry.files.getD file ∅ = whole.registry.files.getD file ∅) ∧
      (e.registry.files = .ofEntries e.registry.entries →
        merged.registry.files = whole.registry.files) ∧
      merged.merges.hashes = whole.merges.hashes ∧
      merged.stats = whole.stats ∧
      merged.processed = whole.processed ∧
      merged.last = whole.last) ∧
    (∀ (ids : List String) (fetch : String → Commit) (open_ : OpenHistory)
        (finish : List (Nat × Run) → List (Nat × Run)) (shards : Nat),
      ids.map fetch = commits → Yields fetch ids open_ → (∀ l, (finish l).Perm l) →
      let sharded := Sharded.runFinishing finish false e ids shards open_
      let single := openAndDrive false e (open_ ids)
      sharded.outcome = .ok ids.length ∧ single.outcome = .ok ids.length ∧
      sharded.engine.finalize = single.engine.finalize) := by
  have hfresh : e.FreshMerges commits :=
    ⟨honce, fun c hc hm hseen => hnew c hc hm (SortedMap.mem_keys.mpr hseen)⟩
  constructor
  · rintro shards rfl merged whole
    have hledger : merged.ledger = whole.ledger := by
      rw [← Engine.ledger_merge_fork hplain hfresh, ← Engine.zipWith_fork]
    have hindexed : e.registry.Indexed := Registry.isConsistent_iff.mp hindex
    refine ⟨congrArg Ledger.entries hledger, fun file => ?_, Engine.files_merge hledger hplain, ?_,
      congrArg Ledger.stats hledger, congrArg Ledger.processed hledger,
      congrArg Ledger.last hledger⟩
    · exact SortedSet.ext_mem fun key => Engine.lists_merge hledger hplain hindexed
    · exact congrArg SortedMap.keys (congrArg Ledger.merges hledger)
  · rintro ids fetch open_ finish shards rfl hyields hfinish sharded single
    have hsingle : single = ⟨e.run (ids.map fetch), false, .ok ids.length⟩ :=
      openAndDrive_yielded hyields List.infix_rfl e
    rw [hsingle]
    obtain ⟨houtcome, hfinalize⟩ :=
      Sharded.finalize_runFinishing hplain hfresh hyields hfinish shards
    exact ⟨houtcome, rfl, hfinalize⟩

/-! ### Two shards

A file with two functions is added, and a merge edits one of them. -/

namespace Sample

def merge : Commit := ⟨"merge", 2, [edited "a.go" "a.go" [foo, bar]]⟩

def fetch (id : String) : Commit := if id = "first" then first else merge

theorem isPlain : ∀ c ∈ [first, merge], c.IsPlain := by
  simp [Commit.IsPlain, first, merge, added, edited, Change.kind, Change.isRename]

end Sample

/-- The two commits are consumed in two branches that are merged, and in two shards that finish the
other way round. Entries and report are those of one run. -/
theorem fork_merge_eq_run_sample :
    let e := Engine.new Sample.query 0
    let open_ : OpenHistory := fun part => .ok (part.map fun id => ⟨.ok (Sample.fetch id), false⟩)
    e.registry.isConsistent = true ∧ (∀ c ∈ [Sample.first, Sample.merge], c.IsPlain) ∧
    (e.merge [e.reset.run [Sample.first], e.reset.run [Sample.merge]]).registry.entries =
      (e.run [Sample.first, Sample.merge]).registry.entries ∧
    (Sharded.runFinishing List.reverse false e ["first", "merge"] 2 open_).engine.finalize =
      (openAndDrive false e (open_ ["first", "merge"])).engine.finalize := by
  intro e open_
  have hnew : ∀ c ∈ [Sample.first, Sample.merge], c.isMerge = true → c.hash ∉ e.merges.hashes :=
    fun c _ _ hc => absurd hc (List.not_mem_nil)
  have hagree :=
    fork_merge_eq_run e [Sample.first, Sample.merge] rfl Sample.isPlain (by decide) hnew
  exact ⟨rfl, Sample.isPlain, (hagree.1 [[Sample.first], [Sample.merge]] rfl).1,
    (hagree.2 ["first", "merge"] Sample.fetch open_ List.reverse 2 rfl (fun _ _ => rfl)
      List.reverse_perm).2.2⟩

end CoChange
