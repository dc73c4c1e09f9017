import CoChange.Proofs.Checkpoint.Saving
import CoChange.Proofs.Partition
import CoChange.Proofs.Registry.Regular
import CoChange.Proofs.Sharding
import CoChange.Run.Chunked

/-!
# Running in chunks is running

Between two chunks an engine may forget which merges it has seen, and it is saved and may be
restored from what was saved. Neither matters to commits whose merges are all new: the engine
*resembles* the one that consumes the commits in one go (`Engine.Resembles`), and goes on to do so
(**`Resembles.runIn`**).

* **`Chunked.runChunksIn_yielded`**: a run to the end resembles the plain one, whatever its chunks
  and its budget are.
* **`Chunked.runChunksIn_breaks`**: so does a run whose history breaks off, up to the break. It has
  saved the engine behind the last whole chunk (`Chunked.behind`).
-/

namespace CoChange

namespace Engine

open Registry

/-! ## Statistics -/

/-- The statistics, with those of a commit if it touches anything. -/
def addStats (q : UnitQuery) (stats : SortedMap String CommitStats) (c : Commit) :
    SortedMap String CommitStats :=
  let touched := (passOf q .empty c).touched
  if touched.isEmpty then stats else stats.insert c.hash (.ofTouched touched.size)

section Stats

variable {e : Engine} {c : Commit} {commits : List Commit}

/-- What a commit touches does not depend on the registry, and neither do its statistics. -/
theorem stats_stepIn (orders : TableOrders) (htakes : e.takes c = true) :
    (e.stepIn orders c).stats = addStats e.query e.stats c := by
  have hstats : (e.stepIn orders c).stats = e.statsAfter c := by rw [stepIn_eq]
  rw [hstats, statsAfter, addStats, touched_passOf e.query e.registry .empty c]
  simp only [htakes, Bool.true_and]
  cases (passOf e.query .empty c).touched.isEmpty <;> rfl

/-- The statistics of a run without repeated merges are told by its commits, in any orders of the
hash tables. -/
theorem stats_runIn (orders : TableOrders) (h : e.FreshMerges commits) :
    (e.runIn orders commits).stats = commits.foldl (addStats e.query) e.stats := by
  induction commits generalizing e with
  | nil => rfl
  | cons c rest ih =>
    have hrest := ih (h.stepIn orders)
    rwa [← runIn_cons, query_stepIn, stats_stepIn orders h.takes] at hrest

/-- A commit adds statistics under its hash if it touches a unit, and leaves all others. -/
theorem mem_addStats {q : UnitQuery} {stats : SortedMap String CommitStats} {hash : String} :
    hash ∈ addStats q stats c ↔
      (c.hash = hash ∧ ∃ u, .touch u ∈ c.events q) ∨ hash ∈ stats := by
  -- only a commit that touches something is entered
  have htouches : (passOf q .empty c).touched.isEmpty = false ↔ ∃ u, .touch u ∈ c.events q := by
    rw [SortedMap.isEmpty_eq_false_iff]
    constructor
    · rintro ⟨k, hk⟩
      obtain ⟨u, hu, -⟩ := (Pass.mem_touched_foldl.mp hk).resolve_right (SortedMap.not_mem_empty k)
      exact ⟨u, hu⟩
    · rintro ⟨u, hu⟩
      exact ⟨u.key, Pass.mem_touched_foldl.mpr (Or.inl ⟨u, hu, rfl⟩)⟩
  rw [addStats, ← htouches]
  cases (passOf q .empty c).touched.isEmpty with
  | true => simp
  | false => simp [SortedMap.mem_insert, eq_comm]

/-- **There are statistics of the commits that touch anything**, and of no others. The induction is
on the commits, and a later one never takes away what an earlier one has added. -/
theorem mem_foldl_addStats {q : UnitQuery} {stats : SortedMap String CommitStats} {hash : String} :
    hash ∈ commits.foldl (addStats q) stats ↔
      (∃ c ∈ commits, c.hash = hash ∧ ∃ u, .touch u ∈ c.events q) ∨ hash ∈ stats := by
  induction commits generalizing stats with
  | nil => simp
  | cons c rest ih =>
    rw [List.foldl_cons, ih, mem_addStats]
    simp only [List.exists_mem_cons_iff, or_assoc, or_left_comm]

end Stats

/-! ## Engines that resemble each other -/

/-- The engine has consumed what the other one has, and knows of no merge that the other one has not
seen. -/
structure Resembles (e e' : Engine) : Prop where
  query : e.query = e'.query
  cap : e.cap = e'.cap
  registry : e.registry = e'.registry
  processed : e.processed = e'.processed
  last : e.last = e'.last
  merges : ∀ hash, hash ∈ e.merges.seen.getD ∅ → hash ∈ e'.merges.seen.getD ∅

section Resembles

variable {e e' : Engine} {c : Commit} {commits : List Commit}

theorem Resembles.refl (e : Engine) : e.Resembles e := ⟨rfl, rfl, rfl, rfl, rfl, fun _ => id⟩

/-- Merges that are new to an engine are new to one that resembles it, which knows no others. -/
theorem Resembles.freshMerges (h : e.Resembles e') (hfresh : e'.FreshMerges commits) :
    e.FreshMerges commits :=
  ⟨hfresh.nodup, fun c hc hm hmem => hfresh.new c hc hm (h.merges c.hash hmem)⟩

/-- Two engines that resemble each other do so after a commit that both of them take. -/
theorem Resembles.stepIn (orders : TableOrders) (h : e.Resembles e') (htakes : e.takes c = true)
    (htakes' : e'.takes c = true) :
    (e.stepIn orders c).Resembles (e'.stepIn orders c) where
  query := by rw [query_stepIn, query_stepIn, h.query]
  cap := by rw [cap_stepIn, cap_stepIn, h.cap]
  registry := by
    rw [registry_stepIn, registry_stepIn, if_pos htakes, if_pos htakes', h.query, h.cap, h.registry,
      h.processed]
  processed := by
    rw [stepIn_eq, stepIn_eq]
    exact congrArg (· + 1) h.processed
  last := by rw [stepIn_eq, stepIn_eq]
  merges hash := by
    rw [mem_seen_stepIn, mem_seen_stepIn]
    exact Or.imp_right (h.merges hash)

/-- **Engines that resemble each other go on to do so** over commits whose merges are new. Which
merges are in the log makes no difference to commits whose merges are new. -/
theorem Resembles.runIn (orders : TableOrders) (h : e.Resembles e')
    (hfresh : e'.FreshMerges commits) :
    (e.runIn orders commits).Resembles (e'.runIn orders commits) := by
  induction commits generalizing e e' with
  | nil => exact h
  | cons c rest ih =>
    rw [runIn_cons, runIn_cons]
    exact ih (h.stepIn orders (h.freshMerges hfresh).takes hfresh.takes) (hfresh.stepIn orders)

/-- An engine that has forgotten its merges resembles what it was. -/
theorem Resembles.hibernate_boot (h : e.Resembles e') : e.hibernate.boot.Resembles e' :=
  ⟨h.query, h.cap, h.registry, h.processed, h.last, fun hash hmem =>
    absurd hmem (SortedMap.not_mem_empty hash)⟩

/-- **An engine that is restored from a saved state resembles the one that was saved**, if its
registry is regular. -/
theorem Resembles.restore (h : e.Resembles e') (hregular : e'.registry.Regular) {fresh : Engine}
    (hquery : fresh.query = e'.query) (hcap : fresh.cap = e'.cap) :
    (fresh.restore e.state).Resembles e' where
  query := hquery
  cap := hcap
  registry := by
    show Registry.ofEntries e.registry.entries = e'.registry
    rw [h.registry, hregular.ofEntries_eq]
  processed := h.processed
  last := h.last
  merges hash hmem := by
    refine h.merges hash (SortedMap.mem_keys.mp ?_)
    exact SortedSet.mem_ofList.mp hmem

end Resembles

end Engine

/-! ## The first commits and the rest -/

theorem map_take_append_drop (fetch : String → Commit) (ids : List String) (n : Nat) :
    ids.map fetch = (ids.take n).map fetch ++ (ids.drop n).map fetch := by
  rw [← List.map_append, List.take_append_drop]

/-- Merges that are new along a history are so along its beginning. -/
theorem Engine.FreshMerges.take {e : Engine} {fetch : String → Commit} {ids : List String}
    (h : e.FreshMerges (ids.map fetch)) (n : Nat) : e.FreshMerges ((ids.take n).map fetch) := by
  rw [map_take_append_drop fetch ids n] at h
  exact h.of_append

/-! ## Histories that break off -/

/-- An opened history that breaks off behind some commits: it was not opened, or a pull fails, or a
stop is requested. -/
inductive Breaks (fetch : String → Commit) :
    List String → HistoryError → Except HistoryError (List Pull) → Prop
  | unopened (err : HistoryError) : Breaks fetch [] err (.error err)
  | failed (ids : List String) (err : HistoryError) (rest : List Pull) :
      Breaks fetch ids err
        (.ok (ids.map (fun id => ⟨.ok (fetch id), false⟩) ++ ⟨.error err, false⟩ :: rest))
  | stopped (ids : List String) (commit : Except HistoryError Commit) (rest : List Pull) :
      Breaks fetch ids .cancelled
        (.ok (ids.map (fun id => ⟨.ok (fetch id), false⟩) ++ ⟨commit, true⟩ :: rest))

/-- A history that breaks off is consumed up to the break, and ends with the error. -/
theorem openAndDriveIn_breaks (orders : TableOrders) {fetch : String → Commit} {ids : List String}
    {err : HistoryError}
    {opened : Except HistoryError (List Pull)} (h : Breaks fetch ids err opened) (e : Engine) :
    ∃ stopped, openAndDriveIn orders false e opened =
      ⟨e.runIn orders (ids.map fetch), stopped, .error err⟩ := by
  cases h with
  | unopened => exact ⟨false, rfl⟩
  | failed rest =>
    refine ⟨false, ?_⟩
    show driveFromIn orders 0 false e _ = _
    rw [driveFromIn_append, driveFromIn, if_neg (by simp)]
  | stopped commit rest =>
    refine ⟨true, ?_⟩
    show driveFromIn orders 0 false e _ = _
    rw [driveFromIn_append, driveFromIn, if_pos (by simp)]

/-! ## Chunks -/

namespace Chunked

variable {orders : TableOrders}

/-- Saves succeed, if there are any. -/
def Settings.Ready (s : Settings) (fs : FileSystem) : Prop := ∀ store ∈ s.store, store.Ready fs

/-- A run is ready if the place where it saves is. -/
theorem Settings.ready_of_store {s : Settings} {store : CheckpointStore} {fs : FileSystem}
    (hstore : s.store = some store) (h : store.Ready fs) : s.Ready fs := fun store' hs => by
  obtain rfl := Option.some.inj (hstore.symm.trans hs)
  exact h

/-- What is done to an engine behind a chunk. -/
def settle (s : Settings) (e : Engine) : Engine :=
  if s.maxMemoryBytes < e.estimatedSize then e.hibernate.boot else e

/-- The engine behind the last of some chunks, as it is saved. -/
def behind (orders : TableOrders) (s : Settings) (e : Engine) (chunks : List (List Commit)) :
    Engine :=
  chunks.foldl (fun e chunk => (settle s e).runIn orders chunk) e

/-- To free memory behind a chunk leaves an engine that resembles the one before. -/
theorem resembles_settle {e e' : Engine} (h : e.Resembles e') (s : Settings) :
    (settle s e).Resembles e' := by
  rw [settle]
  split
  · exact h.hibernate_boot
  · exact h

/-- The engine behind some chunks resembles the one that consumes them in one go. -/
theorem resembles_behind (orders : TableOrders) {e e' : Engine} (h : e.Resembles e') (s : Settings)
    {chunks : List (List Commit)} (hfresh : e'.FreshMerges chunks.flatten) :
    (behind orders s e chunks).Resembles (e'.runIn orders chunks.flatten) := by
  induction chunks generalizing e e' with
  | nil => exact h
  | cons chunk rest ih =>
    rw [List.flatten_cons] at hfresh
    rw [List.flatten_cons, Engine.runIn_append]
    exact ih ((resembles_settle h s).runIn orders hfresh.of_append) (hfresh.runIn orders)

/-- What is done behind a chunk does not concern the statistics. -/
theorem stats_settle (s : Settings) (e : Engine) : (settle s e).stats = e.stats := by
  rw [settle]
  split <;> rfl

/-- An engine that has consumed nothing has nothing to free. -/
theorem settle_new (s : Settings) (query : UnitQuery) (cap : Nat) :
    settle s (.new query cap) = .new query cap := if_neg (Nat.not_lt_zero _)

/-- Where the files are ready, a checkpoint is saved, holds the engine, and leaves the files ready
for the next one. -/
theorem checkpoint_of_ready {s : Settings} {fs : FileSystem} (h : s.Ready fs) (e : Engine) :
    ∃ fs' saved, checkpoint s e fs = (fs', .ok saved) ∧ s.Ready fs' ∧
      ∀ store ∈ s.store, store.Holds s.now e.state fs' := by
  cases hstore : s.store with
  | none =>
    refine ⟨fs, 0, ?_, h, fun store hs => by cases hs⟩
    rw [checkpoint, hstore]
  | some store =>
    obtain ⟨fs', hsave, hready⟩ := (h store hstore).save s.now e
    refine ⟨fs', 1, ?_, fun store' hs => ?_, fun store' hs => ?_⟩
    · rw [checkpoint, hstore]
      simp only [hsave]
    · obtain rfl := Option.some.inj (hstore.symm.trans hs)
      exact hready
    · obtain rfl := Option.some.inj hs
      exact CheckpointStore.holds_of_save hsave

section Runs

variable {s : Settings} {open_ : OpenHistory} {fetch : String → Commit} {e e' : Engine}
  {fs : FileSystem}

section Pulled

variable {part : List String} {commits : List Commit} {fs' : FileSystem}

/-- A chunk that is yielded is consumed as a whole. -/
theorem openAndDriveIn_pulled (hpart : open_ part = .ok (pullsOf commits)) (e : Engine) :
    openAndDriveIn orders false e (open_ part) =
      ⟨e.runIn orders commits, false, .ok commits.length⟩ := by
  rw [hpart]
  exact openAndDriveIn_pullsOf orders commits e

/-- A chunk that is pulled and saved is followed by the next one. -/
theorem runChunksIn_saved {saved : Nat} (hpart : open_ part = .ok (pullsOf commits))
    (hsave : checkpoint s (e.runIn orders commits) fs = (fs', .ok saved)) (stats : Stats)
    (rest : List (List String)) :
    runChunksIn orders s open_ stats false e fs (part :: rest) =
      runChunksIn orders s open_ ⟨stats.chunks + 1, stats.commits + commits.length,
        stats.hibernations +
          (if s.maxMemoryBytes < (e.runIn orders commits).estimatedSize then 1 else 0),
        stats.saved + saved, max stats.peakSize (e.runIn orders commits).estimatedSize⟩ false
        (settle s (e.runIn orders commits)) fs' rest := by
  rw [runChunksIn, if_neg Bool.false_ne_true]
  simp only [openAndDriveIn_pulled hpart, hsave]
  rfl

end Pulled

/-- **A chunk that is yielded is consumed and saved**, and the run goes on. The files are ready for
the next chunk, because a save leaves them so. -/
theorem runChunksIn_cons (orders : TableOrders) {chunk : List String}
    (hchunk : open_ chunk = .ok (chunk.map fun id => ⟨.ok (fetch id), false⟩)) (hready : s.Ready fs)
    (e : Engine) (stats : Stats) (rest : List (List String)) :
    ∃ fs' stats', runChunksIn orders s open_ stats false e fs (chunk :: rest) =
        runChunksIn orders s open_ stats'
          false (settle s (e.runIn orders (chunk.map fetch))) fs' rest ∧
      s.Ready fs' ∧ ∀ store ∈ s.store, store.Holds
        s.now (e.runIn orders (chunk.map fetch)).state fs' := by
  obtain ⟨fs', saved, hsave, hready', hholds⟩ :=
    checkpoint_of_ready hready (e.runIn orders (chunk.map fetch))
  rw [← pullsOf_map] at hchunk
  exact ⟨fs', _, runChunksIn_saved hchunk hsave stats rest, hready', hholds⟩

/-- **A run to the end resembles the plain one**, whatever its chunks and its budget are. The
induction is on the chunks. Memory that is freed in between is that of the log, which new merges do
not need. -/
theorem runChunksIn_yielded (orders : TableOrders) (hsize : 1 ≤ s.chunkSize)
    (hresembles : e.Resembles e') {ids : List String} (hfresh : e'.FreshMerges (ids.map fetch))
    (hready : s.Ready fs) (hyields : Yields fetch ids open_) (stats : Stats) :
    let out := runChunksIn orders s open_ stats false e fs (chunks s.chunkSize ids)
    (∃ counts, out.result = .ok counts) ∧ out.engine.Resembles (e'.runIn orders (ids.map fetch)) ∧
      out.engine.stats = (ids.map fetch).foldl (Engine.addStats e'.query) e.stats := by
  -- on the commits that are left: a chunk takes at least one of them, and what is behind it is the
  -- engine after settling, which still resembles the plain one
  induction hn : ids.length using Nat.strongRecOn generalizing ids e e' fs stats with
  | ind n ih =>
    by_cases hids : ids = []
    · subst hids
      rw [chunks]
      exact ⟨⟨stats, rfl⟩, hresembles, rfl⟩
    · rw [chunks_eq_cons hsize hids]
      have hsplit := map_take_append_drop fetch ids s.chunkSize
      have hchunk := hyields (ids.take s.chunkSize) (List.take_prefix _ _).isInfix
      obtain ⟨fs', stats', hstep, hready', -⟩ :=
        runChunksIn_cons orders hchunk hready e stats (chunks s.chunkSize (ids.drop s.chunkSize))
      rw [hsplit] at hfresh
      have hfirst := hresembles.runIn orders hfresh.of_append
      have hlength : (ids.drop s.chunkSize).length < n := by
        have hpos := List.length_pos_iff.mpr hids
        rw [List.length_drop]
        omega
      obtain ⟨hresult, hrun, hstats⟩ :=
        ih _ hlength (resembles_settle hfirst s) (hfresh.runIn orders)
        hready'
        (fun part hpart => hyields part (hpart.trans (List.drop_suffix _ _).isInfix)) stats' rfl
      rw [hstep, hsplit]
      refine ⟨hresult, by rwa [Engine.runIn_append], ?_⟩
      have hfirststats := Engine.stats_runIn orders (hresembles.freshMerges hfresh.of_append)
      rw [hresembles.query] at hfirststats
      rw [hstats, Engine.query_runIn, stats_settle, hfirststats, List.foldl_append]

/-- What a run leaves whose history breaks off: the engine resembles one that has consumed some
commits and has their statistics, and unless there was no whole chunk, the engine behind the last
one is saved. -/
structure BrokenOff (s : Settings) (fs : FileSystem) (err : HistoryError) (consumed : Engine)
    (stats : SortedMap String CommitStats) (whole : Nat) (saver : Engine)
    (out : Outcome) : Prop where
  result : out.result = .error (.scan err)
  engine : out.engine.Resembles consumed
  stats : out.engine.stats = stats
  unsaved : whole = 0 → out.files = fs
  saved : 0 < whole → ∀ store ∈ s.store, store.Holds s.now saver.state out.files
  ready : s.Ready out.files

/-- Behind one more whole chunk a run leaves the same, and the engine behind that chunk is saved
unless a later one is. -/
theorem BrokenOff.succ {err : HistoryError} {consumed saver : Engine}
    {stats : SortedMap String CommitStats} {whole : Nat} {out : Outcome} {fs' : FileSystem}
    (h : BrokenOff s fs' err consumed stats whole saver out)
    (hsaved : whole = 0 → ∀ store ∈ s.store, store.Holds s.now saver.state fs') :
    BrokenOff s fs err consumed stats (whole + 1) saver out where
  result := h.result
  engine := h.engine
  stats := h.stats
  unsaved := fun hzero => absurd hzero (Nat.succ_ne_zero whole)
  saved := fun _ => by
    rcases Nat.eq_zero_or_pos whole with hzero | hpos
    · rw [h.unsaved hzero]
      exact hsaved hzero
    · exact h.saved hpos
  ready := h.ready

/-- A history that breaks off within the first chunk: nothing is saved. -/
theorem runChunksIn_breaks_first (orders : TableOrders) (hsize : 1 ≤ s.chunkSize)
    {ids : List String} (hids : ids ≠ []) {err : HistoryError} {o : Nat}
    (hbreak : Breaks fetch (ids.take o) err (open_ (ids.take s.chunkSize)))
    (hresembles : e.Resembles e') (hfresh : e'.FreshMerges (ids.map fetch)) (hready : s.Ready fs)
    (stats : Stats) (saver : Engine) :
    BrokenOff s fs err (e'.runIn orders ((ids.take o).map fetch))
      (((ids.take o).map fetch).foldl (Engine.addStats e'.query) e.stats) 0 saver
      (runChunksIn orders s open_ stats false e fs (chunks s.chunkSize ids)) := by
  obtain ⟨stopped, hrun⟩ := openAndDriveIn_breaks orders hbreak e
  have hfirst := hfresh.take o
  -- the run ends before the first save
  have hout : runChunksIn orders s open_ stats false e fs (chunks s.chunkSize ids) =
      ⟨e.runIn orders ((ids.take o).map fetch), stopped, fs, .error (.scan err)⟩ := by
    rw [chunks_eq_cons hsize hids, runChunksIn, if_neg Bool.false_ne_true]
    simp only [hrun]
  rw [hout, ← hresembles.query]
  exact ⟨rfl, hresembles.runIn orders hfirst,
    Engine.stats_runIn orders (hresembles.freshMerges hfirst), fun _ => rfl,
    fun h => absurd h (Nat.lt_irrefl 0), hready⟩

/-- The whole chunks in front of a place are the first one and those in front of it in the rest. -/
theorem behind_chunks_succ (hsize : 1 ≤ s.chunkSize) {ids : List String} (hids : ids ≠ [])
    (e : Engine) (j : Nat) :
    behind orders s e (((chunks s.chunkSize ids).take (j + 1)).map (·.map fetch)) =
      behind orders s ((settle s e).runIn orders ((ids.take s.chunkSize).map fetch))
        (((chunks s.chunkSize (ids.drop s.chunkSize)).take j).map (·.map fetch)) := by
  rw [chunks_eq_cons hsize hids, List.take_succ_cons, List.map_cons]
  rfl

theorem map_take_succ (ids : List String) (size j o : Nat) :
    (ids.take (size * (j + 1) + o)).map fetch =
    (ids.take size).map fetch ++ ((ids.drop size).take (size * j + o)).map fetch := by
  rw [Nat.mul_succ, Nat.add_comm (size * j), Nat.add_assoc, List.take_add, List.map_append]

/-- **A run whose history breaks off resembles the plain one up to the break**, and has saved the
engine behind the last whole chunk. -/
theorem runChunksIn_breaks (orders : TableOrders) (hsize : 1 ≤ s.chunkSize) {ids : List String}
    {err : HistoryError} {j o : Nat} (hlength : s.chunkSize * j + o < ids.length)
    (hbefore : ∀ i < j, open_ ((ids.drop (s.chunkSize * i)).take s.chunkSize) =
      .ok (((ids.drop (s.chunkSize * i)).take s.chunkSize).map fun id => ⟨.ok (fetch id), false⟩))
    (hbreak : Breaks fetch ((ids.drop (s.chunkSize * j)).take o) err
      (open_ ((ids.drop (s.chunkSize * j)).take s.chunkSize)))
    (hresembles : e.Resembles e') (hfresh : e'.FreshMerges (ids.map fetch)) (hready : s.Ready fs)
    (stats : Stats) :
    BrokenOff s fs err (e'.runIn orders ((ids.take (s.chunkSize * j + o)).map fetch))
      (((ids.take (s.chunkSize * j + o)).map fetch).foldl (Engine.addStats e'.query) e.stats) j
      (behind orders s e (((chunks s.chunkSize ids).take j).map (·.map fetch)))
      (runChunksIn orders s open_ stats false (settle s e) fs (chunks s.chunkSize ids)) := by
  -- on the whole chunks in front of the break: each starts from the files that the one before has
  -- saved
  induction j generalizing ids e e' fs stats with
  | zero =>
    have hids : ids ≠ [] := List.ne_nil_of_length_pos (Nat.zero_lt_of_lt hlength)
    rw [Nat.mul_zero, List.drop_zero] at hbreak
    rw [Nat.mul_zero, Nat.zero_add, ← stats_settle s e]
    exact runChunksIn_breaks_first
      orders hsize hids hbreak (resembles_settle hresembles s) hfresh hready stats _
  | succ j ih =>
    have hids : ids ≠ [] := List.ne_nil_of_length_pos (Nat.zero_lt_of_lt hlength)
    have hlater : ∀ i, (ids.drop s.chunkSize).drop (s.chunkSize * i) =
        ids.drop (s.chunkSize * (i + 1)) := by
      intro i
      rw [List.drop_drop, Nat.mul_succ, Nat.add_comm]
    rw [map_take_append_drop fetch ids s.chunkSize] at hfresh
    have hsettled := resembles_settle hresembles s
    have hrun := hsettled.runIn orders hfresh.of_append
    have hfirst : open_ (ids.take s.chunkSize) =
        .ok ((ids.take s.chunkSize).map fun id => ⟨.ok (fetch id), false⟩) :=
      hbefore 0 (Nat.succ_pos j)
    obtain ⟨fs', stats', hstep, hready', hholds⟩ :=
      runChunksIn_cons orders hfirst
        hready (settle s e) stats (chunks s.chunkSize (ids.drop s.chunkSize))
    have hrest : s.chunkSize * j + o < (ids.drop s.chunkSize).length := by
      rw [Nat.mul_succ] at hlength
      rw [List.length_drop]
      omega
    have hbroken := ih hrest
      (fun i hi => by rw [hlater]; exact hbefore (i + 1) (Nat.succ_lt_succ hi))
      (by rw [hlater]; exact hbreak) hrun (hfresh.runIn orders) hready' stats'
    have hstats := Engine.stats_runIn orders (hsettled.freshMerges hfresh.of_append)
    rw [hsettled.query, stats_settle] at hstats
    rw [Engine.query_runIn] at hbroken
    rw [behind_chunks_succ hsize hids, map_take_succ, Engine.runIn_append, List.foldl_append,
      ← hstats, chunks_eq_cons hsize hids, hstep]
    refine hbroken.succ ?_
    rintro rfl
    exact hholds

end Runs

end Chunked

end CoChange
