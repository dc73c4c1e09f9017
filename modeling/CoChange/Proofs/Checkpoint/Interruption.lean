import CoChange.Proofs.Checkpoint.Position
import CoChange.Proofs.Registry.TableOrder
import CoChange.Proofs.Run.Chunked

/-!
# An interrupted run is carried on to the same result

A run in chunks ends early in front of some commit: a request to stop was there from the start, or
the history breaks off (`Chunked.Interrupts`). It has saved the engine behind the last whole chunk.
Another engine that is restored from that resembles the one that has consumed these chunks in one
go, as long as the registry is told by its entries (`Registry.Regular`), and so the rest of the
history leads it to the same result: **`interrupted_run_resumes`**.

The result is the same if the hash tables come in the same orders, and in any orders if all renames
are unambiguous. Statistics are not saved: the engine has those of the commits that it goes on with,
as far as they touch anything. That neither can be left out shows in **`resumed_run_differs`**.
-/

namespace CoChange

/-- A state that fits still does when merges are forgotten. -/
theorem Engine.Resembles.fits {e e' : Engine} (h : e.Resembles e') (hfits : e'.state.Fits) :
    e.state.Fits where
  size := by
    show e.registry.entries.size < UInt64.size
    rw [h.registry]
    exact hfits.size
  entries entry := by
    show entry ∈ e.registry.entries.toList → _
    rw [h.registry]
    exact hfits.entries entry
  log := by
    -- the log may have fewer merges, and none that the other has not
    have hsub : e.merges.hashes ⊆ e'.merges.hashes := fun hash hm =>
      SortedMap.mem_keys.mpr (h.merges hash (SortedMap.mem_keys.mp hm))
    exact Nat.lt_of_le_of_lt
      (List.subperm_of_subset (SortedMap.nodup_keys _) hsub).length_le hfits.log
  merges hash hm :=
    hfits.merges hash (SortedMap.mem_keys.mpr (h.merges hash (SortedMap.mem_keys.mp hm)))
  processed := by
    show e.processed < UInt64.size
    rw [h.processed]
    exact hfits.processed
  last := by
    show ∀ hash, e.last = some hash → _
    rw [h.last]
    exact hfits.last

namespace Chunked

/-- A run over the chunks of some commits ends early in front of the commit at a position, with an
error: a request to stop was there from the start, or the history yields the commits of the chunks
before and breaks off within the next one. -/
inductive Interrupts (fetch : String → Commit) (ids : List String) (size : Nat) :
    Nat → HistoryError → Bool → OpenHistory → Prop
  | requested (open_ : OpenHistory) : Interrupts fetch ids size 0 .cancelled true open_
  | broken {k : Nat} {err : HistoryError} {open_ : OpenHistory}
      (hbefore : ∀ i < k / size, open_ ((ids.drop (size * i)).take size) =
        .ok (((ids.drop (size * i)).take size).map fun id => ⟨.ok (fetch id), false⟩))
      (hbreak : Breaks fetch ((ids.drop (size * (k / size))).take (k % size)) err
        (open_ ((ids.drop (size * (k / size))).take size))) :
      Interrupts fetch ids size k err false open_

section Interrupted

variable {s : Settings} {fetch : String → Commit} {ids : List String} {k : Nat} {err : HistoryError}
  {stopped : Bool} {open_ : OpenHistory} {query : UnitQuery} {cap : Nat} {fs : FileSystem}
  {orders : TableOrders}

/-- A run that is interrupted has consumed the commits in front of the interruption and no other
one, and what it saved last is the engine behind the last whole chunk. -/
theorem runIn_interrupts (orders : TableOrders)
    (h : Interrupts fetch ids s.chunkSize k err stopped open_)
    (hsize : 1 ≤ s.chunkSize) (hk : k < ids.length)
    (hfresh : (Engine.new query cap).FreshMerges (ids.map fetch)) (hready : s.Ready fs) :
    let plain := (Engine.new query cap).runIn orders ((ids.take k).map fetch)
    BrokenOff s fs err plain plain.stats (k / s.chunkSize)
      (behind orders s (.new query cap)
        (((chunks s.chunkSize ids).take (k / s.chunkSize)).map (·.map fetch)))
      (runIn orders s stopped (.new query cap) fs ids open_) := by
  intro plain
  cases h with
  | requested =>
    -- nothing is consumed, whatever the first chunk is
    have hids : ids ≠ [] := List.ne_nil_of_length_pos hk
    have hout : runIn orders s true (.new query cap) fs ids open_ =
        ⟨.new query cap, true, fs, .error (.scan .cancelled)⟩ := by
      rw [runIn, chunks_eq_cons hsize hids, runChunksIn, if_pos rfl]
    rw [hout, Nat.zero_div]
    exact ⟨rfl, .refl _, rfl, fun _ => rfl, fun h => absurd h (Nat.lt_irrefl 0), hready⟩
  | broken hbefore hbreak =>
    have hposition : s.chunkSize * (k / s.chunkSize) + k % s.chunkSize = k := Nat.div_add_mod k _
    have hbroken := runChunksIn_breaks orders hsize (hposition.symm ▸ hk) hbefore hbreak
      (Engine.Resembles.refl (.new query cap)) hfresh hready ⟨0, 0, 0, 0, 0⟩
    -- the engine is new, so it has nothing to free before the first chunk
    rwa [settle_new, hposition, ← Engine.stats_runIn orders (hfresh.take k)] at hbroken

/-- The engine behind the first chunks resembles the one that consumes their commits in one go. -/
theorem resembles_behind_chunks (hsize : 1 ≤ s.chunkSize) (j : Nat)
    (hfresh : (Engine.new query cap).FreshMerges (ids.map fetch)) :
    (behind orders s (.new query cap)
      (((chunks s.chunkSize ids).take j).map (·.map fetch))).Resembles
        ((Engine.new query cap).runIn orders ((ids.take (s.chunkSize * j)).map fetch)) := by
  have hcommits : (((chunks s.chunkSize ids).take j).map (·.map fetch)).flatten =
      (ids.take (s.chunkSize * j)).map fetch := by
    rw [← List.map_flatten, flatten_take_chunks hsize]
  have hresembles := resembles_behind orders (Engine.Resembles.refl (.new query cap)) s
    (hcommits ▸ hfresh.take (s.chunkSize * j))
  rwa [hcommits] at hresembles

end Interrupted

end Chunked

section Plain

variable {query : UnitQuery} {cap : Nat} {fetch : String → Commit} {ids : List String}
  {orders : TableOrders}

/-- The last commit of a run over ids is the last of the ids, since each commit has its id as its
hash. -/
theorem last_runIn_of_ids (hhash : ∀ id ∈ ids, (fetch id).hash = id) :
    ((Engine.new query cap).runIn orders (ids.map fetch)).last = ids.getLast? := by
  have hhashes : (ids.map fetch).map (·.hash) = ids := by
    rw [List.map_map]
    exact (List.map_congr_left hhash).trans (List.map_id ids)
  rw [Engine.last_runIn, hhashes]
  exact Option.or_none

theorem processed_runIn_of_ids :
    ((Engine.new query cap).runIn orders (ids.map fetch)).processed = ids.length := by
  rw [Engine.processed_runIn, List.length_map]
  exact Nat.zero_add _

/-- **A new engine goes on from what was saved behind some of the commits**: its position is the one
behind them, and it resembles the engine that has consumed them. -/
theorem resumePosition_of_saver {store : CheckpointStore} {files : FileSystem} {now : Timestamp}
    {saver : Engine} {m : Nat} (hholds : store.Holds now saver.state files) (hnow : now.Valid)
    (hhash : ∀ id ∈ ids, (fetch id).hash = id) (hm : m ≤ ids.length)
    (hresembles : saver.Resembles ((Engine.new query cap).runIn orders ((ids.take m).map fetch)))
    (hregular : ((Engine.new query cap).runIn orders ((ids.take m).map fetch)).registry.Regular)
    (hfits : ((Engine.new query cap).runIn orders ((ids.take m).map fetch)).state.Fits) :
    ∃ restored, Analysis.resumePosition store files (.new query cap) ids =
        .ok (files, restored, m) ∧
      restored.Resembles ((Engine.new query cap).runIn orders ((ids.take m).map fetch)) ∧
      restored.stats = ∅ := by
  have hlength : (ids.take m).length = m := List.length_take_of_le hm
  have hprocessed : saver.state.processed = (ids.take m).length :=
    hresembles.processed.trans processed_runIn_of_ids
  have hlast : saver.state.last = (ids.take m).getLast? :=
    hresembles.last.trans (last_runIn_of_ids fun id hid => hhash id (List.mem_of_mem_take hid))
  have hposition := Analysis.resumePosition_of_holds hholds hnow (hresembles.fits hfits)
    (ids.take m) hprocessed hlast (.new query cap) ids
  -- the commits in front of the position are the first ones, so the saved run lines up with them
  rw [if_pos (Analysis.LinesUp.of_prefix (List.take_prefix m ids)), hlength] at hposition
  refine ⟨_, hposition, hresembles.restore hregular ?_ ?_, rfl⟩
  · exact (Engine.query_runIn _ _ _).symm
  · exact (Engine.cap_runIn _ _ _).symm

/-- Commits have statistics if they touched a unit, each under its own hash. Nothing else has. -/
theorem mem_stats_of_ids (hhash : ∀ id ∈ ids, (fetch id).hash = id)
    (hmerges : (((ids.map fetch).filter (·.isMerge)).map (·.hash)).Nodup) (hash : String) :
    hash ∈ ((Engine.new query cap).runIn orders (ids.map fetch)).stats ↔
      hash ∈ ids ∧ ∃ u, .touch u ∈ (fetch hash).events query := by
  have hnone : hash ∉ (Engine.new query cap).stats := SortedMap.not_mem_empty hash
  rw [Engine.stats_runIn orders (freshMerges_new query cap hmerges), Engine.mem_foldl_addStats,
    or_iff_left hnone]
  constructor
  · rintro ⟨c, hc, rfl, htouches⟩
    obtain ⟨id, hid, rfl⟩ := List.mem_map.mp hc
    rw [hhash id hid]
    exact ⟨hid, htouches⟩
  · rintro ⟨hid, htouches⟩
    exact ⟨fetch hash, List.mem_map_of_mem hid, hhash hash hid, htouches⟩

/-- Merges that occur once in a history occur once in the rest of it. -/
theorem nodup_merges_drop (hmerges : (((ids.map fetch).filter (·.isMerge)).map (·.hash)).Nodup)
    (m : Nat) : ((((ids.drop m).map fetch).filter (·.isMerge)).map (·.hash)).Nodup := by
  rw [map_take_append_drop fetch ids m, List.filter_append, List.map_append] at hmerges
  exact hmerges.of_append_right

/-- **An engine that resembles the one behind some of the commits comes to the same result** over
the rest, with statistics of the rest. -/
theorem runIn_of_resembles {s : Chunked.Settings} {rest : OpenHistory} {files : FileSystem}
    {restored : Engine} {m : Nat} (later : TableOrders) (hsize : 1 ≤ s.chunkSize)
    (hready : s.Ready files) (hm : m ≤ ids.length)
    (hmerges : (((ids.map fetch).filter (·.isMerge)).map (·.hash)).Nodup)
    (hresembles : restored.Resembles ((Engine.new query cap).runIn orders ((ids.take m).map fetch)))
    (hstats : restored.stats = ∅) (hyields : Yields fetch (ids.drop m) rest) :
    let out := Chunked.runIn later s false restored files (ids.drop m) rest
    (∃ counts, out.result = .ok counts) ∧
      out.engine.Resembles ((Engine.new query cap).runIn (orders.upTo m later) (ids.map fetch)) ∧
      out.engine.stats = ((Engine.new query cap).runIn later ((ids.drop m).map fetch)).stats := by
  have hsplit := map_take_append_drop fetch ids m
  have hfresh := freshMerges_new query cap hmerges
  rw [hsplit] at hfresh
  obtain ⟨hresult, hengine, hadded⟩ := Chunked.runChunksIn_yielded later hsize hresembles
    (hfresh.runIn orders) hready hyields ⟨0, 0, 0, 0, 0⟩
  have hlength : ((ids.take m).map fetch).length = m := by
    rw [List.length_map, List.length_take_of_le hm]
  refine ⟨hresult, ?_, ?_⟩
  · have hupTo := Engine.runIn_upTo orders later (.new query cap) ((ids.take m).map fetch)
      ((ids.drop m).map fetch) rfl
    rw [hlength, ← hsplit] at hupTo
    rw [hupTo]
    exact hengine
  · -- the statistics start anew, and the later merges are fresh among themselves
    have hlater : (Engine.new query cap).FreshMerges ((ids.drop m).map fetch) :=
      freshMerges_new query cap (nodup_merges_drop hmerges m)
    rw [Engine.query_runIn, hstats] at hadded
    exact hadded.trans (Engine.stats_runIn later hlater).symm

/-- The registries of a run that keeps its units apart are regular, whatever the orders of the hash
tables are. -/
theorem regular_runIn_take (hapart : (Engine.new query cap).KeepsApart (ids.map fetch)) (m : Nat) :
    ((Engine.new query cap).runIn orders ((ids.take m).map fetch)).registry.Regular := by
  rw [map_take_append_drop fetch ids m] at hapart
  have hregular := Engine.regular_run hapart.of_append Registry.regular_empty
  have hbare := Engine.bare_runIn_eq_bare_run (e := .new query cap) rfl Registry.regular_empty
    (fun visit hv => hapart.of_append.apart hv) orders
  exact hregular.of_bare (congrArg Engine.registry hbare).symm

/-- **What an interrupted run has saved is taken up behind its last whole chunk**, and nothing is
taken up if there is none. -/
theorem resumePosition_of_interrupts {s : Chunked.Settings} {store : CheckpointStore}
    {files : FileSystem} {k : Nat} {err : HistoryError} {stopped : Bool} {open_ : OpenHistory}
    (h : Chunked.Interrupts fetch ids s.chunkSize k err stopped open_) (hsize : 1 ≤ s.chunkSize)
    (hk : k < ids.length) (hhash : ∀ id ∈ ids, (fetch id).hash = id)
    (hmerges : (((ids.map fetch).filter (·.isMerge)).map (·.hash)).Nodup)
    (hapart : (Engine.new query cap).KeepsApart (ids.map fetch)) (hfits : ∀ n ≤ ids.length,
      ((Engine.new query cap).runIn orders ((ids.take n).map fetch)).state.Fits)
    (hnow : s.now.Valid) (hstore : s.store = some store) (hready : store.Ready files)
    (hnone : store.exists_ files = false) :
    let out := Chunked.runIn orders s stopped (.new query cap) files ids open_
    let m := s.chunkSize * (k / s.chunkSize)
    ∃ restored, Analysis.resumePosition store out.files (.new query cap) ids =
        .ok (out.files, restored, m) ∧
      restored.Resembles ((Engine.new query cap).runIn orders ((ids.take m).map fetch)) ∧
      restored.stats = ∅ := by
  intro out m
  have hfresh := freshMerges_new query cap hmerges
  have hbroken := Chunked.runIn_interrupts orders h hsize hk hfresh
    (Chunked.Settings.ready_of_store hstore hready)
  have hm : m ≤ ids.length := (Nat.mul_div_le k s.chunkSize).trans (Nat.le_of_lt hk)
  -- without a whole chunk nothing was saved, and the files are those from before the run
  rcases Nat.eq_zero_or_pos (k / s.chunkSize) with hwhole | hwhole
  · have hm₀ : m = 0 := by rw [← Nat.mul_zero s.chunkSize, ← hwhole]
    have hfiles : out.files = files := hbroken.unsaved hwhole
    refine ⟨.new query cap, ?_, ?_, rfl⟩
    · rw [hm₀, hfiles]
      exact Analysis.resumePosition_of_not_exists hnone _ ids
    · rw [hm₀]
      exact .refl _
  · exact resumePosition_of_saver (hbroken.saved hwhole store hstore) hnow hhash hm
      (Chunked.resembles_behind_chunks hsize _ hfresh) (regular_runIn_take hapart m) (hfits m hm)

end Plain

/-- **What an interrupted run leaves, and what carrying it on leads to.** The hash tables may come
in any orders in the run, and in other ones when it is carried on. What that leads to is what a run
without the interruption leads to that finds the tables in the orders of the one up to the position
and of the other one from there on. If all renames are unambiguous, it is what any run without the
interruption leads to, and they are so if no commit names a path twice. -/
theorem interrupted_run_resumes (query : UnitQuery) (cap : Nat) (fetch : String → Commit)
    (ids : List String) (hhash : ∀ id ∈ ids, (fetch id).hash = id)
    (hmerges : (((ids.map fetch).filter (·.isMerge)).map (·.hash)).Nodup)
    (hapart : (Engine.new query cap).KeepsApart (ids.map fetch)) (orders : TableOrders)
    (hfits : ∀ n ≤ ids.length,
      ((Engine.new query cap).runIn orders ((ids.take n).map fetch)).state.Fits)
    (s : Chunked.Settings) (hsize : 1 ≤ s.chunkSize) (hnow : s.now.Valid)
    (store : CheckpointStore) (hstore : s.store = some store)
    (files : FileSystem) (hready : store.Ready files) (hnone : store.exists_ files = false)
    (k : Nat) (hk : k < ids.length) (err : HistoryError) (stopped : Bool)
    (open_ whole : OpenHistory)
    (hinterrupts : Chunked.Interrupts fetch ids s.chunkSize k err stopped open_)
    (hwhole : Yields fetch ids whole) :
    let start := Engine.new query cap
    let plain (n : Nat) := start.runIn orders ((ids.take n).map fetch)
    let out := Chunked.runIn orders s stopped start files ids open_
    let m := s.chunkSize * (k / s.chunkSize)
    let saver := Chunked.behind orders s start
      (((chunks s.chunkSize ids).take (k / s.chunkSize)).map (·.map fetch))
    let full (orders : TableOrders) := Chunked.runIn orders s false start files ids whole
    out.result = .error (.scan err) ∧
    (out.engine.registry = (plain k).registry ∧ out.engine.processed = k ∧
      out.engine.last = (ids.take k).getLast? ∧ out.engine.stats = (plain k).stats) ∧
    (m = 0 → out.files = files ∧ store.exists_ out.files = false) ∧
    (0 < m → store.Holds s.now saver.state out.files ∧ saver.Resembles (plain m)) ∧
    store.Ready out.files ∧
    ((∀ c ∈ ids.map fetch, c.NamesApart) → start.Unambiguous (ids.map fetch)) ∧
    ∃ restored, Analysis.resumePosition store out.files start ids = .ok (out.files, restored, m) ∧
      ∀ (s' : Chunked.Settings) (rest : OpenHistory) (later orders' : TableOrders),
        1 ≤ s'.chunkSize → s'.Ready out.files → Yields fetch (ids.drop m) rest →
        orders' = orders.upTo m later ∨ start.Unambiguous (ids.map fetch) →
        let resumed := Chunked.runIn later s' false restored out.files (ids.drop m) rest
        ((∃ counts, resumed.result = .ok counts) ∧ ∃ counts, (full orders').result = .ok counts) ∧
        resumed.engine.registry.entries = (full orders').engine.registry.entries ∧
        resumed.engine.registry.files = (full orders').engine.registry.files ∧
        resumed.engine.processed = (full orders').engine.processed ∧
        resumed.engine.last = (full orders').engine.last ∧
        resumed.engine.stats = (start.runIn later ((ids.drop m).map fetch)).stats ∧
        ∀ hash, hash ∈ resumed.engine.stats ↔
          hash ∈ ids.drop m ∧ ∃ u, .touch u ∈ (fetch hash).events query := by
  intro start plain out m saver full
  have hready' : s.Ready files := Chunked.Settings.ready_of_store hstore hready
  have hfresh : start.FreshMerges (ids.map fetch) := freshMerges_new query cap hmerges
  have hbroken := Chunked.runIn_interrupts orders hinterrupts hsize hk hfresh hready'
  obtain ⟨restored, hposition, hresembles, hempty⟩ :=
    resumePosition_of_interrupts hinterrupts hsize hk
    hhash hmerges hapart hfits hnow hstore hready hnone
  have hmle : m ≤ ids.length := (Nat.mul_div_le k s.chunkSize).trans (Nat.le_of_lt hk)
  have hzero : m = 0 ↔ k / s.chunkSize = 0 := by
    rw [Nat.mul_eq_zero]
    omega
  have hprocessed : out.engine.processed = k := by
    rw [hbroken.engine.processed, processed_runIn_of_ids,
      List.length_take_of_le (Nat.le_of_lt hk)]
  have hlast : out.engine.last = (ids.take k).getLast? := hbroken.engine.last.trans
    (last_runIn_of_ids fun id hid => hhash id (List.mem_of_mem_take hid))
  refine ⟨hbroken.result, ⟨hbroken.engine.registry, hprocessed, hlast, hbroken.stats⟩,
    fun hm₀ => ?_, fun hpos => ?_, hbroken.ready store hstore,
    Engine.unambiguous_of_keepsApart hapart Registry.regular_empty Entries.coherent_empty, restored,
    hposition, fun s' rest later orders' hsize' hready₁ hrest horders => ?_⟩
  · have hfiles : out.files = files := hbroken.unsaved (hzero.mp hm₀)
    exact ⟨hfiles, hfiles ▸ hnone⟩
  · have hwhole : 0 < k / s.chunkSize := Nat.pos_of_ne_zero fun h => Nat.ne_of_gt hpos (hzero.mpr h)
    exact ⟨hbroken.saved hwhole store hstore, Chunked.resembles_behind_chunks hsize _ hfresh⟩
  · -- both runs resemble the one over all commits in one go, the resumed one from `m` on
    obtain ⟨hdone, hsame, hown⟩ :=
      runIn_of_resembles later hsize' hready₁ hmle hmerges hresembles hempty hrest
    obtain ⟨hdone', hsame', -⟩ := Chunked.runChunksIn_yielded orders' hsize
      (Engine.Resembles.refl start) hfresh hready' hwhole ⟨0, 0, 0, 0, 0⟩
    have hplain : start.runIn (orders.upTo m later) (ids.map fetch) =
        start.runIn orders' (ids.map fetch) := by
      rcases horders with rfl | hunambiguous
      · rfl
      · rw [Engine.runIn_eq_run hunambiguous, Engine.runIn_eq_run hunambiguous]
    rw [hplain] at hsame
    have hregistry := hsame.registry.trans hsame'.registry.symm
    refine ⟨⟨hdone, hdone'⟩, congrArg Registry.entries hregistry, congrArg Registry.files hregistry,
      hsame.processed.trans hsame'.processed.symm, hsame.last.trans hsame'.last.symm, hown,
      fun hash => ?_⟩
    rw [hown]
    exact mem_stats_of_ids (fun id hid => hhash id (List.mem_of_mem_drop hid))
      (nodup_merges_drop hmerges m) hash

/-! ### Two chunks of two commits, the last of which cannot be read

In the first commit a function is touched and then renamed together with its file, which leaves it
as a peer under its old key. That key is given to another function by the last commit. So the peers
of `bar` have two keys that become one, and which of the two counts is kept is told by the orders of
the tables alone. -/

namespace Sample

def ids : List String := ["first", "second", "third", "fourth"]

/-- A file that is renamed as it is. -/
def moved (source target : String) (functions : List Node) : Change :=
  ⟨source, target, some (file functions), some (file functions), some ⟨4, 4, [⟨.equal, 4⟩]⟩⟩

/-- The last commit touches nothing. -/
def story (id : String) : Commit :=
  let bar := function "bar" 1 2
  if id = "first" then
    ⟨id, 1, [added "c.go" [foo], added "x.go" [bar], moved "c.go" "d.go" [foo]]⟩
  else if id = "second" then ⟨id, 1, [added "a.go" [foo], edited "x.go" "x.go" [bar]]⟩
  else if id = "third" then ⟨id, 2, [edited "a.go" "a.go" [foo], edited "x.go" "x.go" [bar]]⟩
  else ⟨id, 2, [moved "a.go" "c.go" [foo]]⟩

def history : OpenHistory := fun chunk => .ok (chunk.map fun id => ⟨.ok (story id), false⟩)

/-- The last commit cannot be read. -/
def damaged : OpenHistory := fun chunk =>
  if chunk = ["third", "fourth"] then
    .ok [⟨.ok (story "third"), false⟩, ⟨.error (.repository "unreadable"), false⟩]
  else history chunk

/-- Chunks of two commits, and no memory to spare. -/
def settings : Chunked.Settings := ⟨2, 0, some store, ⟨0, 0⟩⟩

/-- The damaged history breaks off in front of its fourth commit. -/
theorem interrupts :
    Chunked.Interrupts story ids settings.chunkSize 3 (.repository "unreadable") false
    damaged :=
  .broken (fun i hi => by
    obtain rfl : i = 0 := by
      have hone : 3 / settings.chunkSize = 1 := rfl
      omega
    rfl) (.failed ["third"] (.repository "unreadable") [])

theorem keepsApart_story : (Engine.new query 0).KeepsApart (ids.map story) where
  distinct := CodeUnit.keysApart_of_no_underscore (by decide +kernel)
  untracked := by decide +kernel

theorem fits_story : ∀ n ≤ ids.length,
    ((Engine.new query 0).runIn .byKey ((ids.take n).map story)).state.Fits := by
  decide +kernel

theorem not_exists_files : store.exists_ files = false := by
  rw [CheckpointStore.exists_, FileSystem.isFile, CheckpointStore.stateFile,
    entry?_files (by decide)]
  rfl

end Sample

/-- With chunks of two, the run breaks off in front of the fourth commit and is carried on behind
the second one with the tables backwards. It ends with the entries of a run that takes them
backwards from there on. -/
theorem interrupted_run_resumes_sample :
    let start := Engine.new Sample.query 0
    let out :=
      Chunked.runIn .byKey Sample.settings false start Sample.files Sample.ids Sample.damaged
    let full := Chunked.runIn (TableOrders.byKey.upTo 2 .backwards) Sample.settings false start
      Sample.files Sample.ids Sample.history
    out.result = .error (.scan (.repository "unreadable")) ∧ out.engine.processed = 3 ∧
    ∃ restored, Analysis.resumePosition Sample.store out.files start Sample.ids =
        .ok (out.files, restored, 2) ∧
      let resumed := Chunked.runIn .backwards Sample.settings false restored out.files
        ["third", "fourth"] Sample.history
      resumed.engine.registry.entries = full.engine.registry.entries ∧
      resumed.engine.processed = full.engine.processed ∧
      ∀ hash, hash ∈ resumed.engine.stats ↔
        hash ∈ ["third", "fourth"] ∧ ∃ u, .touch u ∈ (Sample.story hash).events Sample.query := by
  obtain ⟨hresult, hengine, -, -, hready, -, restored, hposition, hcarried⟩ :=
    interrupted_run_resumes Sample.query 0 Sample.story Sample.ids (by decide) (by decide)
      Sample.keepsApart_story .byKey
        Sample.fits_story Sample.settings (by decide) Sample.valid_start
      Sample.store rfl Sample.files Sample.prepared_files.ready
        Sample.not_exists_files 3 (by decide) _
      false _
      Sample.history Sample.interrupts fun part _ => rfl
  obtain ⟨-, hentries, -, hprocessed, -, -, hstats⟩ :=
    hcarried Sample.settings Sample.history .backwards _ (by decide)
      (Chunked.Settings.ready_of_store rfl hready) (fun part _ => rfl) (Or.inl rfl)
  exact ⟨hresult, hengine.2.1, restored, hposition, hentries, hprocessed, hstats⟩

/-- **The run that is carried on may end with other couplings** than one without the interruption,
if the tables of the two come in different orders: the count of `bar` with `foo` is 2 in the one and
1 in the other. **And a commit that touches nothing has no statistics**, though the engine has
processed it. -/
theorem resumed_run_differs :
    let start := Engine.new Sample.query 0
    let out :=
      Chunked.runIn .byKey Sample.settings false start Sample.files Sample.ids Sample.damaged
    let full :=
      Chunked.runIn .byKey Sample.settings false start Sample.files Sample.ids Sample.history
    Chunked.Interrupts Sample.story Sample.ids Sample.settings.chunkSize 3
        (.repository "unreadable") false Sample.damaged ∧
    (((Sample.ids.map Sample.story).filter (·.isMerge)).map (·.hash)).Nodup ∧
    start.KeepsApart (Sample.ids.map Sample.story) ∧
    (∃ counts, full.result = .ok counts) ∧
    ∃ restored, Analysis.resumePosition Sample.store out.files start Sample.ids =
        .ok (out.files, restored, 2) ∧
      let resumed := Chunked.runIn .backwards Sample.settings false restored out.files
        (Sample.ids.drop 2) Sample.history
      (∃ counts, resumed.result = .ok counts) ∧ resumed.engine.processed = 4 ∧
      resumed.engine.last = some "fourth" ∧
      resumed.engine.registry.entries ≠ full.engine.registry.entries ∧
      ¬ ∀ hash, hash ∈ resumed.engine.stats ↔ hash ∈ Sample.ids.drop 2 := by
  intro start out full
  have hfresh : start.FreshMerges (Sample.ids.map Sample.story) :=
    freshMerges_new Sample.query 0 (by decide)
  have hready := Chunked.Settings.ready_of_store (s := Sample.settings) rfl
    Sample.prepared_files.ready
  have hleft := (Chunked.runIn_interrupts .byKey Sample.interrupts (by decide) (by decide) hfresh
    hready).ready
  obtain ⟨restored, hposition, hresembles, hempty⟩ := resumePosition_of_interrupts Sample.interrupts
    (by decide) (by decide) (by decide) (by decide) Sample.keepsApart_story Sample.fits_story
    Sample.valid_start rfl Sample.prepared_files.ready Sample.not_exists_files
  have htwo : Sample.settings.chunkSize * (3 / Sample.settings.chunkSize) = 2 := rfl
  rw [htwo] at hposition hresembles
  have hrest : Yields Sample.story (Sample.ids.drop 2) Sample.history := fun part _ => rfl
  have hwhole : Yields Sample.story Sample.ids Sample.history := fun part _ => rfl
  obtain ⟨hdone, hsame, hstats⟩ := runIn_of_resembles .backwards (by decide) hleft (by decide)
    (by decide) hresembles hempty hrest
  obtain ⟨hdone', hsame', -⟩ := Chunked.runChunksIn_yielded .byKey (by decide)
    (Engine.Resembles.refl start) hfresh hready hwhole ⟨0, 0, 0, 0, 0⟩
  refine ⟨Sample.interrupts, by decide, Sample.keepsApart_story, hdone', restored, hposition, hdone,
    hsame.processed.trans processed_runIn_of_ids, hsame.last.trans (last_runIn_of_ids (by decide)),
    fun hentries => ?_, fun hall => ?_⟩
  · -- the two runs over all commits in one go differ in the last one
    rw [hsame.registry] at hentries
    have hplain := hentries.trans (congrArg Registry.entries hsame'.registry)
    exact absurd (congrArg (Entries.coupling · "Function_bar_x.go" "Function_foo_c.go") hplain)
      (by decide +kernel)
  · -- the statistics are those of an engine that has only consumed the rest
    have hfourth := (hall "fourth").mpr (by decide)
    rw [hstats] at hfourth
    exact absurd hfourth (by decide +kernel)

end CoChange
