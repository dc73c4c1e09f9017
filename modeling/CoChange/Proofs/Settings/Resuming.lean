import CoChange.Analysis
import CoChange.CommandLine.Check
import CoChange.Proofs.Settings.Precedence

/-!
# Whether a request to resume is honoured

A command line that asks to resume may not ask for several shards as well, because a run in shards
has nothing to do with checkpoints. But the number of shards may come from the settings, and nothing
is refused there.

* **`CommandLine.shards_of_check`**: what the check leaves of the number of shards.
* **`Analysis.run_resumes`**, **`Analysis.run_ignoresCheckpoints`**: an analysis with one shard goes
  on from the checkpoint, one with several shards is blind to it.
* **`resume_kept_iff`**: a request to resume leads to one shard exactly if the command line or the
  settings say so.
* **`resume_dropped_by_setting`**: a request that is dropped for a number of shards in the settings.
-/

namespace CoChange

variable {c : CommandLine} {s : Settings} {config : AnalysisConfig}

/-! ## The number of shards -/

namespace CommandLine

theorem require_eq_ok_iff {holds : Bool} {fault : ArgumentFault} {u : Unit} :
    require holds fault = .ok u ↔ holds = true := by
  cases holds <;> simp [require]

/-- **A command line that passes the check asks for some shards, and for one at most if it asks to
resume.** -/
theorem shards_of_check (h : c.check = .ok ()) :
    c.shards ≠ some 0 ∧ (c.resume = true → c.shards.any (1 < ·) = false) := by
  unfold check at h
  cases hmemory : c.maxMemory with
  | none =>
    simp only [hmemory, bind_eq_ok_iff, require_eq_ok_iff, exists_and_left, exists_const] at h
    obtain ⟨-, -, -, -, -, -, -, -, hshards, -, hresume, -⟩ := h
    exact ⟨of_decide_eq_true hshards, fun hasked => by simpa [hasked] using hresume⟩
  | some size =>
    simp only [hmemory, bind_eq_ok_iff, require_eq_ok_iff, exists_and_left, exists_const] at h
    obtain ⟨-, -, -, -, -, -, -, -, -, -, hshards, -, hresume, -⟩ := h
    exact ⟨of_decide_eq_true hshards, fun hasked => by simpa [hasked] using hresume⟩

/-- Of the numbers of shards only one goes with a request to resume. -/
theorem shards_of_resume (hcheck : c.check = .ok ()) (hresume : c.resume = true) :
    c.shards = none ∨ c.shards = some 1 := by
  obtain ⟨hzero, hseveral⟩ := shards_of_check hcheck
  cases hshards : c.shards with
  | none => exact .inl rfl
  | some n =>
    have hfew : ¬ 1 < n := by simpa [hshards] using hseveral hresume
    have hsome : n ≠ 0 := fun hn => hzero (by rw [hshards, hn])
    exact .inr (congrArg some (by omega))

end CommandLine

/-- Settings that pass the check have some shard. -/
theorem AnalysisConfig.shards_of_validate (h : config.validate = .ok ()) : config.shards ≠ 0 := by
  intro hzero
  rw [validate, if_pos hzero] at h
  split at h
  · simp at h
  · split at h <;> simp at h

/-- The settings come to one shard: they say so, or say nothing. -/
def Settings.ComesToOneShard (s : Settings) : Prop :=
  Understood ((s.said "shards").map Text.parseNumber) AnalysisConfig.defaults.shards 1

/-- **Where there is one shard in spite of the settings, the command line says so.** A number of
shards is never zero, so at most one is one. -/
theorem CommandLine.Sources.shards_le_one_iff (h : c.Sources s config)
    (hvalid : config.validate = .ok ()) (hshards : c.shards = none ∨ c.shards = some 1) :
    config.shards ≤ 1 ↔ c.shards = some 1 ∨ s.ComesToOneShard := by
  have hpositive := AnalysisConfig.shards_of_validate hvalid
  have hsource := h.shards
  rcases hshards with hnone | hone
  · rw [hnone, Option.map_none, Option.none_or] at hsource
    -- with nothing said on the command line the settings alone tell the number
    have hunique : config.shards = 1 ↔ s.ComesToOneShard :=
      ⟨fun hone => by rw [hone] at hsource; exact hsource, fun hone => hsource.unique hone⟩
    rw [hnone, ← hunique]
    simp only [reduceCtorEq, false_or]
    omega
  · rw [hone] at hsource
    have hshards : config.shards = 1 := (Except.ok.inj hsource).symm
    exact iff_of_true hshards.le (.inl hone)

/-! ## What becomes of the checkpoint -/

namespace Analysis

variable {repositories : Repositories} {path : String} {scope : Scope} {stopped : Bool}
    {setting : Setting}

/-- An analysis of some commits goes on from the checkpoint of a store, or says why it cannot. -/
structure Resumes (r : Repository) (e : Engine) (store : CheckpointStore) (config : AnalysisConfig)
    (ids : List String) (stopped : Bool) (setting : Setting)
    (outcome : Except AnalysisError RawReport) : Prop where
  refused : ∀ err, resumePosition store setting.files e ids = .error err →
    outcome = .error (.engine err)
  restored : ∀ files restored position, resumePosition store setting.files e ids =
    .ok (files, restored, position) →
    let rest := Chunked.run ⟨config.chunkSize, config.maxMemoryBytes, some store, setting.now⟩
      stopped restored files
      (ids.drop position) (openHistory r)
    outcome = (rest.result.mapError .run).map fun _ => rest.engine.finalize

/-- An analysis neither reads nor changes any files, and a request to resume makes no difference. -/
structure IgnoresCheckpoints (repositories : Repositories) (path : String) (config : AnalysisConfig)
    (scope : Scope)
    (stopped : Bool) (setting : Setting) : Prop where
  blind : ∀ files, (run repositories path config scope stopped { setting with files }).2 =
    (run repositories path config scope stopped setting).2
  untouched : (run repositories path config scope stopped setting).1 = setting.files
  unasked : run repositories path config { scope with resume := false } stopped setting =
    run repositories path config scope stopped setting

theorem store?_of_resume (config : AnalysisConfig) (cache path : String) :
    store? config true cache path = some ⟨config.checkpointDir.getD cache, path⟩ := by
  rw [store?]
  cases config.checkpointDir <;> rfl

section Chunked

variable {r : Repository} {e : Engine} {ids : List String}

/-- A run that cannot be resumed says why. -/
theorem runChunked_of_refused {err : EngineError}
    (h : resumePosition ⟨config.checkpointDir.getD setting.cache, path⟩ setting.files e ids =
      .error err) :
    runChunked r path config true stopped e ids setting =
      (setting.files, .error (.engine err)) := by
  unfold runChunked
  rw [store?_of_resume]
  dsimp only
  rw [h]

/-- A run that can be resumed goes on behind the commits of the checkpoint, with its engine. -/
theorem runChunked_of_restored {files : FileSystem} {restored : Engine} {position : Nat}
    (h : resumePosition ⟨config.checkpointDir.getD setting.cache, path⟩ setting.files e ids =
      .ok (files, restored, position)) :
    let rest := Chunked.run ⟨config.chunkSize, config.maxMemoryBytes,
      some ⟨config.checkpointDir.getD setting.cache, path⟩, setting.now⟩ stopped restored files
      (ids.drop position) (openHistory r)
    (runChunked r path config true stopped e ids setting).2.map (·.finalize) =
      (rest.result.mapError .run).map fun _ => rest.engine.finalize := by
  intro rest
  unfold runChunked
  rw [store?_of_resume]
  dsimp only
  rw [h]
  dsimp only
  split <;> rename_i hresult
  · rw [show rest.result = _ from hresult]
    rfl
  · rw [show rest.result = _ from hresult]
    rfl

end Chunked

/-- **An analysis with one shard goes on from the checkpoint.** The history is cut at the position
that the checkpoint gives, and consumed in chunks from there. -/
theorem run_resumes {r : Repository} {e : Engine} (hshards : config.shards ≤ 1)
    (hresume : scope.resume = true)
    (hopen : repositories.open path = .ok r) (hengine : engine config = .ok e) :
    Resumes r e ⟨config.checkpointDir.getD setting.cache, path⟩
      config (mostRecent scope.limit r.history) stopped
      setting (run repositories path config scope stopped setting).2 := by
  have hrun : (run repositories path config scope stopped setting).2 =
      (runChunked r path config true stopped e (mostRecent scope.limit r.history) setting).2.map
        (·.finalize) := by
    rw [run, hopen, hengine, hresume]
    simp only [if_neg (Nat.not_lt.mpr hshards)]
  rw [hrun]
  -- the two ways in which the position of the checkpoint can come out
  refine ⟨fun err herr => ?_,
    fun files restored position hposition => runChunked_of_restored hposition⟩
  rw [runChunked_of_refused herr]
  rfl

/-- What a run in shards comes to, in which no files occur. -/
theorem run_of_shards (hshards : 1 < config.shards) :
    run repositories path config scope stopped setting =
      (setting.files, match repositories.open path, engine config with
        | .error err, _ => .error (.history err)
        | _, .error err => .error (.engine err)
        | .ok r, .ok e =>
          let run :=
            Sharded.run stopped e (mostRecent scope.limit r.history) config.shards (openHistory r)
          (run.outcome.mapError .history).map fun _ => run.engine.finalize) := by
  rw [run]
  cases repositories.open path <;> cases engine config <;> simp [hshards]

/-- **An analysis with several shards is blind to the checkpoint.** No file of the store is read or
written, whether it is asked to resume or not. -/
theorem run_ignoresCheckpoints (hshards : 1 < config.shards) :
    IgnoresCheckpoints repositories path config scope stopped setting where
  blind files := by rw [run_of_shards hshards, run_of_shards hshards]
  untouched := by rw [run_of_shards hshards]
  unasked := by rw [run_of_shards hshards, run_of_shards hshards]

end Analysis

/-- **When a request to resume is kept.** Where a command line that passes the check asks to resume,
there is one shard exactly if the command line says so, or the settings come to it; then the
analysis goes on from the checkpoint. If the settings come to more shards the analysis takes no
notice of the checkpoint, and runs as if nobody had asked. -/
theorem resume_kept_iff (hcheck : c.check = .ok ()) (hresume : c.resume = true)
    (hconfig : c.analysisConfig s = .ok config) :
    (config.shards ≤ 1 ↔ c.shards = some 1 ∨ s.ComesToOneShard) ∧
    ∀ repositories path stopped setting,
      (config.shards ≤ 1 → ∀ r e, repositories.open path = .ok r → Analysis.engine config = .ok e →
        Analysis.Resumes r e ⟨config.checkpointDir.getD setting.cache, path⟩ config
          (Analysis.mostRecent c.limit r.history) stopped setting
          (Analysis.run repositories path config ⟨c.limit, c.resume⟩ stopped setting).2) ∧
      (1 < config.shards →
        Analysis.IgnoresCheckpoints repositories
          path config ⟨c.limit, c.resume⟩ stopped setting) := by
  obtain ⟨-, hsources, hvalid⟩ := CommandLine.analysisConfig_eq_ok_iff.mp hconfig
  refine ⟨hsources.shards_le_one_iff hvalid (CommandLine.shards_of_resume hcheck hresume), ?_⟩
  intro repositories path stopped setting
  refine ⟨fun hone r e hopen hengine => ?_, Analysis.run_ignoresCheckpoints⟩
  exact Analysis.run_resumes (show config.shards ≤ 1 from hone)
    (show (⟨c.limit, c.resume⟩ : Analysis.Scope).resume = true from hresume) hopen hengine

namespace Sample

/-- A command line that asks to resume, and for nothing else. -/
def resuming : CommandLine := { CommandLine.defaults with resume := true }

end Sample

/-- The request is kept with a file that asks for one shard, and dropped with one that asks for
four. -/
theorem resume_kept_sample :
    Sample.resuming.check = .ok () ∧ Sample.resuming.resume = true ∧
    Sample.resuming.analysisConfig (Sample.sharded "1") =
      .ok { AnalysisConfig.defaults with shards := 1 } ∧
    (Sample.sharded "1").ComesToOneShard ∧
    Sample.resuming.analysisConfig (Sample.sharded "4") =
      .ok { AnalysisConfig.defaults with shards := 4 } ∧
    ¬ (Sample.sharded "4").ComesToOneShard := by
  have hcheck : Sample.resuming.check = .ok () := by decide +kernel
  have hone : Sample.resuming.analysisConfig (Sample.sharded "1") =
      .ok { AnalysisConfig.defaults with shards := 1 } := by decide +kernel
  have hfour : Sample.resuming.analysisConfig (Sample.sharded "4") =
      .ok { AnalysisConfig.defaults with shards := 4 } := by decide +kernel
  have hkept := (resume_kept_iff hcheck rfl hone).1.mp (by decide)
  have hdropped := mt (resume_kept_iff hcheck rfl hfour).1.mpr (by decide)
  exact ⟨hcheck, rfl, hone, hkept.resolve_left (by decide), hfour, fun h => hdropped (.inr h)⟩

/-- **A number of shards in the settings drops a request to resume.** The command line passes the
check, the settings are sound, and the analysis runs in four shards, whatever checkpoint there
is. -/
theorem resume_dropped_by_setting :
    CommandLine.parse ["--resume"] = .ok Sample.resuming ∧ Sample.resuming.check = .ok () ∧
    Sample.resuming.resume = true ∧
    Sample.resuming.analysisConfig (Sample.sharded "4") =
      .ok { AnalysisConfig.defaults with shards := 4 } ∧
    ∀ repositories path stopped setting,
      Analysis.IgnoresCheckpoints repositories path { AnalysisConfig.defaults with shards := 4 }
        ⟨Sample.resuming.limit, Sample.resuming.resume⟩ stopped setting :=
  ⟨by decide +kernel, by decide +kernel, rfl, by decide +kernel,
    fun _ _ _ _ => Analysis.run_ignoresCheckpoints (by decide)⟩

end CoChange
