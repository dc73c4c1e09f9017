import CoChange.Proofs.Binary
import CoChange.Proofs.Checkpoint.Metadata
import CoChange.Proofs.Checkpoint.Saving
import CoChange.Proofs.Registry.Event

/-!
# Resuming is safe against crashes

A save may be interrupted between any two steps, and within a write (`FileSystem.Leaves`); so may
the saves after it. `Saves` are such sequences. What a resumption finds after them is not always the
last state, but it is one state:

* **`Sound`**: if there is a description, it is that of some save, and beside it stands the state of
  some save. Each save preserves it, wherever it is interrupted (**`Sound.leaves`**).
* **`resumeInPlace_of_files`**: where the two are of different saves, the state counts alone.
* **`resume_is_crash_safe`**: a resumption finds no checkpoint or restores one of the saved engines.
* **`exists_of_leaves`**: no interrupted save loses a checkpoint that was there.
-/

namespace CoChange

open FileSystem (Leaves)

/-- A log has the hashes that it is made of. -/
theorem MergeLog.hashes_ofHashes (log : MergeLog) : (ofHashes log.hashes).hashes = log.hashes :=
  congrArg SortedMap.keys (SortedSet.ofList_keys (log.seen.getD ∅))

namespace CheckpointStore

variable {s : CheckpointStore} {fs fs' : FileSystem}

/-! ## What saves leave -/

/-- Saves of engines, each at some time, one after the other; each may be interrupted. -/
inductive Saves (s : CheckpointStore) (fs₀ : FileSystem) :
    List (Timestamp × Engine) → FileSystem → Prop
  | none : Saves s fs₀ [] fs₀
  | save {saves : List (Timestamp × Engine)} {fs fs' : FileSystem} {now : Timestamp} {e : Engine}
      (h : Saves s fs₀ saves fs) (hleaves : Leaves fs (s.saveSteps now e.state) fs') :
      Saves s fs₀ (saves ++ [(now, e)]) fs'

/-- If there is a description, it is that of one of the saves, and the state of one of them stands
beside it. -/
structure Sound (s : CheckpointStore) (saves : List (Timestamp × Engine)) (fs : FileSystem) :
    Prop where
  described : fs.isFile s.metadataFile = true → ∃ save ∈ saves, fs.entry? s.metadataFile =
    some (.file (s.metadataOf save.1 save.2.state).toJson.pretty.toUTF8.toList)
  held : fs.isFile s.metadataFile = true → ∃ save ∈ saves,
    fs.entry? s.stateFile = some (.file save.2.state.toBinary)
  directory : fs.isFile s.metadataFile = true → fs.isDirectory s.directory = true

namespace Sound

variable {saves saves' : List (Timestamp × Engine)} {now : Timestamp} {e : Engine}

theorem mono (h : s.Sound saves fs) (hsub : ∀ save ∈ saves, save ∈ saves') :
    s.Sound saves' fs where
  described hfile := (h.described hfile).imp fun save hs => ⟨hsub save hs.1, hs.2⟩
  held hfile := (h.held hfile).imp fun save hs => ⟨hsub save hs.1, hs.2⟩
  directory := h.directory

/-- Directories that are added leave the files of a store sound. -/
theorem adds (h : s.Sound saves fs) (hadds : fs.AddsDirectories fs') : s.Sound saves fs' := by
  have hfile : fs'.isFile s.metadataFile = true → fs.isFile s.metadataFile = true := by
    rw [FileSystem.isFile_iff, FileSystem.isFile_iff]
    exact fun ⟨content, hc⟩ => ⟨content, hadds.file_iff.mp hc⟩
  exact ⟨fun hf => (h.described (hfile hf)).imp fun save hs => ⟨hs.1, hadds.file_iff.mpr hs.2⟩,
    fun hf => (h.held (hfile hf)).imp fun save hs => ⟨hs.1, hadds.file_iff.mpr hs.2⟩,
    fun hf => hadds.isDirectory (h.directory (hfile hf))⟩

/-- Whatever is left of writing the state, the files are sound: the old state is there or the new
one, and both are of engines that were to be saved. -/
theorem leaves_state (h : s.Sound saves fs) (hmem : (now, e) ∈ saves)
    (hleaves : Leaves fs (s.stateSteps e.state) fs') : s.Sound saves fs' := by
  obtain ⟨hstate, hmetadata, hdirectory⟩ := leaves_stateSteps hleaves
  have hfile : fs'.isFile s.metadataFile = fs.isFile s.metadataFile := by
    rw [FileSystem.isFile, FileSystem.isFile, hmetadata]
  refine ⟨fun hf => ?_, fun hf => ?_, fun hf => ?_⟩
  · rw [hmetadata]
    exact h.described (hfile ▸ hf)
  · rcases hstate with hold | hnew
    · rw [hold]
      exact h.held (hfile ▸ hf)
    · exact ⟨(now, e), hmem, hnew⟩
  · rw [FileSystem.isDirectory, hdirectory]
    exact h.directory (hfile ▸ hf)

/-- The description is replaced when the state of the save is already there. -/
theorem leaves_metadata (h : s.Sound saves fs) (hmem : (now, e) ∈ saves)
    (hstate : fs.entry? s.stateFile = some (.file e.state.toBinary))
    (hdir : fs.isDirectory s.directory = true)
    (hleaves : Leaves fs (s.metadataSteps (s.metadataOf now e.state)) fs') : s.Sound saves fs' := by
  obtain ⟨hmetadata, hstate', hdirectory⟩ := leaves_metadataSteps hleaves
  refine ⟨fun hf => ?_, fun _ => ⟨(now, e), hmem, hstate'.trans hstate⟩, fun _ => ?_⟩
  · rcases hmetadata with hold | hnew
    · rw [hold]
      refine h.described ?_
      rwa [FileSystem.isFile, hold] at hf
    · exact ⟨(now, e), hmem, hnew⟩
  · rwa [FileSystem.isDirectory, hdirectory]

/-- **A save keeps it, wherever it is interrupted.** The steps of a save are those of the directory,
the state and the metadata, and each of them leaves the files sound whether it is done, torn or not
met. -/
theorem leaves (h : s.Sound saves fs) (hmem : (now, e) ∈ saves)
    (hleaves : Leaves fs (s.saveSteps now e.state) fs') : s.Sound saves fs' := by
  cases hleaves with
  | torn _ htears =>
    cases htears with
    | untouched => exact h
    | directories hadds => exact h.adds hadds
  | @step _ fs₁ _ _ _ happly hrest =>
    obtain ⟨hadds, hdir⟩ := FileSystem.adds_makeDirectories happly
    -- the description is only reached when the state of this save is in its place
    rcases hrest.cases_append with hstate | ⟨fs₂, hperform, hmetadata⟩
    · exact (h.adds hadds).leaves_state hmem hstate
    · have hstate := FileSystem.leaves_of_perform hperform
      have hheld := perform_stateSteps hperform
      have hdir' : fs₂.isDirectory s.directory = true := by
        rw [FileSystem.isDirectory, (leaves_stateSteps hstate).2.2]
        exact hdir
      exact ((h.adds hadds).leaves_state hmem hstate).leaves_metadata hmem hheld hdir' hmetadata

end Sound

/-- A save that is completed, or fails, is one of the saves that a file system may come from. -/
theorem Saves.of_save {fs₀ : FileSystem} {saves : List (Timestamp × Engine)}
    (h : s.Saves fs₀ saves fs) (now : Timestamp) (e : Engine) :
    s.Saves fs₀ (saves ++ [(now, e)]) (s.save now e fs).1 := by
  refine .save h ?_
  rw [CheckpointStore.save, fst_performSteps]
  exact FileSystem.leaves_perform fs _

/-- After any saves, whether they were completed or broke off, the files of a store are sound, if
there was no checkpoint before. -/
theorem Saves.sound {fs₀ : FileSystem} {saves : List (Timestamp × Engine)}
    (h : s.Saves fs₀ saves fs) (hnone : fs₀.isFile s.metadataFile = false) : s.Sound saves fs := by
  induction h with
  | none => exact ⟨by simp [hnone], by simp [hnone], by simp [hnone]⟩
  | save _ hleaves ih =>
    exact (ih.mono fun save hs => List.mem_append_left _ hs).leaves (by simp) hleaves

/-! ## What a resumption finds -/

theorem readText_of_file {path text : String}
    (hparent : fs.isDirectory (FilePath.parent path) = true)
    (h : fs.entry? path = some (.file text.toUTF8.toList)) : fs.readText path = .ok text := by
  rw [FileSystem.readText, FileSystem.read_of_file hparent h, ok_bind, fromUTF8?_toUTF8]

theorem fits_metadataOf {now : Timestamp} {state : EngineState} (hnow : now.Valid)
    (hstate : state.Fits) : (s.metadataOf now state).Fits :=
  ⟨(by decide : FormatVersion.current < UInt32.size), hnow, hstate.processed⟩

/-- Metadata that stand in their file are loaded as they were saved. -/
theorem loadMetadata_of_file {m : CheckpointMetadata} (hm : m.Fits)
    (hdir : fs.isDirectory s.directory = true)
    (h : fs.entry? s.metadataFile = some (.file m.toJson.pretty.toUTF8.toList)) :
    s.loadMetadata fs = .ok m := by
  have hparent : fs.isDirectory (FilePath.parent s.metadataFile) = true := by
    rw [parent_metadataFile]
    exact hdir
  have htext := readText_of_file hparent h
  unfold loadMetadata
  rw [htext]
  dsimp only
  rw [CheckpointMetadata.parse_toJson hm]
  dsimp only
  rw [CheckpointMetadata.decoder_toJson hm]

/-- A state that stands in its file is loaded as it was saved. -/
theorem loadState_of_file {state : EngineState} (hstate : state.Fits)
    (hdir : fs.isDirectory s.directory = true)
    (h : fs.entry? s.stateFile = some (.file state.toBinary)) : s.loadState fs = .ok state := by
  have hparent : fs.isDirectory (FilePath.parent s.stateFile) = true := by
    rw [parent_stateFile]
    exact hdir
  have hbytes := FileSystem.read_of_file hparent h
  have hread := EngineState.ofBinary_toBinary hstate []
  rw [List.append_nil] at hread
  unfold loadState
  rw [hbytes]
  exact hread

theorem resumeInPlace_of_not_exists (h : s.exists_ fs = false) (e : Engine) :
    (s.resumeInPlace fs).run e = (.ok none, e) := by
  rw [resumeInPlace, h]
  rfl

theorem resumeInPlace_of_load_error {err : EngineError} (h : s.exists_ fs = true)
    (hload : s.load fs = .error err) (e : Engine) :
    (s.resumeInPlace fs).run e = (.error err, e) := by
  rw [resumeInPlace, h, hload]
  rfl

/-- What is resumed from files that can be loaded: the engine takes the state over, and the metadata
have the position of the state. -/
theorem resumeInPlace_of_load {found : CheckpointMetadata × EngineState} (h : s.exists_ fs = true)
    (hload : s.load fs = .ok found) (e : Engine) :
    (s.resumeInPlace fs).run e =
      (.ok (some { found.1 with processed := found.2.processed, last := found.2.last }),
        e.restore found.2) := by
  rw [resumeInPlace, h, hload]
  rfl

/-- **The state counts, whatever save the description is of.** The state is loaded whole, and of the
description only what is not in the state is kept. -/
theorem resumeInPlace_of_files {now : Timestamp} {described state : EngineState} (hnow : now.Valid)
    (hdescribed : described.Fits) (hstate : state.Fits) (hdir : fs.isDirectory s.directory = true)
    (hmetadata : fs.entry? s.metadataFile =
      some (.file (s.metadataOf now described).toJson.pretty.toUTF8.toList))
    (hfile : fs.entry? s.stateFile = some (.file state.toBinary)) (e : Engine) :
    (s.resumeInPlace fs).run e = (.ok (some (s.metadataOf now state)), e.restore state) := by
  have hexists : s.exists_ fs = true := by
    rw [exists_, FileSystem.isFile, FileSystem.isFile, hmetadata, hfile]
    rfl
  have hload : s.load fs = .ok (s.metadataOf now described, state) := by
    -- the description is of this version and of this repository
    have hvalid : (s.metadataOf now described).validate s.repository = .ok () := by
      have hversion : ¬ (!FormatVersion.isCompatible FormatVersion.current) = true := by decide
      rw [CheckpointMetadata.validate]
      exact (if_neg hversion).trans (if_neg fun h => h rfl)
    rw [load, loadMetadata_of_file (fits_metadataOf hnow hdescribed) hdir hmetadata, ok_bind,
      hvalid, ok_bind, loadState_of_file hstate hdir hfile, ok_bind]
    rfl
  exact resumeInPlace_of_load hexists hload e

/-- Nothing is restored unless everything was read. -/
theorem resumeInPlace_of_error {e e' : Engine} {err : EngineError}
    (h : (s.resumeInPlace fs).run e = (.error err, e')) : e' = e := by
  cases hexists : s.exists_ fs with
  | false =>
    rw [resumeInPlace_of_not_exists hexists] at h
    exact (congrArg Prod.snd h).symm
  | true =>
    cases hload : s.load fs with
    | error err' =>
      rw [resumeInPlace_of_load_error hexists hload] at h
      exact (congrArg Prod.snd h).symm
    | ok found =>
      rw [resumeInPlace_of_load hexists hload] at h
      cases congrArg Prod.fst h

/-- **No save loses a checkpoint**, wherever it is interrupted. The state is moved into its place in
one step, so there is no moment without one. -/
theorem exists_of_leaves {now : Timestamp} {state : EngineState} (h : s.exists_ fs = true)
    (hleaves : Leaves fs (s.saveSteps now state) fs') : s.exists_ fs' = true := by
  simp only [exists_, Bool.and_eq_true, FileSystem.isFile_iff] at h ⊢
  -- no step takes a file away: it keeps its content or gets another one
  have hstays : ∀ {p : String} {fs fs' : FileSystem} {content : FileContent},
      (∃ c, fs.entry? p = some (.file c)) →
      (fs'.entry? p = fs.entry? p ∨ fs'.entry? p = some (.file content)) →
      ∃ c, fs'.entry? p = some (.file c) := by
    rintro p fs fs' content ⟨c, hc⟩ (hold | hnew)
    · exact ⟨c, hold.trans hc⟩
    · exact ⟨content, hnew⟩
  cases hleaves with
  | torn _ htears =>
    cases htears with
    | untouched => exact h
    | directories hadds =>
      exact ⟨h.1.imp fun _ => hadds.file_iff.mpr, h.2.imp fun _ => hadds.file_iff.mpr⟩
  | step happly hrest =>
    have hadds := (FileSystem.adds_makeDirectories happly).1
    have h₁ := And.intro (h.1.imp fun _ => hadds.file_iff.mpr) (h.2.imp fun _ => hadds.file_iff.mpr)
    rcases hrest.cases_append with hstate | ⟨fs₂, hperform, hmetadata⟩
    · obtain ⟨hstate', hmetadata', -⟩ := leaves_stateSteps hstate
      exact ⟨hstays h₁.1 hstate', hmetadata' ▸ h₁.2⟩
    · obtain ⟨hstate', hmetadata', -⟩ := leaves_stateSteps (FileSystem.leaves_of_perform hperform)
      obtain ⟨hmetadata'', hstate'', -⟩ := leaves_metadataSteps hmetadata
      exact ⟨hstate'' ▸ hstays h₁.1 hstate', hstays (hmetadata' ▸ h₁.2) hmetadata''⟩

theorem Holds.exists_ {now : Timestamp} {state : EngineState} (h : s.Holds now state fs) :
    s.exists_ fs = true := by
  rw [CheckpointStore.exists_, FileSystem.isFile, FileSystem.isFile, h.described, h.held]
  rfl

/-- A saved state is restored. -/
theorem Holds.resumeInPlace {now : Timestamp} {state : EngineState} (h : s.Holds now state fs)
    (hnow : now.Valid) (hstate : state.Fits) (e : Engine) :
    (s.resumeInPlace fs).run e = (.ok (some (s.metadataOf now state)), e.restore state) :=
  resumeInPlace_of_files hnow hstate hstate h.directory h.described h.held e

end CheckpointStore

open CheckpointStore in
/-- **A resumption finds no checkpoint or restores one of the saved engines**, whole, with its own
position, however many of the saves were interrupted and wherever. If it fails, on any files, the
engine is as it was. -/
theorem resume_is_crash_safe (s : CheckpointStore) {fs₀ fs : FileSystem}
    {saves : List (Timestamp × Engine)} (hnone : fs₀.isFile s.metadataFile = false)
    (hsaves : s.Saves fs₀ saves fs) (hfits : ∀ save ∈ saves, save.1.Valid ∧ save.2.state.Fits) :
    (∀ fresh : Engine,
      (s.exists_ fs = false ∧ (s.resumeInPlace fs).run fresh = (.ok none, fresh)) ∨
      ∃ save ∈ saves, ∃ m restored,
        (s.resumeInPlace fs).run fresh = (.ok (some m), restored) ∧
        restored.registry.entries = save.2.registry.entries ∧
        restored.merges.hashes = save.2.merges.hashes ∧
        restored.processed = save.2.processed ∧ restored.last = save.2.last ∧
        m.processed = save.2.processed ∧ m.last = save.2.last) ∧
    (∀ (fs : FileSystem) (e e' : Engine) (err : EngineError),
      (s.resumeInPlace fs).run e = (.error err, e') → e' = e) := by
  refine ⟨fun fresh => ?_, fun fs e e' err => resumeInPlace_of_error⟩
  cases hexists : s.exists_ fs with
  | false => exact Or.inl ⟨rfl, resumeInPlace_of_not_exists hexists fresh⟩
  | true =>
    have hsound := hsaves.sound hnone
    have hfile : fs.isFile s.metadataFile = true := by
      rw [exists_, Bool.and_eq_true] at hexists
      exact hexists.2
    obtain ⟨⟨now, described⟩, hmem, hmetadata⟩ := hsound.described hfile
    obtain ⟨save, hsave, hstate⟩ := hsound.held hfile
    refine Or.inr ⟨save, hsave, _, _, resumeInPlace_of_files (hfits _ hmem).1 (hfits _ hmem).2
      (hfits _ hsave).2 (hsound.directory hfile) hmetadata hstate fresh,
      rfl, ?_, rfl, rfl, rfl, rfl⟩
    exact MergeLog.hashes_ofHashes save.2.merges

/-! ### A second save that is cut off between its two files -/

namespace Sample

def store : CheckpointStore := ⟨"", "repository"⟩

/-- Only the directory of the checkpoint is there. -/
def files : FileSystem := ⟨SortedMap.empty.insert store.directory .directory⟩

theorem directory_store : store.directory = CheckpointStore.repositoryHash "repository" := by
  have hempty : ("" : String).isEmpty = true := rfl
  rw [CheckpointStore.directory, store, FilePath.join, hempty, Bool.true_or, if_pos rfl]

/-- Nothing stands at the files yet. -/
theorem entry?_files {name : String} (h : FilePath.Plain name) :
    files.entry? (store.file name) = none := by
  have hlength : 17 ≤ (store.file name).length := by
    rw [CheckpointStore.file_eq h, String.length_append, String.length_append, directory_store,
      CheckpointStore.length_repositoryHash]
    exact Nat.le_add_right 17 _
  have hfixed : ¬ FileSystem.Fixed (store.file name) := by
    rintro (heq | heq | heq) <;> rw [heq] at hlength <;> exact absurd hlength (by decide)
  rw [FileSystem.entry?_of_not_fixed hfixed, files, SortedMap.get?_insert,
    if_neg (CheckpointStore.directory_ne_file h store).symm]
  rfl

/-- The file system of the sample has the directory of the store, and no directory where its files
go. -/
theorem prepared_files : store.Prepared files where
  parent := by
    rw [directory_store, FilePath.parent_plain (CheckpointStore.plain_repositoryHash _)]
    rfl
  directory := by
    rw [FileSystem.isDirectory_iff]
    by_cases hfixed : FileSystem.Fixed store.directory
    · exact FileSystem.entry?_of_fixed hfixed files
    · rw [FileSystem.entry?_of_not_fixed hfixed, files, SortedMap.get?_insert_self]
  free name h := by
    rw [FileSystem.isDirectory, entry?_files (CheckpointStore.plain_of_mem name h)]
    rfl

end Sample

/-- A first save is completed, and a second one breaks off after three of its steps, with the new
state in its place and the old metadata. What is resumed is one of the two engines as a whole. -/
theorem resume_is_crash_safe_sample :
    let now : Timestamp := ⟨0, 0⟩
    let e₁ := (Engine.new Sample.query 0).step Sample.first
    let e₂ := e₁.step Sample.second
    let fs₁ := (Sample.store.save now e₁ Sample.files).1
    let fs₂ := (fs₁.perform ((Sample.store.saveSteps now e₂.state).take 3)).1
    Sample.files.isFile Sample.store.metadataFile = false ∧
    Sample.store.Saves Sample.files [(now, e₁), (now, e₂)] fs₂ ∧
    (∀ save ∈ [(now, e₁), (now, e₂)], save.1.Valid ∧ save.2.state.Fits) ∧
    ∃ e ∈ [e₁, e₂], ∃ m restored,
      (Sample.store.resumeInPlace fs₂).run e₁.reset = (.ok (some m), restored) ∧
      restored.registry.entries = e.registry.entries ∧ restored.merges.hashes = e.merges.hashes ∧
      restored.processed = e.processed ∧ restored.last = e.last ∧ m.processed = e.processed ∧
      m.last = e.last := by
  intro now e₁ e₂ fs₁ fs₂
  have hnone : Sample.files.isFile Sample.store.metadataFile = false := by
    rw [FileSystem.isFile, CheckpointStore.metadataFile, Sample.entry?_files (by decide)]
  have hfits : ∀ save ∈ [(now, e₁), (now, e₂)], save.1.Valid ∧ save.2.state.Fits := by
    have hnow : now.Valid := ⟨by decide, by decide⟩
    have h₁ : e₁.state.Fits := by decide +kernel
    have h₂ : e₂.state.Fits := by decide +kernel
    simp [hnow, h₁, h₂]
  -- three steps: the directory, the state beside its place, the state in its place
  have hleaves : Leaves fs₁ (Sample.store.saveSteps now e₂.state) fs₂ :=
    FileSystem.leaves_perform_take fs₁ _ 3
  have hsaves : Sample.store.Saves Sample.files [(now, e₁), (now, e₂)] fs₂ :=
    .save (.of_save .none now e₁) hleaves
  obtain ⟨fs, hsave, -⟩ := Sample.prepared_files.ready.save now e₁
  have hexists : Sample.store.exists_ fs₂ = true := by
    have hfs₁ : fs₁ = fs := congrArg Prod.fst hsave
    exact CheckpointStore.exists_of_leaves
      (hfs₁ ▸ (CheckpointStore.holds_of_save hsave).exists_) hleaves
  refine ⟨hnone, hsaves, hfits, ?_⟩
  rcases (resume_is_crash_safe Sample.store hnone hsaves hfits).1 e₁.reset with hno | hsome
  · rw [hexists] at hno
    cases hno.1
  · obtain ⟨save, hsave, m, restored, h⟩ := hsome
    refine ⟨save.2, ?_, m, restored, h⟩
    rcases List.mem_pair.mp hsave with rfl | rfl <;> simp

end CoChange
