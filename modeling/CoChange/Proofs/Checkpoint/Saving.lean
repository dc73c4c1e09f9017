import CoChange.Checkpoint.Store
import CoChange.Proofs.FileSystem

/-!
# Saving a checkpoint

The files of a checkpoint stand in a directory of its own and differ from one another
(`CheckpointStore.file_ne_file`). A save replaces two of them one after the other, the state and
then the description:

* **`leaves_replaceSteps`**: wherever the replacement is interrupted, the file has its old content
  or the new one.
* **`Ready.save`**: a save succeeds where its files can be written.
* **`holds_of_save`**: when it has succeeded, both files are of this save.
-/

namespace CoChange

open FileSystem (Leaves)

namespace Digest

/-- The state of the digest has eight words after any blocks. -/
theorem size_foldl_compress (blocks : List (List UInt8)) (state : Array UInt32)
    (h : state.size = 8) : (blocks.foldl compress state).size = 8 := by
  induction blocks generalizing state with
  | nil => exact h
  | cons block blocks ih =>
    refine ih (compress state block) ?_
    simp [compress]

/-- A digest has 32 bytes. -/
theorem length_sha256 (bytes : List UInt8) : (sha256 bytes).length = 32 := by
  have hstate := size_foldl_compress (chunks 64 (pad bytes)) initialState rfl
  rw [sha256, List.length_flatMap]
  simp [bigEndian, hstate]

/-- No digit is a slash. -/
theorem digitChar_ne_slash {n : Nat} (h : n < 16) : Nat.digitChar n ≠ '/' := by
  interval_cases n <;> decide

/-- A byte is written with two digits. -/
theorem length_hex (bytes : List UInt8) : (hex bytes).length = 2 * bytes.length := by
  rw [hex, String.length_ofList, List.length_flatMap]
  simp [Nat.mul_comm]

/-- There is no slash among hexadecimal digits, so they are the name of a file. -/
theorem slash_notMem_hex (bytes : List UInt8) : '/' ∉ (hex bytes).toList := by
  rw [hex, String.toList_ofList, List.mem_flatMap]
  rintro ⟨b, -, hmem⟩
  have hb := b.toNat_lt
  rcases List.mem_pair.mp hmem with heq | heq
  · exact digitChar_ne_slash (by omega) heq.symm
  · exact digitChar_ne_slash (by omega) heq.symm

end Digest

namespace CheckpointStore

variable {s : CheckpointStore} {fs fs' : FileSystem}

/-! ## The files of a checkpoint -/

/-- The hash of a repository has 16 digits. -/
theorem length_repositoryHash (path : String) : (repositoryHash path).length = 16 := by
  rw [repositoryHash, Digest.length_hex, List.length_take, Digest.length_sha256]
  rfl

/-- It can be the name of a file. -/
theorem plain_repositoryHash (path : String) : FilePath.Plain (repositoryHash path) := by
  refine ⟨fun h => ?_, Digest.slash_notMem_hex _⟩
  have hlength := length_repositoryHash path
  rw [h] at hlength
  exact absurd hlength (by decide)

/-- The directory of a checkpoint has a name. -/
theorem named_directory (s : CheckpointStore) : FilePath.Named s.directory := by
  obtain ⟨above, heq⟩ := FilePath.exists_join_eq s.base (repositoryHash s.repository)
  rw [directory, heq]
  exact (plain_repositoryHash s.repository).named_append above

/-- The names of the files of a checkpoint, also of those that are written beside their place. -/
def fileNames : List String :=
  ["shotness_state.bin", "shotness_state.tmp", "checkpoint.json", "checkpoint.tmp"]

/-- All files of a checkpoint have plain names. -/
theorem plain_of_mem : ∀ name ∈ fileNames, FilePath.Plain name := by decide

/-- They stand in its directory, under their names. -/
theorem file_eq {name : String} (h : FilePath.Plain name) (s : CheckpointStore) :
    s.file name = s.directory ++ "/" ++ name := FilePath.join_below s.named_directory h

/-- Their parent is the directory. -/
theorem parent_file {name : String} (h : FilePath.Plain name) (s : CheckpointStore) :
    FilePath.parent (s.file name) = s.directory := by
  rw [file_eq h, FilePath.parent_below s.named_directory h]

theorem parent_stateFile (s : CheckpointStore) : FilePath.parent s.stateFile = s.directory :=
  parent_file (by decide) s

theorem parent_metadataFile (s : CheckpointStore) : FilePath.parent s.metadataFile = s.directory :=
  parent_file (by decide) s

/-- Files with different names have different paths. -/
theorem file_ne_file {name name' : String} (h : FilePath.Plain name) (h' : FilePath.Plain name')
    (hne : name ≠ name') : s.file name ≠ s.file name' := by
  rw [file_eq h, file_eq h']
  exact fun heq => hne (by simpa using heq)

theorem stateFile_ne_metadataFile (s : CheckpointStore) : s.stateFile ≠ s.metadataFile :=
  file_ne_file (by decide) (by decide) (by decide)

/-- No file of a store has the path of its directory. -/
theorem directory_ne_file {name : String} (h : FilePath.Plain name) (s : CheckpointStore) :
    s.directory ≠ s.file name := by
  rw [file_eq h, String.append_assoc]
  intro heq
  have hlength := congrArg String.length heq
  rw [String.length_append, String.length_append] at hlength
  have hslash : "/".length = 1 := rfl
  omega

/-! ## Replacing a file -/

section Replacing

variable {beside path : String} {content : FileContent}

/-- Writing beside a path and moving there changes two entries: the path has the content, and
nothing is left beside it. -/
theorem entry?_replaced {fs₁ : FileSystem}
    (hwrite : fs.write beside content = .ok fs₁) (hmove : fs₁.rename beside path = .ok fs')
    (p : String) :
    fs'.entry? p = if p = path then some (.file content) else
      if p = beside then none else fs.entry? p := by
  have hsource : fs₁.entry? beside = some (.file content) := by
    rw [FileSystem.entry?_write hwrite, if_pos rfl]
  rw [FileSystem.entry?_rename hsource hmove, FileSystem.entry?_write hwrite]
  by_cases hp : p = beside
  · rw [if_pos hp, if_pos hp]
  · rw [if_neg hp, if_neg hp, if_neg hp]

/-- **A file that is being replaced has its old content or the new one**, and nothing but it and the
file beside it changes. -/
theorem leaves_replaceSteps (hne : beside ≠ path)
    (h : Leaves fs (replaceSteps beside path content) fs') :
    (fs'.entry? path = fs.entry? path ∨ fs'.entry? path = some (.file content)) ∧
      ∀ p, p ≠ beside → p ≠ path → fs'.entry? p = fs.entry? p := by
  cases h with
  | torn _ htears =>
    cases htears with
    | untouched => exact ⟨Or.inl rfl, fun _ _ _ => rfl⟩
    | written hpart =>
      refine ⟨Or.inl ?_, fun p hp _ => ?_⟩
      · rw [FileSystem.entry?_write hpart, if_neg hne.symm]
      · rw [FileSystem.entry?_write hpart, if_neg hp]
  | step hwrite hrest =>
    cases hrest with
    | torn _ htears =>
      -- a move happens as a whole, so the file is still the old one
      cases htears
      refine ⟨Or.inl ?_, fun p hp _ => ?_⟩
      · rw [FileSystem.entry?_write hwrite, if_neg hne.symm]
      · rw [FileSystem.entry?_write hwrite, if_neg hp]
    | step hmove hdone =>
      cases hdone
      have hentry := entry?_replaced hwrite hmove
      refine ⟨Or.inr ?_, fun p hp hp' => ?_⟩
      · rw [hentry, if_pos rfl]
      · rw [hentry, if_neg hp', if_neg hp]

/-- If all steps of a replacement succeed, the file has the new content and all other files have
stayed. -/
theorem perform_replaceSteps (h : fs.perform (replaceSteps beside path content) = (fs', none)) :
    fs'.entry? path = some (.file content) ∧
      ∀ p, p ≠ beside → p ≠ path → fs'.entry? p = fs.entry? p := by
  obtain ⟨fs₁, hwrite, hrest⟩ := FileSystem.perform_cons_iff.mp h
  obtain ⟨fs₂, hmove, hdone⟩ := FileSystem.perform_cons_iff.mp hrest
  obtain ⟨rfl, -⟩ := Prod.mk.inj hdone
  have hentry := entry?_replaced hwrite hmove
  refine ⟨by rw [hentry, if_pos rfl], fun p hp hp' => ?_⟩
  rw [hentry, if_neg hp', if_neg hp]

end Replacing

/-- However far the writing of a state gets, the state is the old one or the new one, and metadata
and directory are as before. -/
theorem leaves_stateSteps {state : EngineState} (h : Leaves fs (s.stateSteps state) fs') :
    (fs'.entry? s.stateFile = fs.entry? s.stateFile ∨
      fs'.entry? s.stateFile = some (.file state.toBinary)) ∧
    fs'.entry? s.metadataFile = fs.entry? s.metadataFile ∧
    fs'.entry? s.directory = fs.entry? s.directory := by
  obtain ⟨hfile, hothers⟩ :=
    leaves_replaceSteps (file_ne_file (by decide) (by decide) (by decide)) h
  exact ⟨hfile, hothers _ (file_ne_file (by decide) (by decide) (by decide))
    s.stateFile_ne_metadataFile.symm,
    hothers _ (directory_ne_file (by decide) s) (directory_ne_file (by decide) s)⟩

/-- Behind the steps that save it, the state is in its file. -/
theorem perform_stateSteps {state : EngineState}
    (h : fs.perform (s.stateSteps state) = (fs', none)) :
    fs'.entry? s.stateFile = some (.file state.toBinary) := (perform_replaceSteps h).1

/-- However far the writing of metadata gets, the metadata are the old ones or the new ones, and
state and directory are as before. -/
theorem leaves_metadataSteps {m : CheckpointMetadata} (h : Leaves fs (s.metadataSteps m) fs') :
    (fs'.entry? s.metadataFile = fs.entry? s.metadataFile ∨
      fs'.entry? s.metadataFile = some (.file m.toJson.pretty.toUTF8.toList)) ∧
    fs'.entry? s.stateFile = fs.entry? s.stateFile ∧
    fs'.entry? s.directory = fs.entry? s.directory := by
  obtain ⟨hfile, hothers⟩ :=
    leaves_replaceSteps (file_ne_file (by decide) (by decide) (by decide)) h
  exact ⟨hfile, hothers _ (file_ne_file (by decide) (by decide) (by decide))
    s.stateFile_ne_metadataFile,
    hothers _ (directory_ne_file (by decide) s) (directory_ne_file (by decide) s)⟩

/-! ## Saves that succeed -/

/-- What steps leave does not depend on what is answered when they succeed. -/
theorem fst_performSteps {α : Type} (fs : FileSystem) (steps : List FileSystem.Step) (a : α) :
    (performSteps fs steps a).1 = (fs.perform steps).1 := by
  rw [performSteps]
  cases fs.perform steps with
  | mk files failed => cases failed <;> rfl

/-- The answer is given just if all steps succeed. -/
theorem performSteps_eq_ok_iff {α : Type} {steps : List FileSystem.Step} {a b : α} :
    performSteps fs steps a = (fs', .ok b) ↔ fs.perform steps = (fs', none) ∧ a = b := by
  rw [performSteps]
  cases fs.perform steps with
  | mk files failed => cases failed <;> simp

/-- The directory of the checkpoint is there, in one that is there, and no directory stands in the
place of its files. -/
structure Prepared (s : CheckpointStore) (fs : FileSystem) : Prop where
  parent : fs.isDirectory (FilePath.parent s.directory) = true
  directory : fs.isDirectory s.directory = true
  free : ∀ name ∈ fileNames, fs.isDirectory (s.file name) = false

/-- It is so once the directory has been created. -/
def Ready (s : CheckpointStore) (fs : FileSystem) : Prop :=
  ∃ fs₁, fs.makeDirectories s.directory = .ok fs₁ ∧ s.Prepared fs₁

theorem Prepared.ready (h : s.Prepared fs) : s.Ready fs :=
  ⟨fs, FileSystem.makeDirectories_of_isDirectory h.parent h.directory, h⟩

/-- Whether a place is prepared depends on its directories only. -/
theorem Prepared.congr (h : s.Prepared fs) (hsame : ∀ p, fs'.isDirectory p = fs.isDirectory p) :
    s.Prepared fs' :=
  ⟨(hsame _).trans h.parent, (hsame _).trans h.directory,
    fun name hn => (hsame _).trans (h.free name hn)⟩

/-- In a prepared place all files of a checkpoint have a directory to stand in. -/
theorem Prepared.isDirectory_parent (h : s.Prepared fs) {name : String} (hname : name ∈ fileNames) :
    fs.isDirectory (FilePath.parent (s.file name)) = true := by
  rw [parent_file (plain_of_mem name hname)]
  exact h.directory

/-- In a prepared file system no step of a replacement fails, and afterwards it is prepared
still. -/
theorem Prepared.perform_replaceSteps (h : s.Prepared fs) (tmp name : String)
    (htmp : tmp ∈ fileNames) (hname : name ∈ fileNames) (content : FileContent) :
    ∃ fs', fs.perform (replaceSteps (s.file tmp) (s.file name) content) = (fs', none) ∧
      s.Prepared fs' := by
  obtain ⟨fs₁, hwrite⟩ : ∃ fs₁, fs.write (s.file tmp) content = .ok fs₁ :=
    ⟨_, FileSystem.write_eq_ok_iff.mpr ⟨h.isDirectory_parent htmp, h.free tmp htmp, rfl⟩⟩
  have h₁ : s.Prepared fs₁ := h.congr (FileSystem.isDirectory_write hwrite)
  have hsource : fs₁.entry? (s.file tmp) = some (.file content) := by
    rw [FileSystem.entry?_write hwrite, if_pos rfl]
  -- the move finds what was written beside the place, and no directory in the place itself
  obtain ⟨fs₂, hmove⟩ : ∃ fs₂, fs₁.rename (s.file tmp) (s.file name) = .ok fs₂ :=
    ⟨_, (FileSystem.rename_eq_ok_iff hsource).mpr
      ⟨h₁.isDirectory_parent htmp, h₁.isDirectory_parent hname, h₁.free name hname, rfl⟩⟩
  refine ⟨fs₂, ?_, h₁.congr (FileSystem.isDirectory_rename hsource hmove)⟩
  exact FileSystem.perform_cons_iff.mpr
    ⟨fs₁, hwrite, FileSystem.perform_cons_iff.mpr ⟨fs₂, hmove, rfl⟩⟩

/-- **A save succeeds where it can write its files**, and so does the next one. The directory is
made where it is missing, and then none of the steps can fail. -/
theorem Ready.save (h : s.Ready fs) (now : Timestamp) (e : Engine) :
    ∃ fs', s.save now e fs = (fs', .ok (s.metadataOf now e.state)) ∧ s.Ready fs' := by
  obtain ⟨fs₁, hmake, h₁⟩ := h
  obtain ⟨fs₂, hstate, h₂⟩ :=
    h₁.perform_replaceSteps "shotness_state.tmp" "shotness_state.bin" (by decide) (by decide)
      e.state.toBinary
  obtain ⟨fs₃, hmetadata, h₃⟩ :=
    h₂.perform_replaceSteps "checkpoint.tmp" "checkpoint.json" (by decide) (by decide)
      (s.metadataOf now e.state).toJson.pretty.toUTF8.toList
  refine ⟨fs₃, ?_, h₃.ready⟩
  have hsteps : fs.perform (s.saveSteps now e.state) = (fs₃, none) :=
    FileSystem.perform_cons_iff.mpr
      ⟨fs₁, hmake, FileSystem.perform_append_iff.mpr ⟨fs₂, hstate, hmetadata⟩⟩
  exact performSteps_eq_ok_iff.mpr ⟨hsteps, rfl⟩

/-- The files are those of one save. -/
structure Holds (s : CheckpointStore) (now : Timestamp) (state : EngineState) (fs : FileSystem) :
    Prop where
  directory : fs.isDirectory s.directory = true
  described : fs.entry? s.metadataFile =
    some (.file (s.metadataOf now state).toJson.pretty.toUTF8.toList)
  held : fs.entry? s.stateFile = some (.file state.toBinary)

/-- A save that succeeds leaves both files with what was to be saved. -/
theorem holds_of_save {now : Timestamp} {e : Engine} {m : CheckpointMetadata}
    (h : s.save now e fs = (fs', .ok m)) : s.Holds now e.state fs' := by
  have hsteps := (performSteps_eq_ok_iff.mp h).1
  obtain ⟨fs₁, hmake, hsteps⟩ := FileSystem.perform_cons_iff.mp hsteps
  obtain ⟨fs₂, hstate, hmetadata⟩ := FileSystem.perform_append_iff.mp hsteps
  obtain ⟨-, hheld, hdir⟩ := leaves_metadataSteps (FileSystem.leaves_of_perform hmetadata)
  have hdirectory : fs'.entry? s.directory = some .directory := by
    rw [hdir, (leaves_stateSteps (FileSystem.leaves_of_perform hstate)).2.2]
    exact FileSystem.isDirectory_iff.mp (FileSystem.adds_makeDirectories hmake).2
  exact ⟨FileSystem.isDirectory_iff.mpr hdirectory, (perform_replaceSteps hmetadata).1,
    hheld.trans (perform_stateSteps hstate)⟩

end CheckpointStore

end CoChange
