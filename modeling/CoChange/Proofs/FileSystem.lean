import CoChange.FileSystem
import CoChange.Proofs.SortedMap
import CoChange.Proofs.Text

/-!
# What operations leave of a file system

Below a directory with a name, a file is found by the path of the directory and its own name
(`FilePath.join_below`, **`FilePath.parent_below`**).

A file system is read through what stands at its paths (`FileSystem.entry?`). The operations have
one equation each: **`entry?_write`**, **`entry?_rename`**, and **`adds_makeDirectories`**, by which
creating directories adds some where nothing stood and changes nothing else.

Steps can be interrupted. `Step.Tears` says what a single step may leave then: a write leaves any
content in its file, a move happens as a whole or not at all. `Leaves` says it of a list of steps:
what doing them leaves (**`leaves_perform`**), and what is left when a crash or a fault ends them
early.
-/

namespace CoChange

/-! ## Paths -/

namespace FilePath

/-- A name without slashes. -/
def Plain (name : String) : Prop := name ≠ "" ∧ '/' ∉ name.toList

instance (name : String) : Decidable (Plain name) := inferInstanceAs (Decidable (_ ∧ _))

/-- A path that ends in a name. -/
def Named (path : String) : Prop := path ≠ "" ∧ path.toList.getLast? ≠ some '/'

/-- A path that ends in a plain name has a name of its own. -/
theorem Plain.named_append {name : String} (h : Plain name) (above : String) :
    Named (above ++ name) := by
  have hname : name.toList ≠ [] := by simpa using h.1
  refine ⟨fun heq => h.1 (String.append_eq_empty_iff.mp heq).2, ?_⟩
  rw [String.toList_append, List.getLast?_append_of_ne_nil _ hname]
  exact fun hlast => h.2 (List.mem_of_getLast? hlast)

/-- A path that does not end in a slash loses nothing at its end. -/
theorem trimEnd_of_last {path : List Char} (h : path.getLast? ≠ some '/') :
    trimEnd path = path := by
  rw [trimEnd, List.dropWhile_eq_self_iff.mpr, List.reverse_reverse]
  intro hlen hhead
  rw [List.length_reverse] at hlen
  refine h ?_
  rw [← List.head?_reverse, List.head?_eq_getElem?, List.getElem?_eq_getElem (by simpa using hlen)]
  simpa using hhead

/-- A name alone stands for a path below the current directory. -/
theorem parent_plain {name : String} (h : Plain name) : parent name = "" := by
  have hlast : name.toList.getLast? ≠ some '/' := fun hl => h.2 (List.mem_of_getLast? hl)
  have hcut : name.toList.reverse.dropWhile (· != '/') = [] := by
    rw [List.dropWhile_eq_nil_iff]
    intro c hc
    rw [bne_iff_ne]
    rintro rfl
    exact h.2 (List.mem_reverse.mp hc)
  rw [parent, trimEnd_of_last hlast]
  simp only [hcut]
  rfl

/-- A path to a name ends in the name, however the two are joined. -/
theorem exists_join_eq (dir name : String) : ∃ above, join dir name = above ++ name := by
  rw [join]
  split
  · exact ⟨"", String.empty_append.symm⟩
  · split
    · exact ⟨dir, rfl⟩
    · exact ⟨dir ++ "/", rfl⟩

/-- Below a directory with a name of its own, a plain name is joined with one slash. -/
theorem join_below {dir name : String} (hdir : Named dir) (hname : Plain name) :
    join dir name = dir ++ "/" ++ name := by
  have hrelative : name.startsWith "/" = false := by
    rw [← Bool.not_eq_true, String.startsWith_string_iff]
    rintro ⟨t, h⟩
    exact hname.2 (h ▸ by simp)
  have hends : dir.endsWith "/" = false := by
    rw [← Bool.not_eq_true, String.endsWith_eq_endsWith_toSlice, String.Slice.endsWith_string_iff,
      String.copy_toSlice]
    rintro ⟨t, h⟩
    exact hdir.2 (h ▸ by simp)
  rw [join, hrelative, hends, if_neg (by simpa using hdir.1), if_neg (by simp)]

/-- **What stands below a directory is held by it.** The last slash is the one in front of the name,
which has none. -/
theorem parent_below {dir name : String} (hdir : Named dir) (hname : Plain name) :
    parent (dir ++ "/" ++ name) = dir := by
  have hpath : (dir ++ "/" ++ name).toList = dir.toList ++ '/' :: name.toList := by
    rw [String.toList_append, String.toList_append, List.append_assoc]
    rfl
  have hlast : (dir.toList ++ '/' :: name.toList).getLast? ≠ some '/' :=
    hpath ▸ (hname.named_append (dir ++ "/")).2
  -- cutting off the name leaves the directory with the slash behind it
  have hcut : ((dir.toList ++ '/' :: name.toList).reverse.dropWhile (· != '/')).reverse =
      dir.toList ++ ['/'] := by
    rw [List.reverse_append, List.reverse_cons, List.append_assoc, List.singleton_append,
      List.dropWhile_append_of_pos, List.dropWhile_cons_of_neg (by simp), List.reverse_cons,
      List.reverse_reverse]
    intro c hc
    rw [bne_iff_ne]
    rintro rfl
    exact hname.2 (List.mem_reverse.mp hc)
  have hsome : (dir.toList ++ ['/']).all (· = '/') = false := by
    have hne : dir.toList ≠ [] := by simpa using hdir.1
    rw [List.all_eq_false]
    refine ⟨dir.toList.getLast hne, List.mem_append_left _ (List.getLast_mem hne), fun h => ?_⟩
    rw [decide_eq_true_iff] at h
    exact hdir.2 (by rw [List.getLast?_eq_some_getLast hne, h])
  have htrim : trimEnd (dir.toList ++ ['/']) = dir.toList := by
    rw [trimEnd, List.reverse_append, List.reverse_singleton, List.singleton_append,
      List.dropWhile_cons_of_pos (by simp)]
    exact trimEnd_of_last hdir.2
  rw [parent, hpath, trimEnd_of_last hlast]
  simp only [hcut, hsome, htrim, Bool.false_eq_true, if_false, String.ofList_toList]

end FilePath

namespace FileSystem

variable {fs fs' : FileSystem} {path source target : String} {content : FileContent}

/-! ## What stands at a path -/

/-- The directories that are always there. -/
def Fixed (path : String) : Prop := path = "" ∨ path = "/" ∨ path = "."

/-- At the paths that are always there a directory is found. -/
theorem entry?_of_fixed (h : Fixed path) (fs : FileSystem) : fs.entry? path = some .directory := by
  rcases h with rfl | rfl | rfl <;> rfl

/-- At all other paths there is what has been put there. -/
theorem entry?_of_not_fixed (h : ¬ Fixed path) (fs : FileSystem) :
    fs.entry? path = fs.entries.get? path := by
  unfold entry?
  rw [if_neg]
  simpa [Fixed, or_assoc] using h

/-- A path without a directory is none of those that are always there. -/
theorem not_fixed_of_entry (h : fs.entry? path ≠ some .directory) : ¬ Fixed path :=
  fun hfixed => h (entry?_of_fixed hfixed fs)

/-- What stands at a path when only one path has changed, which no directory stands at that is
always there. -/
theorem entry?_of_get? (hpath : ¬ Fixed path) {e : Option FileEntry}
    (h : ∀ p, fs'.entries.get? p = if p = path then e else fs.entries.get? p) (p : String) :
    fs'.entry? p = if p = path then e else fs.entry? p := by
  by_cases hp : Fixed p
  · have hne : p ≠ path := fun heq => hpath (heq ▸ hp)
    rw [if_neg hne, entry?_of_fixed hp, entry?_of_fixed hp]
  · rw [entry?_of_not_fixed hp, entry?_of_not_fixed hp, h]

/-- What is put at a path is found there, and what is at other paths stays. -/
theorem entry?_insert (fs : FileSystem) (hpath : ¬ Fixed path) (e : FileEntry) (p : String) :
    FileSystem.entry? ⟨fs.entries.insert path e⟩ p = if p = path then some e else fs.entry? p :=
  entry?_of_get? hpath (fun q => SortedMap.get?_insert path q e fs.entries) p

/-- Nothing is found at a path that was removed, and what is at other paths stays. -/
theorem entry?_erase (fs : FileSystem) (hpath : ¬ Fixed path) (p : String) :
    FileSystem.entry? ⟨fs.entries.erase path⟩ p = if p = path then none else fs.entry? p :=
  entry?_of_get? hpath (fun q => SortedMap.get?_erase path q fs.entries) p

theorem isDirectory_iff : fs.isDirectory path = true ↔ fs.entry? path = some .directory := by
  rw [isDirectory, beq_iff_eq]

theorem isDirectory_eq_false_iff : fs.isDirectory path = false ↔
    fs.entry? path ≠ some .directory := by
  rw [← Bool.not_eq_true, isDirectory_iff]

/-- A file is an entry with a content. -/
theorem isFile_iff : fs.isFile path = true ↔ ∃ content, fs.entry? path = some (.file content) := by
  rw [isFile]
  cases h : fs.entry? path with
  | none => simp
  | some e => cases e <;> simp

/-- A path whose parent is a directory can be written to. -/
theorem checkParent_of_isDirectory (h : fs.isDirectory (FilePath.parent path) = true) :
    fs.checkParent path = .ok () := by
  rw [checkParent, isDirectory_iff.mp h]

/-- Something may be made at a path only if the parent of the path is a directory. -/
theorem isDirectory_of_checkParent (h : fs.checkParent path = .ok ()) :
    fs.isDirectory (FilePath.parent path) = true := by
  rw [checkParent] at h
  rw [isDirectory_iff]
  cases hp : fs.entry? (FilePath.parent path) with
  | none =>
    rw [hp] at h
    simp only at h
    split at h <;> exact absurd h (by simp)
  | some e =>
    rw [hp] at h
    cases e with
    | file content => exact absurd h (by simp)
    | directory => rfl

/-- What is done in a directory succeeds if the directory is there and the rest succeeds. -/
theorem bind_checkParent_eq_ok_iff {α : Type} {f : Unit → Except FileFault α} {a : α} :
    (fs.checkParent path >>= f) = .ok a ↔
    fs.isDirectory (FilePath.parent path) = true ∧ f () = .ok a := by
  rw [bind_eq_ok_iff]
  exact ⟨fun ⟨_, hparent, h⟩ => ⟨isDirectory_of_checkParent hparent, h⟩,
    fun ⟨hparent, h⟩ => ⟨(), checkParent_of_isDirectory hparent, h⟩⟩

/-! ## Single operations -/

/-- A write that succeeds. -/
theorem write_eq_ok_iff :
    fs.write path content = .ok fs' ↔
      fs.isDirectory (FilePath.parent path) = true ∧ fs.isDirectory path = false ∧
        fs' = ⟨fs.entries.insert path (.file content)⟩ := by
  rw [write, bind_checkParent_eq_ok_iff]
  refine and_congr_right fun _ => ?_
  cases fs.isDirectory path with
  | true => simp
  | false => simp [eq_comm]

/-- A write changes what is at its path and nothing else. -/
theorem entry?_write (h : fs.write path content = .ok fs') (p : String) :
    fs'.entry? p = if p = path then some (.file content) else fs.entry? p := by
  obtain ⟨_, hdir, rfl⟩ := write_eq_ok_iff.mp h
  exact entry?_insert fs (not_fixed_of_entry (isDirectory_eq_false_iff.mp hdir)) _ p

/-- A move of a file that succeeds. -/
theorem rename_eq_ok_iff (hsource : fs.entry? source = some (.file content)) :
    fs.rename source target = .ok fs' ↔
      fs.isDirectory (FilePath.parent source) = true ∧
        fs.isDirectory (FilePath.parent target) = true ∧ fs.isDirectory target = false ∧
          fs' = ⟨(fs.entries.erase source).insert target (.file content)⟩ := by
  rw [rename, hsource, bind_checkParent_eq_ok_iff]
  simp only
  rw [bind_checkParent_eq_ok_iff]
  refine and_congr_right fun _ => and_congr_right fun _ => ?_
  cases fs.isDirectory target with
  | true => simp
  | false => simp [eq_comm]

/-- A file that is moved stands at its new path, and nothing at the old one. -/
theorem entry?_rename (hsource : fs.entry? source = some (.file content))
    (h : fs.rename source target = .ok fs') (p : String) :
    fs'.entry? p = if p = target then some (.file content) else
      if p = source then none else fs.entry? p := by
  obtain ⟨_, _, hdir, rfl⟩ := (rename_eq_ok_iff hsource).mp h
  -- neither place can be a directory that is always there
  have htarget : ¬ Fixed target := not_fixed_of_entry (isDirectory_eq_false_iff.mp hdir)
  have hfile : ¬ Fixed source := not_fixed_of_entry (by rw [hsource]; simp)
  have herased := entry?_erase fs hfile p
  rw [← herased]
  exact entry?_insert ⟨fs.entries.erase source⟩ htarget _ p

/-- Files come and go; the directories stay. -/
theorem isDirectory_write (h : fs.write path content = .ok fs') (p : String) :
    fs'.isDirectory p = fs.isDirectory p := by
  have hdir := (write_eq_ok_iff.mp h).2.1
  rw [isDirectory, entry?_write h]
  by_cases hp : p = path
  · rw [if_pos hp, hp, hdir]
    rfl
  · rw [if_neg hp, isDirectory]

/-- Moving a file changes no directory: where the file goes there was none, or the move would have
failed. -/
theorem isDirectory_rename (hsource : fs.entry? source = some (.file content))
    (h : fs.rename source target = .ok fs') (p : String) :
    fs'.isDirectory p = fs.isDirectory p := by
  have hdir := ((rename_eq_ok_iff hsource).mp h).2.2.1
  rw [isDirectory, entry?_rename hsource h]
  by_cases ht : p = target
  · rw [if_pos ht, ht, hdir]
    rfl
  · rw [if_neg ht]
    by_cases hs : p = source
    · rw [if_pos hs, hs, isDirectory, hsource]
      rfl
    · rw [if_neg hs, isDirectory]

/-- A file in a directory is read as what it holds. -/
theorem read_of_file (hparent : fs.isDirectory (FilePath.parent path) = true)
    (h : fs.entry? path = some (.file content)) : fs.read path = .ok content := by
  rw [read, checkParent_of_isDirectory hparent, h]
  rfl

/-! ## Creating directories -/

/-- Directories are added where nothing stood; all else is as before. -/
def AddsDirectories (fs fs' : FileSystem) : Prop :=
  ∀ p, fs'.entry? p = fs.entry? p ∨ (fs.entry? p = none ∧ fs'.entry? p = some .directory)

/-- A file system that stays the same adds no directory. -/
theorem AddsDirectories.refl (fs : FileSystem) : fs.AddsDirectories fs := fun _ => Or.inl rfl

/-- Adding directories and then more of them adds directories. Nothing else changes in either
step. -/
theorem AddsDirectories.trans {fs'' : FileSystem} (h : fs.AddsDirectories fs')
    (h' : fs'.AddsDirectories fs'') : fs.AddsDirectories fs'' := by
  intro p
  rcases h' p with heq' | ⟨hnone', hdir'⟩
  · rw [heq']
    exact h p
  · rcases h p with heq | ⟨_, hdir⟩
    · exact Or.inr ⟨heq ▸ hnone', hdir'⟩
    · rw [hdir] at hnone'
      exact absurd hnone' (by simp)

/-- Directories are still there after some were added. -/
theorem AddsDirectories.isDirectory (h : fs.AddsDirectories fs')
    (hdir : fs.isDirectory path = true) : fs'.isDirectory path = true := by
  rw [isDirectory_iff] at hdir ⊢
  rcases h path with heq | ⟨hnone, _⟩
  · rw [heq, hdir]
  · rw [hdir] at hnone
    exact absurd hnone (by simp)

/-- A file that is there afterwards was there before. -/
theorem AddsDirectories.file_iff (h : fs.AddsDirectories fs') :
    fs'.entry? path = some (.file content) ↔ fs.entry? path = some (.file content) := by
  rcases h path with heq | ⟨hnone, hdir⟩
  · rw [heq]
  · rw [hnone, hdir]
    simp

/-- A directory that is created. -/
theorem makeDirectory_eq_ok_iff :
    fs.makeDirectory path = .ok fs' ↔
      fs.isDirectory (FilePath.parent path) = true ∧ fs.entry? path = none ∧
        fs' = ⟨fs.entries.insert path .directory⟩ := by
  rw [makeDirectory, bind_checkParent_eq_ok_iff, exists_]
  refine and_congr_right fun _ => ?_
  cases fs.entry? path with
  | none => simp [eq_comm]
  | some e => simp

/-- To make one directory adds it and changes nothing else. -/
theorem adds_makeDirectory (h : fs.makeDirectory path = .ok fs') :
    fs.AddsDirectories fs' ∧ fs'.isDirectory path = true := by
  obtain ⟨-, hnone, rfl⟩ := makeDirectory_eq_ok_iff.mp h
  -- the directories that are always there are no new ones
  have hfixed : ¬ Fixed path := not_fixed_of_entry (by rw [hnone]; simp)
  have hentry := entry?_insert fs hfixed .directory
  refine ⟨fun p => ?_, isDirectory_iff.mpr ((hentry path).trans (if_pos rfl))⟩
  by_cases hp : p = path
  · exact Or.inr ⟨hp ▸ hnone, (hentry p).trans (if_pos hp)⟩
  · exact Or.inl ((hentry p).trans (if_neg hp))

/-- Where a directory and its parent are there already, making the path does nothing. -/
theorem makeDirectories_of_isDirectory (hparent : fs.isDirectory (FilePath.parent path) = true)
    (hdir : fs.isDirectory path = true) : fs.makeDirectories path = .ok fs := by
  have hexists : fs.exists_ path = true := by
    rw [exists_, isDirectory_iff.mp hdir]
    rfl
  have hmake : fs.makeDirectory path = .error .alreadyExists := by
    rw [makeDirectory, checkParent_of_isDirectory hparent, ok_bind, if_pos hexists]
  rw [makeDirectories, makeDirectories.go.eq_def]
  simp only [hmake]
  rw [if_pos hdir]

/-- The way up to a directory that can be created, and back down, adds directories only. -/
theorem adds_makeDirectories_go {fuel : Nat} {p : String}
    (h : makeDirectories.go fs fuel p = .ok fs') :
    fs.AddsDirectories fs' ∧ fs'.isDirectory p = true := by
  induction fuel generalizing p fs' with
  | zero => cases h
  | succ fuel ih =>
    rw [makeDirectories.go.eq_def] at h
    simp only at h
    cases hmake : fs.makeDirectory p with
    | ok fs₁ =>
      rw [hmake] at h
      obtain rfl := Except.ok.inj h
      exact adds_makeDirectory hmake
    | error fault =>
      rw [hmake] at h
      -- a fault ends it, unless the directory above is missing or this one is there
      have hthere : (if fs.isDirectory p then Except.ok fs else Except.error fault) = .ok fs' →
          fs.AddsDirectories fs' ∧ fs'.isDirectory p = true := by
        intro h
        by_cases hdir : fs.isDirectory p = true
        · rw [if_pos hdir] at h
          obtain rfl := Except.ok.inj h
          exact ⟨.refl fs, hdir⟩
        · rw [if_neg hdir] at h
          cases h
      cases fault with
      | notFound =>
        obtain ⟨fs₁, habove, h⟩ := bind_eq_ok_iff.mp h
        obtain ⟨hadds, hdir⟩ := adds_makeDirectory h
        exact ⟨(ih habove).1.trans hadds, hdir⟩
      | alreadyExists | notADirectory | isADirectory | invalidText | other => exact hthere h

/-- **Creating a directory and those above it adds directories, and the one that is asked for is
there.** -/
theorem adds_makeDirectories (h : fs.makeDirectories path = .ok fs') :
    fs.AddsDirectories fs' ∧ fs'.isDirectory path = true :=
  adds_makeDirectories_go h

/-! ## Interrupted steps -/

/-- What a step may leave if it is interrupted: nothing may have happened yet; of the directories
that are created some may be there; a file that is written may hold anything. -/
inductive Step.Tears (fs : FileSystem) : Step → FileSystem → Prop
  | untouched (step : Step) : Tears fs step fs
  | directories {path : String} {fs' : FileSystem} (h : fs.AddsDirectories fs') :
      Tears fs (.makeDirectories path) fs'
  | written {path : String} {content part : FileContent} {fs' : FileSystem}
      (h : fs.write path part = .ok fs') : Tears fs (.write path content) fs'

/-- What steps may leave that are done one after the other, up to their end or to a crash or a
fault. -/
inductive Leaves : FileSystem → List Step → FileSystem → Prop
  | all (fs : FileSystem) : Leaves fs [] fs
  | torn {fs fs' : FileSystem} {step : Step} (rest : List Step) (h : step.Tears fs fs') :
      Leaves fs (step :: rest) fs'
  | step {fs fs₁ fs' : FileSystem} {step : Step} {rest : List Step}
      (h : step.apply fs = .ok fs₁) (hrest : Leaves fs₁ rest fs') : Leaves fs (step :: rest) fs'

/-- **Doing steps, up to the first that fails, is one of these ways.** If all steps are done, or the
steps up to one that fails, nothing is torn. -/
theorem leaves_perform (fs : FileSystem) (steps : List Step) :
    Leaves fs steps (fs.perform steps).1 := by
  induction steps generalizing fs with
  | nil => exact .all fs
  | cons step rest ih =>
    rw [perform]
    cases h : step.apply fs with
    | ok fs₁ => exact .step h (ih fs₁)
    | error fault => exact .torn rest (.untouched step)

/-- What a number of steps leaves is one of the states that an interruption of them can leave. -/
theorem leaves_of_perform {steps : List Step} {failed : Option (Step × FileFault)}
    (h : fs.perform steps = (fs', failed)) : Leaves fs steps fs' := by
  have hleaves := leaves_perform fs steps
  rwa [h] at hleaves

/-- So is doing the first of them, before a crash. -/
theorem leaves_perform_take (fs : FileSystem) (steps : List Step) (n : Nat) :
    Leaves fs steps (fs.perform (steps.take n)).1 := by
  induction steps generalizing fs n with
  | nil => simpa using leaves_perform fs []
  | cons step rest ih =>
    cases n with
    | zero => exact .torn rest (.untouched step)
    | succ n =>
      rw [List.take_succ_cons, perform]
      cases h : step.apply fs with
      | ok fs₁ => exact .step h (ih fs₁ n)
      | error fault => exact .torn rest (.untouched step)

/-- Steps that leave something are those in front and then those behind. -/
theorem Leaves.cases_append {steps rest : List Step} (h : Leaves fs (steps ++ rest) fs') :
    Leaves fs steps fs' ∨ ∃ fs₁, fs.perform steps = (fs₁, none) ∧ Leaves fs₁ rest fs' := by
  induction steps generalizing fs with
  | nil => exact Or.inr ⟨fs, rfl, h⟩
  | cons step steps ih =>
    cases h with
    | torn _ htears => exact Or.inl (.torn _ htears)
    | step happly hrest =>
      rcases ih hrest with hleft | ⟨fs₁, hperform, hright⟩
      · exact Or.inl (.step happly hleft)
      · refine Or.inr ⟨fs₁, ?_, hright⟩
        rw [perform, happly]
        exact hperform

/-- Steps succeed if the first one does, and the others after it. -/
theorem perform_cons_iff {step : Step} {rest : List Step} :
    fs.perform (step :: rest) = (fs', none) ↔
      ∃ fs₁, step.apply fs = .ok fs₁ ∧ fs₁.perform rest = (fs', none) := by
  rw [perform]
  cases step.apply fs <;> simp

/-- Steps all succeed one after the other exactly if the first ones do and the rest does from
there. -/
theorem perform_append_iff {steps rest : List Step} :
    fs.perform (steps ++ rest) = (fs', none) ↔
      ∃ fs₁, fs.perform steps = (fs₁, none) ∧ fs₁.perform rest = (fs', none) := by
  induction steps generalizing fs with
  | nil => simp [perform]
  | cons step steps ih =>
    rw [List.cons_append, perform_cons_iff]
    simp only [ih, perform_cons_iff]
    constructor
    · rintro ⟨fs₁, happly, fs₂, hsteps, hrest⟩
      exact ⟨fs₂, ⟨fs₁, happly, hsteps⟩, hrest⟩
    · rintro ⟨fs₂, ⟨fs₁, happly, hsteps⟩, hrest⟩
      exact ⟨fs₁, happly, fs₂, hsteps, hrest⟩

end FileSystem

end CoChange
