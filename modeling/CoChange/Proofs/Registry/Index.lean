import CoChange.Proofs.SortedMap
import CoChange.Registry.Basic
import Mathlib.Data.List.Perm.Subperm

/-!
# The file index

A registry keeps, next to its entries, the keys of each file. The index is *right* when it lists a
key under a file exactly if the entry under the key is of that file (`Registry.Indexed`).

* **`lists_add`**, **`lists_ofEntries`**: what an index lists after a key was added, and after it
  was built anew.
* **`isConsistent_iff`**: the check that counts keys and compares files holds exactly of the right
  indices.
* **`files_eq_ofEntries_iff`**: an index is the one that is built anew exactly if it is right and
  has no file without keys.
-/

namespace CoChange

namespace FileIndex

/-- Whether a key stands under a file. -/
def Lists (files : FileIndex) (file key : String) : Prop := key ∈ files.getD file ∅

instance (files : FileIndex) (file key : String) : Decidable (files.Lists file key) :=
  inferInstanceAs (Decidable (key ∈ files.getD file ∅))

/-- No file stands without keys. -/
def Populated (files : FileIndex) : Prop :=
  ∀ file keys, files.get? file = some keys → ∃ key, key ∈ keys

/-- An index lists a key under a file if the file is known and the key is among its own. -/
theorem lists_iff {files : FileIndex} {file key : String} :
    files.Lists file key ↔ ∃ keys, files.get? file = some keys ∧ key ∈ keys := by
  rw [Lists, SortedMap.getD_eq]
  cases h : files.get? file with
  | none => simp [SortedMap.not_mem_empty]
  | some keys => simp

theorem not_lists_empty (file key : String) : ¬ Lists ∅ file key :=
  SortedMap.not_mem_empty key

/-- An index with new keys for a file lists these under it, and what it listed under all others. -/
theorem lists_insert {files : FileIndex} {file file' key : String} {keys : SortedSet String} :
    Lists (files.insert file keys) file' key ↔
      if file' = file then key ∈ keys else files.Lists file' key := by
  rw [Lists, SortedMap.getD_eq, SortedMap.get?_insert]
  by_cases h : file' = file
  · rw [if_pos h, if_pos h, Option.getD_some]
  · rw [if_neg h, if_neg h, Lists, SortedMap.getD_eq]

/-- An index without a file lists what it listed of the others. -/
theorem lists_erase {files : FileIndex} {file file' key : String} :
    Lists (files.erase file) file' key ↔ file' ≠ file ∧ files.Lists file' key := by
  rw [Lists, SortedMap.getD_eq, SortedMap.get?_erase]
  by_cases h : file' = file
  · rw [if_pos h, Option.getD_none]
    exact ⟨fun hk => absurd hk (SortedMap.not_mem_empty key), fun hk => absurd h hk.1⟩
  · rw [if_neg h, Lists, SortedMap.getD_eq]
    exact ⟨fun hk => ⟨h, hk⟩, fun hk => hk.2⟩

/-- An index to which a key was added lists what it listed, and the key. -/
theorem lists_add {files : FileIndex} {file key file' key' : String} :
    (files.add file key).Lists file' key' ↔
      (file' = file ∧ key' = key) ∨ files.Lists file' key' := by
  rw [add, lists_insert]
  by_cases h : file' = file
  · subst h
    rw [if_pos rfl, SortedSet.mem_insert, Lists]
    tauto
  · rw [if_neg h]
    tauto

/-- No file of the index is without units after a key was added, as the file of the key has that
one. -/
theorem Populated.add {files : FileIndex} (h : files.Populated) (file key : String) :
    (files.add file key).Populated := by
  intro file' keys hk
  rw [FileIndex.add, SortedMap.get?_insert] at hk
  by_cases hf : file' = file
  · rw [if_pos hf] at hk
    exact ⟨key, Option.some.inj hk ▸ SortedSet.mem_insert.mpr (Or.inl rfl)⟩
  · rw [if_neg hf] at hk
    exact h file' keys hk

/-- An index without empty files is determined by what it lists. -/
theorem ext_lists {files files' : FileIndex} (h : files.Populated) (h' : files'.Populated)
    (heq : ∀ file key, files.Lists file key ↔ files'.Lists file key) : files = files' := by
  refine SortedMap.ext_get? fun file => ?_
  have hfile : ∀ key, key ∈ files.getD file ∅ ↔ key ∈ files'.getD file ∅ := heq file
  -- a file that lists nothing is not there, since no set in the index is empty
  have hnone {a b : FileIndex} (hb : b.Populated) (hab : ∀ key, b.Lists file key → a.Lists file key)
      (ha : a.get? file = none) : b.get? file = none := by
    cases hbf : b.get? file with
    | none => rfl
    | some keys =>
      obtain ⟨key, hk⟩ := hb file keys hbf
      obtain ⟨_, hsome, _⟩ := lists_iff.mp (hab key (lists_iff.mpr ⟨keys, hbf, hk⟩))
      rw [ha] at hsome
      exact absurd hsome (by simp)
  cases hf : files.get? file with
  | none => exact (hnone h' (fun key => (heq file key).mpr) hf).symm
  | some keys =>
    cases hf' : files'.get? file with
    | none =>
      rw [hnone h (fun key => (heq file key).mp) hf'] at hf
      exact absurd hf (by simp)
    | some keys' =>
      rw [SortedMap.getD_eq, SortedMap.getD_eq, hf, hf'] at hfile
      exact congrArg some (SortedSet.ext_mem hfile)

/-- Where files may stand without keys, an index is determined by its files and what it lists. -/
theorem ext_mem {files files' : FileIndex} (hmem : ∀ file, file ∈ files ↔ file ∈ files')
    (hlists : ∀ file key, files.Lists file key ↔ files'.Lists file key) : files = files' := by
  refine SortedMap.ext_get? fun file => ?_
  have hkeys := hlists file
  simp only [Lists, SortedMap.getD_eq] at hkeys
  cases hf : files.get? file with
  | none => exact (SortedMap.get?_eq_none_iff.mpr fun h =>
      SortedMap.get?_eq_none_iff.mp hf ((hmem file).mpr h)).symm
  | some keys =>
    obtain ⟨keys', hf'⟩ := SortedMap.mem_iff.mp ((hmem file).mp (SortedMap.mem_of_get? hf))
    rw [hf, hf'] at hkeys
    rw [hf']
    exact congrArg some (SortedSet.ext_mem hkeys)

/-! ## The index built anew -/

/-- Adding the keys of a list of entries, each under the file of its unit. -/
theorem lists_foldl_add {l : List (String × Entry)} {files : FileIndex} {file key : String} :
    (l.foldl (fun files e => files.add e.2.unit.file e.1) files).Lists file key ↔
      (∃ e, (key, e) ∈ l ∧ e.unit.file = file) ∨ files.Lists file key := by
  induction l generalizing files with
  | nil => simp
  | cons a rest ih =>
    rw [List.foldl_cons, ih, lists_add]
    constructor
    · -- a key is listed by a later entry, by the first one, or from before
      rintro (⟨e, he, hf⟩ | ⟨hf, hk⟩ | h)
      · exact Or.inl ⟨e, List.mem_cons_of_mem _ he, hf⟩
      · exact Or.inl ⟨a.2, by rw [hk]; exact List.mem_cons_self, hf.symm⟩
      · exact Or.inr h
    · rintro (⟨e, he, hf⟩ | h)
      · rcases List.mem_cons.mp he with heq | he
        · exact Or.inr (Or.inl ⟨by rw [← heq, hf], by rw [← heq]⟩)
        · exact Or.inl ⟨e, he, hf⟩
      · exact Or.inr (Or.inr h)

theorem lists_ofEntries {es : Entries} {file key : String} :
    (ofEntries es).Lists file key ↔ ∃ e, es.get? key = some e ∧ e.unit.file = file := by
  rw [ofEntries, lists_foldl_add, or_iff_left (not_lists_empty file key)]
  simp only [SortedMap.get?_eq_some_iff]

/-- The index of entries has no file without units, since files are added with their units. -/
theorem populated_ofEntries (es : Entries) : (ofEntries es).Populated := by
  have hfold : ∀ (l : List (String × Entry)) (files : FileIndex), files.Populated →
      (l.foldl (fun files e => files.add e.2.unit.file e.1) files).Populated := by
    intro l
    induction l with
    | nil => exact fun _ h => h
    | cons a rest ih => exact fun files h => ih _ (h.add _ _)
  refine hfold es.toList ∅ fun file keys h => ?_
  rw [SortedMap.get?_empty] at h
  exact absurd h (by simp)

end FileIndex

namespace Registry

/-- The index lists each key under the file of its entry, and nothing else. -/
def Indexed (r : Registry) : Prop :=
  ∀ file key, r.files.Lists file key ↔ ∃ e, r.entries.get? key = some e ∧ e.unit.file = file

theorem indexed_empty : Indexed .empty := fun file key =>
  ⟨fun h => absurd h (FileIndex.not_lists_empty file key), fun ⟨_, h, _⟩ => by
    rw [empty, SortedMap.get?_empty] at h; exact absurd h (by simp)⟩

theorem indexed_ofEntries (es : Entries) : Indexed (.ofEntries es) := fun _ _ =>
  FileIndex.lists_ofEntries

/-- What stands under a key, peers aside: the unit and its count. -/
def tally (r : Registry) (key : String) : Option (CodeUnit × Nat) :=
  (r.entries.get? key).map fun e => (e.unit, e.count)

theorem tally_of_get? {r : Registry} {key : String} {e : Entry} (h : r.entries.get? key = some e) :
    r.tally key = some (e.unit, e.count) := by
  rw [tally, h, Option.map_some]

theorem tally_eq_some_iff {r : Registry} {key : String} {u : CodeUnit} {n : Nat} :
    r.tally key = some (u, n) ↔ ∃ e, r.entries.get? key = some e ∧ e.unit = u ∧ e.count = n := by
  rw [tally, Option.map_eq_some_iff]
  simp only [Prod.mk.injEq]

/-- Whether an index is right does not depend on peers. -/
theorem indexed_iff_tally {r : Registry} :
    r.Indexed ↔ ∀ file key,
      r.files.Lists file key ↔ ∃ u n, r.tally key = some (u, n) ∧ u.file = file := by
  refine forall₂_congr fun file key => iff_congr Iff.rfl ?_
  constructor
  · rintro ⟨e, he, hf⟩
    exact ⟨e.unit, e.count, tally_of_get? he, hf⟩
  · rintro ⟨u, n, ht, hf⟩
    obtain ⟨e, he, rfl, _⟩ := tally_eq_some_iff.mp ht
    exact ⟨e, he, hf⟩

/-- **The index is the one built anew exactly if it is right and has no file without keys.** To be
right means to list the keys of just the entries of a file under it. -/
theorem files_eq_ofEntries_iff {r : Registry} :
    r.files = .ofEntries r.entries ↔ r.Indexed ∧ r.files.Populated := by
  constructor
  · intro h
    refine ⟨fun file key => ?_, h ▸ FileIndex.populated_ofEntries r.entries⟩
    rw [h]
    exact FileIndex.lists_ofEntries
  · rintro ⟨hidx, hpop⟩
    refine FileIndex.ext_lists hpop (FileIndex.populated_ofEntries _) fun file key => ?_
    rw [hidx file key, FileIndex.lists_ofEntries]

/-! ## The consistency check -/

/-- All keys of an index, file after file. -/
def listedKeys (files : FileIndex) : List String := files.toList.flatMap fun f => f.2.keys

/-- The keys that an index lists are those that it lists under some file. -/
theorem mem_listedKeys {files : FileIndex} {key : String} :
    key ∈ listedKeys files ↔ ∃ file, files.Lists file key := by
  rw [listedKeys, List.mem_flatMap]
  constructor
  · rintro ⟨⟨file, keys⟩, hf, hk⟩
    exact ⟨file, FileIndex.lists_iff.mpr
      ⟨keys, SortedMap.get?_eq_some_iff.mpr hf, SortedMap.mem_keys.mp hk⟩⟩
  · rintro ⟨file, hl⟩
    obtain ⟨keys, hf, hk⟩ := FileIndex.lists_iff.mp hl
    exact ⟨(file, keys), SortedMap.get?_eq_some_iff.mp hf, SortedMap.mem_keys.mpr hk⟩

theorem length_listedKeys (files : FileIndex) :
    (listedKeys files).length = (files.values.map (·.size)).sum := by
  rw [SortedMap.values, listedKeys, List.length_flatMap, List.map_map]
  refine congrArg List.sum (List.map_congr_left fun f _ => ?_)
  exact (SortedMap.size_eq_length_keys f.2).symm

/-- Each key that is listed is listed under the file of its entry. -/
def ListsRightly (r : Registry) : Prop :=
  ∀ file key, r.files.Lists file key → ∃ e, r.entries.get? key = some e ∧ e.unit.file = file

/-- The check on an index passes if each key that is listed has an entry of the file that it is
listed under. -/
theorem all_listed_iff {r : Registry} :
    (r.files.toList.all fun f => f.2.keys.all fun key =>
      ((r.get? key).map (·.unit.file)) == some f.1) = true ↔ r.ListsRightly := by
  simp only [List.all_eq_true, beq_iff_eq, Option.map_eq_some_iff, get?]
  constructor
  · intro h file key hl
    obtain ⟨keys, hf, hk⟩ := FileIndex.lists_iff.mp hl
    exact h (file, keys) (SortedMap.get?_eq_some_iff.mp hf) key (SortedMap.mem_keys.mpr hk)
  · intro h f hf key hk
    exact h f.1 key (FileIndex.lists_iff.mpr
      ⟨f.2, SortedMap.get?_of_mem_toList hf, SortedMap.mem_keys.mp hk⟩)

/-- No key is listed twice if all are listed rightly: one under two files would have an entry of
both. -/
theorem ListsRightly.nodup_listedKeys {r : Registry} (h : r.ListsRightly) :
    (listedKeys r.files).Nodup := by
  rw [listedKeys, List.nodup_flatMap]
  refine ⟨fun f _ => SortedMap.nodup_keys f.2, ?_⟩
  -- the lines of the index are of different files
  have hne : r.files.toList.Pairwise (fun f g => f.1 ≠ g.1) := by
    refine r.files.sorted.imp fun {f g} hlt heq => ?_
    rw [heq] at hlt
    exact LinearKeys.irrefl _ hlt
  refine hne.imp_of_mem fun {f g} hf hg hfg => ?_
  intro key hkf hkg
  have lists {f : String × SortedSet String} (hf : f ∈ r.files.toList) (hk : key ∈ f.2.keys) :
      r.files.Lists f.1 key :=
    FileIndex.lists_iff.mpr ⟨f.2, SortedMap.get?_of_mem_toList hf, SortedMap.mem_keys.mp hk⟩
  obtain ⟨e, he, hef⟩ := h f.1 key (lists hf hkf)
  obtain ⟨e', he', heg⟩ := h g.1 key (lists hg hkg)
  rw [he] at he'
  exact hfg (by rw [← hef, ← heg, Option.some.inj he'])

/-- An index that lists rightly lists only keys with an entry. -/
theorem ListsRightly.listedKeys_subset {r : Registry} (h : r.ListsRightly) :
    listedKeys r.files ⊆ r.entries.keys := by
  intro key hk
  obtain ⟨file, hl⟩ := mem_listedKeys.mp hk
  obtain ⟨e, he, _⟩ := h file key hl
  exact SortedMap.mem_keys.mpr (SortedMap.mem_of_get? he)

/-- **The consistency check holds exactly of the right indices.** It sees to it that every listed
key is listed rightly, and then counts: as many keys are listed as there are entries, so none is
missing. -/
theorem isConsistent_iff {r : Registry} : r.isConsistent = true ↔ r.Indexed := by
  rw [isConsistent, Bool.and_eq_true, all_listed_iff, beq_iff_eq, ← length_listedKeys,
    SortedMap.size_eq_length_keys]
  constructor
  · rintro ⟨hlen, h⟩ file key
    refine ⟨h file key, fun hright => ?_⟩
    obtain ⟨e, he, hef⟩ := hright
    have hperm : (listedKeys r.files).Perm r.entries.keys :=
      (List.subperm_of_subset h.nodup_listedKeys h.listedKeys_subset).perm_of_length_le
        (Nat.le_of_eq hlen.symm)
    have hk : key ∈ listedKeys r.files :=
      hperm.mem_iff.mpr (SortedMap.mem_keys.mpr (SortedMap.mem_of_get? he))
    -- the key is listed under some file, which can only be that of its entry
    obtain ⟨file', hl⟩ := mem_listedKeys.mp hk
    obtain ⟨e', he', hef'⟩ := h file' key hl
    rw [he] at he'
    rw [← hef, Option.some.inj he', hef']
    exact hl
  · intro h
    have hright : r.ListsRightly := fun file key => (h file key).mp
    refine ⟨List.Perm.length_eq ?_, hright⟩
    refine (List.perm_ext_iff_of_nodup hright.nodup_listedKeys (SortedMap.nodup_keys _)).mpr
      fun key => ⟨fun hk => hright.listedKeys_subset hk, fun hk => ?_⟩
    obtain ⟨e, he⟩ := SortedMap.mem_iff.mp (SortedMap.mem_keys.mp hk)
    exact mem_listedKeys.mpr ⟨e.unit.file, (h e.unit.file key).mpr ⟨e, he, rfl⟩⟩

end Registry

end CoChange
