import CoChange.Proofs.Registry.Event

/-!
# Removing files

Removing a file takes its units out and strikes them from the peers of all others. The peers are
found through the removed units, so this is complete when the couplings are symmetric. Then the
entries behind a removal *prune* those before it (`Entries.Prunes`): what is left stays as it was,
except that it no longer lists what has gone.

* **`prunes_removeFile`**, **`prunes_dropFiles`**: a removal of one file, and of all files that a
  commit deletes, prunes.
* **`tally_removeFile`**, **`Indexed.removeFile`**: units and counts of what is left, and the index,
  with no need of symmetry.
* **`Prunes.symmetric`**, **`Prunes.closed_iff`**: what pruning does to the laws of couplings.
-/

namespace CoChange

namespace Entries

/-- The second entries are some of the first, and list the same peers except those that have
gone. -/
def Prunes (es es' : Entries) : Prop :=
  ∀ k e', es'.get? k = some e' → ∃ e, es.get? k = some e ∧ e'.unit = e.unit ∧ e'.count = e.count ∧
    ∀ p, e'.couples.get? p = if p ∈ es ∧ p ∉ es' then none else e.couples.get? p

theorem Prunes.refl (es : Entries) : es.Prunes es := fun _ e h =>
  ⟨e, h, rfl, rfl, fun p => by rw [if_neg fun hp => hp.2 hp.1]⟩

theorem Prunes.mem {es es' : Entries} (h : es.Prunes es') {k : String} (hk : k ∈ es') : k ∈ es := by
  obtain ⟨e', he'⟩ := SortedMap.mem_iff.mp hk
  obtain ⟨e, he, _⟩ := h k e' he'
  exact SortedMap.mem_of_get? he

/-- To prune what is left of a pruning is to prune. A peer is gone if it went in one of the two
steps. -/
theorem Prunes.trans {es es' es'' : Entries} (h : es.Prunes es') (h' : es'.Prunes es'') :
    es.Prunes es'' := by
  intro k e'' he''
  obtain ⟨e', he', hunit', hcount', hpeers'⟩ := h' k e'' he''
  obtain ⟨e, he, hunit, hcount, hpeers⟩ := h k e' he'
  refine ⟨e, he, hunit'.trans hunit, hcount'.trans hcount, fun p => ?_⟩
  rw [hpeers', hpeers]
  -- a peer goes with the step in which it goes itself
  by_cases hp'' : p ∈ es''
  · have hp' := h'.mem hp''
    rw [if_neg fun hp => hp.2 hp'', if_neg fun hp => hp.2 hp', if_neg fun hp => hp.2 hp'']
  · by_cases hp' : p ∈ es'
    · rw [if_pos ⟨hp', hp''⟩, if_pos ⟨h.mem hp', hp''⟩]
    · rw [if_neg fun hp => hp' hp.1]
      by_cases hp : p ∈ es
      · rw [if_pos ⟨hp, hp'⟩, if_pos ⟨hp, hp''⟩]
      · rw [if_neg fun h => hp h.1, if_neg fun h => hp h.1]

/-- Between a key that is left and any other, the coupling is as before unless the other one has
gone. -/
theorem Prunes.coupling {es es' : Entries} (h : es.Prunes es') {j : String} (hj : j ∈ es')
    (k : String) :
    es'.coupling j k = if k ∈ es ∧ k ∉ es' then none else es.coupling j k := by
  obtain ⟨e', he'⟩ := SortedMap.mem_iff.mp hj
  obtain ⟨e, he, _, _, hpeers⟩ := h j e' he'
  rw [coupling_of_get? he', coupling_of_get? he, hpeers]

theorem Prunes.symmetric {es es' : Entries} (h : es.Prunes es') (hsym : es.Symmetric) :
    es'.Symmetric := by
  intro j k hj hk
  rw [h.coupling hj, h.coupling hk, if_neg fun hp => hp.2 hk, if_neg fun hp => hp.2 hj]
  exact hsym j k (h.mem hj) (h.mem hk)

/-- A peer that is missing was missing before, and its lister is left. -/
theorem Prunes.closed_iff {es es' : Entries} (h : es.Prunes es') :
    es'.Closed ↔ ∀ j k n, j ∈ es' → es.coupling j k = some n → k ∈ es := by
  constructor
  · intro hc j k n hj hn
    by_contra hk
    refine hk (h.mem (hc j k n ?_))
    rw [h.coupling hj, if_neg fun hp => hk hp.1, hn]
  · intro hc j k n hn
    have hj := mem_of_coupling hn
    rw [h.coupling hj] at hn
    by_cases hp : k ∈ es ∧ k ∉ es'
    · rw [if_pos hp] at hn
      exact absurd hn (by simp)
    · rw [if_neg hp] at hn
      by_contra hk
      exact hp ⟨hc j k n hj hn, hk⟩

theorem Prunes.closed {es es' : Entries} (h : es.Prunes es') (hc : es.Closed) : es'.Closed :=
  h.closed_iff.mpr fun j k n _ hn => hc j k n hn

/-- What is pruned of entries that are not their own peers are not either. -/
theorem Prunes.irreflexive {es es' : Entries} (h : es.Prunes es') (hirr : es.Irreflexive) :
    es'.Irreflexive := by
  intro k
  by_cases hk : k ∈ es'
  · rw [h.coupling hk, hirr k, ite_self]
  · exact coupling_eq_none_of_not_mem hk k

/-- Entries that prune the same ones and have the same keys are the same. -/
theorem Prunes.ext {es es' es'' : Entries} (h' : es.Prunes es') (h'' : es.Prunes es'')
    (hkeys : ∀ k, k ∈ es' ↔ k ∈ es'') : es' = es'' := by
  refine SortedMap.ext_get? fun k => ?_
  cases he' : es'.get? k with
  | none => exact (SortedMap.get?_eq_none_iff.mpr fun h =>
      SortedMap.get?_eq_none_iff.mp he' ((hkeys k).mpr h)).symm
  | some e' =>
    obtain ⟨e'', he''⟩ := SortedMap.mem_iff.mp ((hkeys k).mp (SortedMap.mem_of_get? he'))
    obtain ⟨e, he, hunit', hcount', hpeers'⟩ := h' k e' he'
    obtain ⟨d, hd, hunit'', hcount'', hpeers''⟩ := h'' k e'' he''
    obtain rfl := Option.some.inj (he.symm.trans hd)
    -- which peers are left depends on the keys alone
    have hcouples : e'.couples = e''.couples := SortedMap.ext_get? fun p => by
      rw [hpeers', hpeers'']
      simp only [hkeys p]
    rw [he'', Option.some.injEq, Entry.mk.injEq]
    exact ⟨hunit'.trans hunit''.symm, hcount'.trans hcount''.symm, hcouples⟩

end Entries

namespace Registry

/-! ## One entry -/

/-- What is left behind the removal of an entry: nothing under its key, and its peers without it. -/
theorem get?_removeEntry (key k : String) (es : Entries) :
    (removeEntry key es).get? k =
      match es.get? key with
      | none => es.get? k
      | some e => if k = key then none else (es.get? k).map fun e' =>
          if k ∈ e.couples then { e' with couples := e'.couples.erase key } else e' := by
  unfold removeEntry
  cases es.get? key with
  | none => rfl
  | some e =>
    show ((es.erase key).mapValues _).get? k = if k = key then none else _
    rw [SortedMap.get?_mapValues, SortedMap.get?_erase]
    by_cases hk : k = key
    · rw [if_pos hk, if_pos hk, Option.map_none]
    · rw [if_neg hk, if_neg hk]

/-- The removal of an entry leaves all other keys. -/
theorem mem_removeEntry {key k : String} {es : Entries} :
    k ∈ removeEntry key es ↔ k ≠ key ∧ k ∈ es := by
  rw [SortedMap.mem_iff_isSome, get?_removeEntry, SortedMap.mem_iff_isSome]
  cases h : es.get? key with
  | none =>
    refine ⟨fun hk => ⟨fun heq => ?_, hk⟩, fun hk => hk.2⟩
    rw [heq, h] at hk
    exact absurd hk (by simp)
  | some e => by_cases hk : k = key <;> simp [hk]

/-- Of the removal of an entry, just its own key has gone. -/
theorem gone_removeEntry_iff {key p : String} {es : Entries} :
    p ∈ es ∧ p ∉ removeEntry key es ↔ p = key ∧ key ∈ es := by
  rw [mem_removeEntry]
  constructor
  · rintro ⟨hp, hnot⟩
    have hpk : p = key := by_contra fun h => hnot ⟨h, hp⟩
    exact ⟨hpk, hpk ▸ hp⟩
  · rintro ⟨rfl, hp⟩
    exact ⟨hp, fun h => h.1 rfl⟩

/-- Every entry that lists the removed unit is listed by it, so none goes on listing it. -/
theorem prunes_removeEntry {es : Entries} (hsym : es.Symmetric) (key : String) :
    es.Prunes (removeEntry key es) := by
  intro k e' he'
  obtain ⟨hne, hk⟩ := mem_removeEntry.mp (SortedMap.mem_of_get? he')
  simp only [gone_removeEntry_iff]
  rw [get?_removeEntry] at he'
  cases h : es.get? key with
  | none =>
    rw [h] at he'
    have hkey : key ∉ es := SortedMap.get?_eq_none_iff.mp h
    exact ⟨e', he', rfl, rfl, fun p => by rw [if_neg fun hp => hkey hp.2]⟩
  | some e =>
    have hkey : key ∈ es := SortedMap.mem_of_get? h
    rw [h] at he'
    simp only [if_neg hne] at he'
    obtain ⟨e₀, he₀, rfl⟩ := Option.map_eq_some_iff.mp he'
    refine ⟨e₀, he₀, ?_⟩
    by_cases hl : k ∈ e.couples
    · rw [if_pos hl]
      refine ⟨rfl, rfl, fun p => ?_⟩
      rw [SortedMap.get?_erase]
      by_cases hp : p = key
      · rw [if_pos hp, if_pos ⟨hp, hkey⟩]
      · rw [if_neg hp, if_neg fun h => hp h.1]
    · rw [if_neg hl]
      refine ⟨rfl, rfl, fun p => ?_⟩
      by_cases hp : p = key
      · -- symmetry: the removed unit does not list this entry, so it is not listed by it either
        have hnone : es.coupling k key = none := by
          rw [hsym k key hk hkey, Entries.coupling_of_get? h, SortedMap.get?_eq_none_iff.mpr hl]
        rw [Entries.coupling_of_get? he₀] at hnone
        rw [hp, hnone, ite_self]
      · rw [if_neg fun h => hp h.1]

/-- To remove entries one after the other prunes. Symmetry is kept on the way. -/
theorem prunes_foldl_removeEntry {es : Entries} (hsym : es.Symmetric) (keys : List String) :
    es.Prunes (keys.foldl (fun es key => removeEntry key es) es) := by
  induction keys generalizing es with
  | nil => exact .refl es
  | cons key rest ih =>
    have hone := prunes_removeEntry hsym key
    exact hone.trans (ih (hone.symmetric hsym))

/-- To remove entries one after the other leaves all other keys. -/
theorem mem_foldl_removeEntry {keys : List String} {es : Entries} {k : String} :
    k ∈ keys.foldl (fun es key => removeEntry key es) es ↔ k ∉ keys ∧ k ∈ es := by
  induction keys generalizing es with
  | nil => simp
  | cons key rest ih =>
    rw [List.foldl_cons, ih, mem_removeEntry, List.mem_cons, not_or]
    tauto

/-! ## One file -/

/-- The removal of a file leaves the keys that the index does not list under it. -/
theorem mem_removeFile {r : Registry} {file k : String} :
    k ∈ (r.removeFile file).entries ↔ k ∈ r.entries ∧ ¬ r.files.Lists file k := by
  rw [removeFile, FileIndex.lists_iff]
  cases h : r.files.get? file with
  | none => simp
  | some keys =>
    show k ∈ keys.keys.foldl _ _ ↔ _
    rw [mem_foldl_removeEntry, SortedMap.mem_keys]
    simp [and_comm]

/-- The index without a removed file lists what it listed of the others. -/
theorem lists_removeFile {r : Registry} {file file' k : String} :
    (r.removeFile file).files.Lists file' k ↔ file' ≠ file ∧ r.files.Lists file' k := by
  rw [removeFile]
  cases h : r.files.get? file with
  | none =>
    refine ⟨fun hl => ⟨fun heq => ?_, hl⟩, fun hl => hl.2⟩
    obtain ⟨_, hf, _⟩ := FileIndex.lists_iff.mp hl
    rw [heq, h] at hf
    exact absurd hf (by simp)
  | some keys => exact FileIndex.lists_erase

/-- The removal of a file takes the file out of the index and leaves the rest of the index as it
is. -/
theorem get?_files_removeFile {r : Registry} {file file' : String} :
    (r.removeFile file).files.get? file' = if file' = file then none else r.files.get? file' := by
  rw [removeFile]
  cases h : r.files.get? file with
  | none =>
    by_cases hf : file' = file
    · rw [if_pos hf, hf, h]
    · rw [if_neg hf]
  | some keys => exact SortedMap.get?_erase _ _ _

/-- To remove the units of a file prunes: every peer is found through the unit that goes. -/
theorem prunes_removeFile {r : Registry} (hsym : r.entries.Symmetric) (file : String) :
    r.entries.Prunes (r.removeFile file).entries := by
  rw [removeFile]
  cases r.files.get? file with
  | none => exact .refl _
  | some keys => exact prunes_foldl_removeEntry hsym keys.keys

theorem coherent_removeFile {r : Registry} (h : r.entries.Coherent) (file : String) :
    (r.removeFile file).entries.Coherent := by
  have hprunes := prunes_removeFile h.symmetric file
  exact ⟨hprunes.symmetric h.symmetric, hprunes.closed h.closed, hprunes.irreflexive h.irreflexive⟩

/-! ## Units and counts behind a removal -/

/-- An entry that is not removed keeps its unit and its count, whatever happens to its peers. -/
theorem tally_removeEntries {keys : List String} {r : Registry} {k : String} (hk : k ∉ keys) :
    tally { r with entries := keys.foldl (fun es key => removeEntry key es) r.entries } k =
      r.tally k := by
  induction keys generalizing r with
  | nil => rfl
  | cons key rest ih =>
    rw [List.mem_cons, not_or] at hk
    -- what is erased from the peers of an entry does not show in its tally
    have hone : tally { r with entries := removeEntry key r.entries } k = r.tally k := by
      rw [tally, tally, get?_removeEntry]
      cases r.entries.get? key with
      | none => rfl
      | some e =>
        simp only [if_neg hk.1, Option.map_map]
        refine congrArg (Option.map · (r.entries.get? k)) (funext fun e' => ?_)
        by_cases hl : k ∈ e.couples <;> simp [hl]
    exact (ih (r := { r with entries := removeEntry key r.entries }) hk.2).trans hone

/-- **The removal of a file takes out what is listed under it, and changes no other unit or
count.** -/
theorem tally_removeFile {r : Registry} {file k : String} :
    (r.removeFile file).tally k = if r.files.Lists file k then none else r.tally k := by
  by_cases hl : r.files.Lists file k
  · rw [if_pos hl]
    have hgone : k ∉ (r.removeFile file).entries := fun hk => (mem_removeFile.mp hk).2 hl
    rw [tally, SortedMap.get?_eq_none_iff.mpr hgone, Option.map_none]
  · rw [if_neg hl, removeFile]
    cases hf : r.files.get? file with
    | none => rfl
    | some keys =>
      have hk : k ∉ keys.keys := fun hk =>
        hl (FileIndex.lists_iff.mpr ⟨keys, hf, SortedMap.mem_keys.mp hk⟩)
      exact tally_removeEntries hk

/-- The removal of a file keeps the index right. -/
theorem Indexed.removeFile {r : Registry} (h : r.Indexed) (file : String) :
    (r.removeFile file).Indexed := by
  rw [indexed_iff_tally]
  intro file' key
  rw [lists_removeFile, tally_removeFile, h file' key]
  constructor
  · rintro ⟨hf, e, he, hef⟩
    -- the key is listed under one file only, so it is not removed
    have hl : ¬ r.files.Lists file key := fun hl => by
      obtain ⟨e', he', hef'⟩ := (h file key).mp hl
      rw [he] at he'
      exact hf (by rw [← hef, Option.some.inj he', hef'])
    exact ⟨e.unit, e.count, by rw [if_neg hl, tally_of_get? he], hef⟩
  · rintro ⟨u, n, ht, hf⟩
    by_cases hl : r.files.Lists file key
    · rw [if_pos hl] at ht
      exact absurd ht (by simp)
    · rw [if_neg hl] at ht
      obtain ⟨e, he, rfl, _⟩ := tally_eq_some_iff.mp ht
      exact ⟨fun heq => hl ((h file key).mpr ⟨e, he, hf.trans heq⟩), e, he, hf⟩

/-- No file of the index is without units after the removal of one. -/
theorem populated_removeFile {r : Registry} (h : r.files.Populated) (file : String) :
    (r.removeFile file).files.Populated := by
  rw [removeFile]
  cases r.files.get? file with
  | none => exact h
  | some keys =>
    intro file' keys' hk
    rw [SortedMap.get?_erase] at hk
    by_cases hf : file' = file
    · rw [if_pos hf] at hk
      exact absurd hk (by simp)
    · rw [if_neg hf] at hk
      exact h file' keys' hk

end Registry

/-! ## The files that a commit deletes -/

namespace Engine

open Registry

/-- To remove files one after the other prunes. Symmetry is kept on the way. -/
theorem prunes_foldl_removeFile {r : Registry} (hsym : r.entries.Symmetric) (files : List String) :
    r.entries.Prunes (files.foldl (fun r file => r.removeFile file) r).entries := by
  induction files generalizing r with
  | nil => exact .refl _
  | cons file rest ih =>
    have hone := prunes_removeFile hsym file
    exact hone.trans (ih (hone.symmetric hsym))

/-- **What a commit leaves after its deletions prunes what it found.** The files go one after the
other, and each removal finds symmetric couplings. -/
theorem prunes_dropFiles {r : Registry} (hsym : r.entries.Symmetric) (c : Commit) :
    r.entries.Prunes (dropFiles r c).entries :=
  prunes_foldl_removeFile hsym (deletedFiles c)

/-- The removal of some files leaves the keys that the index lists under none of them. -/
theorem mem_foldl_removeFile {files : List String} {r : Registry} {k : String} :
    k ∈ (files.foldl (fun r file => r.removeFile file) r).entries ↔
      k ∈ r.entries ∧ ∀ file, file ∈ files → ¬ r.files.Lists file k := by
  induction files generalizing r with
  | nil => simp
  | cons f rest ih =>
    rw [List.foldl_cons, ih, mem_removeFile]
    simp only [lists_removeFile, List.forall_mem_cons]
    constructor
    · rintro ⟨⟨hk, hf⟩, hrest⟩
      refine ⟨hk, hf, fun file hm hl => ?_⟩
      -- the files behind the first one are looked up in an index that has lost it
      by_cases heq : file = f
      · exact hf (heq ▸ hl)
      · exact hrest file hm ⟨heq, hl⟩
    · rintro ⟨hk, hf, hrest⟩
      exact ⟨⟨hk, hf⟩, fun file hm hl => hrest file hm hl.2⟩

/-- The removal of some files takes these out of the index, in whatever order it is done. -/
theorem get?_files_foldl_removeFile {files : List String} {r : Registry} {file : String} :
    (files.foldl (fun r file => r.removeFile file) r).files.get? file =
      if file ∈ files then none else r.files.get? file := by
  induction files generalizing r with
  | nil => rfl
  | cons f rest ih =>
    rw [List.foldl_cons, ih, get?_files_removeFile]
    by_cases hf : file = f <;> simp [hf]

/-- **Files can be removed in any order** if the couplings are symmetric. The entries that are left
are the same, each of them has lost the same peers, and the index has lost the same files. -/
theorem foldl_removeFile_perm {r : Registry} (hsym : r.entries.Symmetric)
    {files files' : List String} (h : files.Perm files') :
    files.foldl (fun r file => r.removeFile file) r =
      files'.foldl (fun r file => r.removeFile file) r := by
  have hfiles : (files.foldl (fun r file => r.removeFile file) r).files =
      (files'.foldl (fun r file => r.removeFile file) r).files := SortedMap.ext_get? fun file => by
    rw [get?_files_foldl_removeFile, get?_files_foldl_removeFile]
    simp only [h.mem_iff]
  have hentries : (files.foldl (fun r file => r.removeFile file) r).entries =
      (files'.foldl (fun r file => r.removeFile file) r).entries := by
    refine (prunes_foldl_removeFile hsym files).ext
      (prunes_foldl_removeFile hsym files') fun k => ?_
    rw [mem_foldl_removeFile, mem_foldl_removeFile]
    simp only [h.mem_iff]
  exact (Registry.mk.injEq ..).mpr ⟨hentries, hfiles⟩

end Engine

end CoChange
