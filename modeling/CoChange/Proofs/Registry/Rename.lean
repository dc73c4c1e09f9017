import CoChange.Proofs.Registry.Coupling

/-!
# Renaming a file

A rename gives the units of a file new keys and leaves all other units where they are. As a map on
keys it is `Registry.newKey`. It is a relabelling and loses nothing when it gives no two units one
key (`Registry.Separates`), as it does when the new path is free and keys tell units apart
(`separates_of_untracked`). Then everything about the registry behind it follows:

* **`mem_entries_rename`**: its keys are the new keys of the old ones.
* **`get?_rename_newKey`**: under a new key stands the old entry, its unit moved and its peers
  relabelled (`carried`).
* **`coupling_rename`**: two units have after the rename the coupling that they had before.
* **`lists_rename`**: the index lists the moved keys under the new file and nothing under the old
  one.

Units, counts and index stay right also where a moved unit takes the place of another one, as long
as that is a unit of the new file (`Registry.Overlays`):

* **`tally_rename_eq_some_iff`**: which units stand where behind such a rename, and with what
  counts.
* **`Indexed.rename`**: the index stays right.

The entries whose peers are relabelled are found through the moved units alone, so the couplings
have to be reciprocal for `get?_rename_newKey`: a unit that lists a moved one has to be listed by
it.
-/

namespace CoChange

namespace Registry

variable {source target : String} {r : Registry}

/-- The new keys of the units of a file that is renamed, by their old keys. -/
def moves (source target : String) (r : Registry) : SortedMap String String :=
  relocation target (r.unitsIn source)

/-- The key that a key becomes when a file is renamed. -/
def newKey (source target : String) (r : Registry) (key : String) : String :=
  (r.moves source target).getD key key

/-- A rename gives no two units one key. -/
def Separates (source target : String) (r : Registry) : Prop :=
  ∀ j k, j ∈ r.entries → k ∈ r.entries →
    r.newKey source target j = r.newKey source target k → j = k

/-- A rename gives no two of the units that it moves one key, and where it gives one of them the key
of a unit that stays, that one is of the new file already. -/
structure Overlays (source target : String) (r : Registry) : Prop where
  inj : ∀ j k, j ∈ r.moves source target → k ∈ r.moves source target →
    r.newKey source target j = r.newKey source target k → j = k
  target : ∀ j k e, j ∈ r.moves source target → k ∉ r.moves source target →
    r.newKey source target j = k → r.entries.get? k = some e → e.unit.file = target

/-- The unit of an entry after a rename. -/
def newUnit (source target : String) (r : Registry) (key : String) (u : CodeUnit) : CodeUnit :=
  if key ∈ r.moves source target then u.relocated target else u

/-- An entry after a rename: its unit in its new file, its peers under their new keys. -/
def carried (source target : String) (r : Registry) (key : String) (e : Entry) : Entry :=
  ⟨r.newUnit source target key e.unit, e.count, relabel (r.moves source target) e.couples⟩

/-! ## Which keys move -/

section Units

variable {o : TableOrder} {file : String}

/-- The units of a file are the entries of the keys that are listed under it, whatever the order
is. -/
theorem mem_unitsInOrder {key : String} {e : Entry} :
    (key, e) ∈ r.unitsInOrder o file ↔ r.files.Lists file key ∧ r.entries.get? key = some e := by
  rw [unitsInOrder, FileIndex.lists_iff]
  cases h : r.files.get? file with
  | none => simp
  | some keys =>
    simp only [List.mem_filterMap, (o.perm_units keys.keys).mem_iff, SortedMap.mem_keys, get?,
      Option.map_eq_some_iff, Prod.mk.injEq, Option.some.injEq, exists_eq_left']
    constructor
    · rintro ⟨k, hk, e', he, rfl, rfl⟩
      exact ⟨hk, he⟩
    · rintro ⟨hk, he⟩
      exact ⟨key, hk, e, he, rfl, rfl⟩

/-- No unit of a file comes twice, since keys are listed once and an order only permutes them. -/
theorem nodup_unitsInOrder (o : TableOrder) (file : String) (r : Registry) :
    ((r.unitsInOrder o file).map (·.1)).Nodup := by
  rw [unitsInOrder]
  cases r.files.get? file with
  | none => exact List.nodup_nil
  | some keys =>
    have hkeys := (o.perm_units keys.keys).nodup_iff.mpr (SortedMap.nodup_keys keys)
    show (((o.units keys.keys).filterMap fun key => (r.get? key).map (Prod.mk key)).map (·.1)).Nodup
    generalize o.units keys.keys = l at hkeys
    induction l with
    | nil => exact List.nodup_nil
    | cons key rest ih =>
      rw [List.nodup_cons] at hkeys
      cases hget : r.get? key with
      | none => rw [List.filterMap_cons_none (by rw [hget]; rfl)]; exact ih hkeys.2
      | some e =>
        rw [List.filterMap_cons_some (by rw [hget]; rfl), List.map_cons, List.nodup_cons]
        refine ⟨fun hm => hkeys.1 ?_, ih hkeys.2⟩
        -- the kept pairs are made of keys of the rest
        obtain ⟨⟨k, e'⟩, hp, rfl⟩ := List.mem_map.mp hm
        obtain ⟨k', hk', heq⟩ := List.mem_filterMap.mp hp
        obtain ⟨_, _, heq⟩ := Option.map_eq_some_iff.mp heq
        exact (congrArg Prod.fst heq) ▸ hk'

/-- The order of the table is the only difference that it makes to the units of a file. -/
theorem perm_unitsInOrder (o : TableOrder) (file : String) (r : Registry) :
    (r.unitsInOrder o file).Perm (r.unitsIn file) := by
  rw [unitsIn, unitsInOrder, unitsInOrder]
  cases r.files.get? file with
  | none => exact .refl _
  | some keys => exact (o.perm_units keys.keys).filterMap _

end Units

/-- The keys that move are those of the units of the file, and each goes to the key of its unit at
the new path. -/
theorem get?_moves_iff {key key' : String} :
    (r.moves source target).get? key = some key' ↔
      ∃ e, r.files.Lists source key ∧ r.entries.get? key = some e ∧
        (e.unit.relocated target).key = key' := by
  have hnodup : (((r.unitsIn source).map fun u => (u.1, (u.2.unit.relocated target).key)).map
      (·.1)).Nodup := by
    rw [List.map_map]
    exact nodup_unitsInOrder .byKey source r
  rw [moves, relocation, SortedMap.get?_ofList_eq_some_iff hnodup, List.mem_map]
  constructor
  · rintro ⟨⟨k, e⟩, hu, heq⟩
    obtain ⟨rfl, rfl⟩ := Prod.mk.inj heq
    obtain ⟨hl, he⟩ := mem_unitsInOrder.mp hu
    exact ⟨e, hl, he, rfl⟩
  · rintro ⟨e, hl, he, rfl⟩
    exact ⟨(key, e), mem_unitsInOrder.mpr ⟨hl, he⟩, rfl⟩

/-- A key moves if it is listed under the old file and has an entry. -/
theorem mem_moves {key : String} :
    key ∈ r.moves source target ↔ r.files.Lists source key ∧ key ∈ r.entries := by
  rw [SortedMap.mem_iff, SortedMap.mem_iff]
  simp only [get?_moves_iff]
  constructor
  · rintro ⟨_, e, hl, he, _⟩
    exact ⟨hl, e, he⟩
  · rintro ⟨hl, e, he⟩
    exact ⟨_, e, hl, he, rfl⟩

/-- A key that moves becomes the key of its unit at the new path. -/
theorem newKey_of_mem {key : String} {e : Entry} (h : key ∈ r.moves source target)
    (he : r.entries.get? key = some e) :
    r.newKey source target key = (e.unit.relocated target).key := by
  have hget : (r.moves source target).get? key = some (e.unit.relocated target).key :=
    get?_moves_iff.mpr ⟨e, (mem_moves.mp h).1, he, rfl⟩
  rw [newKey, SortedMap.getD_eq, hget, Option.getD_some]

theorem newKey_of_not_mem {key : String} (h : key ∉ r.moves source target) :
    r.newKey source target key = key := by
  rw [newKey, SortedMap.getD_eq, SortedMap.get?_eq_none_iff.mpr h, Option.getD_none]

/-- A rename that separates puts no unit in the place of another one. -/
theorem Separates.overlays (h : r.Separates source target) : r.Overlays source target where
  inj j k hj hk := h j k (mem_moves.mp hj).2 (mem_moves.mp hk).2
  target j k e hj hk heq he := by
    have hjk : j = k := h j k (mem_moves.mp hj).2 (SortedMap.mem_of_get? he)
      (by rw [heq, newKey_of_not_mem hk])
    exact absurd (hjk ▸ hj) hk

/-- Entries stand under the keys of their units before a rename exactly if they do behind it. -/
theorem newKey_eq_key {key : String} {e : Entry} (he : r.entries.get? key = some e)
    (hkey : e.unit.key = key) :
    r.newKey source target key = (r.newUnit source target key e.unit).key := by
  rw [newUnit]
  by_cases h : key ∈ r.moves source target
  · rw [newKey_of_mem h he, if_pos h]
  · rw [newKey_of_not_mem h, if_neg h, hkey]

/-- Two units of one file have one key in another file only if they have one key where they are. -/
theorem key_eq_of_relocated {u v : CodeUnit} {file : String} (hfile : u.file = v.file)
    (h : (u.relocated file).key = (v.relocated file).key) : u.key = v.key := by
  unfold CodeUnit.key at h ⊢
  rw [CodeUnit.relocated_file, CodeUnit.relocated_file, String.append_left_inj] at h
  rw [hfile, String.append_left_inj]
  exact h

/-- **A rename separates** if the index is right, entries stand under the keys of their units, and
no moved unit gets the key of a unit of another file. -/
theorem separates_of_free (hidx : r.Indexed)
    (hkeyed : ∀ k e, r.entries.get? k = some e → e.unit.key = k)
    (hfree : ∀ j k d e, r.entries.get? j = some d → d.unit.file = source →
      r.entries.get? k = some e → e.unit.file ≠ source → (d.unit.relocated target).key ≠ k) :
    r.Separates source target := by
  have hfile {k : String} {e : Entry} (hk : k ∈ r.moves source target)
      (he : r.entries.get? k = some e) : e.unit.file = source := by
    obtain ⟨e', he', hf⟩ := (hidx source k).mp (mem_moves.mp hk).1
    rw [he] at he'
    rw [Option.some.inj he', hf]
  -- a unit that stays is of another file, so that its key is free of moved units
  have hapart {j k : String} (hj : j ∈ r.moves source target) (hjr : j ∈ r.entries)
      (hk : k ∉ r.moves source target) (hkr : k ∈ r.entries) :
      r.newKey source target j ≠ r.newKey source target k := by
    obtain ⟨d, hd⟩ := SortedMap.mem_iff.mp hjr
    obtain ⟨e, he⟩ := SortedMap.mem_iff.mp hkr
    have hother : e.unit.file ≠ source := fun hs =>
      hk (mem_moves.mpr ⟨(hidx source k).mpr ⟨e, he, hs⟩, hkr⟩)
    rw [newKey_of_mem hj hd, newKey_of_not_mem hk]
    exact hfree j k d e hd (hfile hj hd) he hother
  intro j k hjr hkr heq
  by_cases hj : j ∈ r.moves source target
  · by_cases hk : k ∈ r.moves source target
    · obtain ⟨d, hd⟩ := SortedMap.mem_iff.mp hjr
      obtain ⟨e, he⟩ := SortedMap.mem_iff.mp hkr
      rw [newKey_of_mem hj hd, newKey_of_mem hk he] at heq
      rw [← hkeyed j d hd, ← hkeyed k e he]
      exact key_eq_of_relocated ((hfile hj hd).trans (hfile hk he).symm) heq
    · exact absurd heq (hapart hj hjr hk hkr)
  · by_cases hk : k ∈ r.moves source target
    · exact absurd heq.symm (hapart hk hkr hj hjr)
    · rwa [newKey_of_not_mem hj, newKey_of_not_mem hk] at heq

/-- **A rename to a path without units separates**, if the index is right, entries stand under the
keys of their units, and no moved unit has the key of another one. -/
theorem separates_of_untracked (hidx : r.Indexed)
    (hkeyed : ∀ k e, r.entries.get? k = some e → e.unit.key = k)
    (hfree : ∀ k e, r.entries.get? k = some e → e.unit.file ≠ target)
    (hdistinct : ∀ j k d e, r.entries.get? j = some d → d.unit.file = source →
      r.entries.get? k = some e → (d.unit.relocated target).key = e.unit.key →
      d.unit.relocated target = e.unit) :
    r.Separates source target := by
  refine separates_of_free hidx hkeyed fun j k d e hd hs he _ heq => ?_
  -- the unit with the key of the moved one would be that unit, but the new path is free
  have hunit := hdistinct j k d e hd hs he (heq.trans (hkeyed k e he).symm)
  exact hfree k e he (by rw [← hunit, CodeUnit.relocated_file])

/-! ## Relabelling peers -/

/-- Relabelling that keeps the peers apart gives no two of them one key. -/
theorem nodup_relabelled {moves : SortedMap String String} {couples : SortedMap String Nat}
    (hinj : ∀ j k, j ∈ couples → k ∈ couples → moves.getD j j = moves.getD k k → j = k) :
    ((couples.toList.map fun c => (moves.getD c.1 c.1, c.2)).map (·.1)).Nodup := by
  have hkeys : (couples.toList.map fun c => (moves.getD c.1 c.1, c.2)).map (·.1) =
      couples.keys.map fun k => moves.getD k k := by
    rw [SortedMap.keys, List.map_map, List.map_map]
    rfl
  rw [hkeys]
  exact List.Nodup.map_on
    (fun j hj k hk => hinj j k (SortedMap.mem_keys.mp hj) (SortedMap.mem_keys.mp hk))
    (SortedMap.nodup_keys couples)

/-- Relabelling that keeps the peers apart moves each number to the new key of its peer. -/
theorem get?_relabel {moves : SortedMap String String} {couples : SortedMap String Nat}
    (hinj : ∀ j k, j ∈ couples → k ∈ couples → moves.getD j j = moves.getD k k → j = k)
    {key : String} {n : Nat} :
    (relabel moves couples).get? key = some n ↔
      ∃ k, moves.getD k k = key ∧ couples.get? k = some n := by
  rw [relabel, relabelIn, id_eq, SortedMap.get?_ofList_eq_some_iff (nodup_relabelled hinj),
    List.mem_map]
  constructor
  · rintro ⟨⟨k, m⟩, hc, heq⟩
    obtain ⟨rfl, rfl⟩ := Prod.mk.inj heq
    exact ⟨k, rfl, SortedMap.get?_eq_some_iff.mpr hc⟩
  · rintro ⟨k, rfl, hk⟩
    exact ⟨(k, n), SortedMap.get?_eq_some_iff.mp hk, rfl⟩

/-- **The order of the table does not matter** where relabelling keeps the peers apart. No two peers
get one key, so no count can overwrite another. -/
theorem relabelIn_eq {order : List (String × Nat) → List (String × Nat)}
    (hperm : ∀ l, (order l).Perm l) {moves : SortedMap String String}
    {couples : SortedMap String Nat}
    (hinj : ∀ j k, j ∈ couples → k ∈ couples → moves.getD j j = moves.getD k k → j = k) :
    relabelIn order moves couples = relabel moves couples :=
  SortedMap.foldl_insert_perm ((hperm couples.toList).map _) (nodup_relabelled hinj) ∅

/-- Peers that do not move keep their keys. -/
theorem relabel_of_not_mem {moves : SortedMap String String} {couples : SortedMap String Nat}
    (h : ∀ k, k ∈ couples → k ∉ moves) : relabel moves couples = couples := by
  have hid : ∀ k, k ∈ couples → moves.getD k k = k := fun k hk => by
    rw [SortedMap.getD_eq, SortedMap.get?_eq_none_iff.mpr (h k hk), Option.getD_none]
  have hinj : ∀ j k, j ∈ couples → k ∈ couples → moves.getD j j = moves.getD k k → j = k := by
    intro j k hj hk heq
    rwa [hid j hj, hid k hk] at heq
  refine SortedMap.ext_get? fun key => Option.ext fun n => ?_
  rw [get?_relabel hinj]
  constructor
  · rintro ⟨k, rfl, hk⟩
    rwa [hid k (SortedMap.mem_of_get? hk)]
  · intro hk
    exact ⟨key, hid key (SortedMap.mem_of_get? hk), hk⟩

/-- Relabelling an entry changes its peers and nothing else. -/
theorem relabelEntry_eq (moves : SortedMap String String) (e : Entry) :
    relabelEntry moves e = { e with couples := relabel moves e.couples } := by
  unfold relabelEntry relabelEntryIn
  split
  · rfl
  · rename_i hany
    rw [relabel_of_not_mem fun k hk hm => hany ?_]
    exact List.any_eq_true.mpr ⟨k, SortedMap.mem_keys.mpr hk, hm⟩

/-! ## The steps of a rename

They are told for tables in any order. -/

section Steps

variable {o : TableOrder}

/-- The entries of the moved units, with their new keys. -/
def movedEntries (o : TableOrder) (source target : String) (r : Registry) : List (String × Entry) :=
  (r.unitsInOrder o source).map fun u =>
    (r.newKey source target u.1, { u.2 with unit := u.2.unit.relocated target })

/-- The entries after the moved ones were taken out and put back under their new keys. -/
def shifted (o : TableOrder) (source target : String) (r : Registry) : Entries :=
  (r.movedEntries o source target).foldl (fun m u => m.insert u.1 u.2)
    ((r.unitsInOrder o source).foldl (fun m u => m.erase u.1) r.entries)

/-- The new keys of the moved units and of their peers. -/
def affected (o : TableOrder) (source target : String) (r : Registry) : SortedSet String :=
  SortedSet.ofList <| (r.unitsInOrder o source).flatMap fun u =>
    r.newKey source target u.1 :: u.2.couples.keys.map (r.newKey source target)

/-- The keys of the new file after a rename. -/
def bucket (o : TableOrder) (source target : String) (r : Registry) : SortedSet String :=
  (r.movedEntries o source target).foldl (fun s u => SortedSet.insert u.1 s)
    ((r.files.erase source).getD target ∅)

/-- A rename of a file with known units, step by step. -/
theorem renameIn_of_some (o : TableOrder) (hne : source ≠ target) {keys : SortedSet String}
    (h : r.files.get? source = some keys) :
    r.renameIn o source target =
      ⟨(r.shifted o source target).mapValues fun key e =>
          if key ∈ r.affected o source target then
            relabelEntryIn (o.peers key) (r.moves source target) e
          else e,
        (r.files.erase source).insert target (r.bucket o source target)⟩ := by
  rw [renameIn, if_neg hne, h]
  rfl

/-- A renaming of a file without units does nothing. -/
theorem renameIn_of_none (o : TableOrder) (h : r.files.get? source = none) :
    r.renameIn o source target = r := by
  rw [renameIn]
  by_cases hne : source = target
  · rw [if_pos hne]
  · rw [if_neg hne, h]

theorem renameIn_self (o : TableOrder) (file : String) (r : Registry) :
    r.renameIn o file file = r := by
  rw [renameIn, if_pos rfl]

/-- A renaming of a file with units, part by part: the entries are shifted, peers are relabelled
where something moved, and the index has the new file instead of the old one. -/
theorem rename_of_some (hne : source ≠ target) {keys : SortedSet String}
    (h : r.files.get? source = some keys) :
    r.rename source target =
      ⟨(r.shifted .byKey source target).mapValues fun key e =>
          if key ∈ r.affected .byKey source target then
            relabelEntry (r.moves source target) e else e,
        (r.files.erase source).insert target (r.bucket .byKey source target)⟩ :=
  renameIn_of_some .byKey hne h

theorem rename_of_none (h : r.files.get? source = none) : r.rename source target = r :=
  renameIn_of_none .byKey h

theorem rename_self (file : String) (r : Registry) : r.rename file file = r :=
  renameIn_self .byKey file r

/-- A file without keys has no units that could move. -/
theorem not_mem_moves_of_none (h : r.files.get? source = none) (target key : String) :
    key ∉ r.moves source target := by
  intro hm
  obtain ⟨_, hf, _⟩ := FileIndex.lists_iff.mp (mem_moves.mp hm).1
  rw [h] at hf
  exact absurd hf (by simp)

theorem map_fst_movedEntries :
    (r.movedEntries o source target).map (·.1) =
      ((r.unitsInOrder o source).map (·.1)).map (r.newKey source target) := by
  rw [movedEntries, List.map_map, List.map_map]
  rfl

/-- The units that move are those of the moved keys, in any order. -/
theorem mem_map_fst_unitsInOrder (target : String) {key : String} :
    key ∈ (r.unitsInOrder o source).map (·.1) ↔ key ∈ r.moves source target := by
  rw [List.mem_map, mem_moves, SortedMap.mem_iff]
  constructor
  · rintro ⟨⟨k, e⟩, hu, rfl⟩
    exact ⟨(mem_unitsInOrder.mp hu).1, e, (mem_unitsInOrder.mp hu).2⟩
  · rintro ⟨hl, e, he⟩
    exact ⟨(key, e), mem_unitsInOrder.mpr ⟨hl, he⟩, rfl⟩

/-- The keys after the shift are the new keys of those that were there. -/
theorem mem_shifted {key : String} :
    key ∈ r.shifted o source target ↔ ∃ k, k ∈ r.entries ∧ r.newKey source target k = key := by
  rw [shifted, SortedMap.mem_foldl_insert, map_fst_movedEntries, List.mem_map,
    SortedMap.mem_iff_isSome, SortedMap.get?_foldl_erase]
  simp only [mem_map_fst_unitsInOrder target]
  constructor
  · rintro (⟨k, hk, rfl⟩ | h)
    · exact ⟨k, (mem_moves.mp hk).2, rfl⟩
    · -- what stays must not be one of the keys that were taken out
      by_cases hm : key ∈ r.moves source target
      · simp [hm] at h
      · rw [if_neg hm] at h
        exact ⟨key, h, newKey_of_not_mem hm⟩
  · rintro ⟨k, hk, rfl⟩
    by_cases hm : k ∈ r.moves source target
    · exact Or.inl ⟨k, hm, rfl⟩
    · rw [newKey_of_not_mem hm, if_neg hm]
      exact Or.inr hk

/-- The moved entries have different keys, if no two of the moved units get one. -/
theorem nodup_movedEntries
    (hinj : ∀ j k, j ∈ r.moves source target → k ∈ r.moves source target →
      r.newKey source target j = r.newKey source target k → j = k) :
    ((r.movedEntries o source target).map (·.1)).Nodup := by
  rw [map_fst_movedEntries]
  refine List.Nodup.map_on (fun j hj k hk heq => ?_) (nodup_unitsInOrder o source r)
  rw [mem_map_fst_unitsInOrder target] at hj hk
  exact hinj j k hj hk heq

/-- Moved entries that are put back under different keys are all still there. -/
theorem get?_shifted_of_mem
    (hinj : ∀ j k, j ∈ r.moves source target → k ∈ r.moves source target →
      r.newKey source target j = r.newKey source target k → j = k)
    {k : String} {e : Entry} (hm : k ∈ r.moves source target) (he : r.entries.get? k = some e) :
    (r.shifted o source target).get? (r.newKey source target k) =
      some { e with unit := e.unit.relocated target } := by
  -- the moved entries are put in one after the other, and none over another one
  have hmem : (r.newKey source target k, { e with unit := e.unit.relocated target }) ∈
      r.movedEntries o source target :=
    List.mem_map.mpr ⟨(k, e), mem_unitsInOrder.mpr ⟨(mem_moves.mp hm).1, he⟩, rfl⟩
  exact SortedMap.get?_foldl_insert_of_mem (nodup_movedEntries hinj) hmem _

/-- An entry that does not move is still there, unless a moved one comes to stand under its key. -/
theorem get?_shifted_of_not_mem {k : String} (hk : k ∉ r.moves source target)
    (hfree : ∀ j, j ∈ r.moves source target → r.newKey source target j ≠ k) :
    (r.shifted o source target).get? k = r.entries.get? k := by
  rw [shifted, SortedMap.get?_foldl_insert_of_not_mem, SortedMap.get?_foldl_erase,
    if_neg ((mem_map_fst_unitsInOrder target).not.mpr hk)]
  rw [map_fst_movedEntries, List.mem_map]
  rintro ⟨j, hj, heq⟩
  exact hfree j ((mem_map_fst_unitsInOrder target).mp hj) heq

/-- Entries that are put back under different keys are all still there. -/
theorem get?_shifted (hsep : r.Separates source target) {k : String} {e : Entry}
    (he : r.entries.get? k = some e) :
    (r.shifted o source target).get? (r.newKey source target k) =
      some { e with unit := r.newUnit source target k e.unit } := by
  rw [newUnit]
  by_cases hm : k ∈ r.moves source target
  · rw [if_pos hm]
    exact get?_shifted_of_mem
      (fun i j hi hj => hsep i j (mem_moves.mp hi).2 (mem_moves.mp hj).2) hm he
  · rw [if_neg hm, newKey_of_not_mem hm, get?_shifted_of_not_mem hm, he]
    -- a moved unit under this key would have been given the key of another one
    intro j hj heq
    have hjk : j = k := hsep j k (mem_moves.mp hj).2 (SortedMap.mem_of_get? he)
      (by rw [heq, newKey_of_not_mem hm])
    exact hm (hjk ▸ hj)

/-- An entry that lists a moved unit is found again: its key is affected. -/
theorem newKey_mem_affected (hrec : r.entries.Reciprocal) {j k : String} {n : Nat}
    (hj : j ∈ r.moves source target) (hn : r.entries.coupling k j = some n) :
    r.newKey source target k ∈ r.affected o source target := by
  obtain ⟨hl, hjr⟩ := mem_moves.mp hj
  obtain ⟨e, he⟩ := SortedMap.mem_iff.mp hjr
  obtain ⟨m, hm⟩ := (hrec k j (Entries.mem_of_coupling hn) hjr).mp ⟨n, hn⟩
  rw [Entries.coupling_of_get? he] at hm
  refine SortedSet.mem_ofList.mpr (List.mem_flatMap.mpr ⟨(j, e), mem_unitsInOrder.mpr ⟨hl, he⟩, ?_⟩)
  exact List.mem_cons_of_mem _
    (List.mem_map.mpr ⟨k, SortedMap.mem_keys.mpr (SortedMap.mem_of_get? hm), rfl⟩)

end Steps

/-! ## The registry after a rename -/

/-- **The keys after a rename are the new keys of the old ones.** Those that do not move keep their
keys, and where two keys become one, it is there once. -/
theorem mem_entries_rename (hne : source ≠ target) {key : String} :
    key ∈ (r.rename source target).entries ↔
      ∃ k, k ∈ r.entries ∧ r.newKey source target k = key := by
  cases h : r.files.get? source with
  | none =>
    rw [rename_of_none h]
    have hid : ∀ k, r.newKey source target k = k := fun k =>
      newKey_of_not_mem (not_mem_moves_of_none h target k)
    simp only [hid, exists_eq_right]
  | some keys => rw [rename_of_some hne h, SortedMap.mem_mapValues, mem_shifted]

/-- **Under the new key of an entry stands the entry, carried over.** No other entry gets this key,
so it is not overwritten, and its peers are relabelled as the entries are. -/
theorem get?_rename_newKey (hne : source ≠ target) (hsep : r.Separates source target)
    (hrec : r.entries.Reciprocal) {k : String} {e : Entry} (he : r.entries.get? k = some e) :
    (r.rename source target).entries.get? (r.newKey source target k) =
      some (r.carried source target k e) := by
  -- an entry that is not visited lists no moved unit, so relabelling would not change it
  have hrelabel : r.newKey source target k ∉ r.affected .byKey source target →
      relabel (r.moves source target) e.couples = e.couples := by
    intro hna
    refine relabel_of_not_mem fun j hj hm => hna ?_
    obtain ⟨n, hn⟩ := SortedMap.mem_iff.mp hj
    exact newKey_mem_affected hrec hm (by rw [Entries.coupling_of_get? he, hn])
  cases h : r.files.get? source with
  | none =>
    have hm := fun k => not_mem_moves_of_none h target k
    rw [rename_of_none h, newKey_of_not_mem (hm k), carried, newUnit, if_neg (hm k),
      relabel_of_not_mem fun j _ => hm j]
    exact he
  | some keys =>
    rw [rename_of_some hne h, SortedMap.get?_mapValues, get?_shifted hsep he, Option.map_some]
    by_cases ha : r.newKey source target k ∈ r.affected .byKey source target
    · rw [if_pos ha, relabelEntry_eq]
      rfl
    · rw [if_neg ha, carried, hrelabel ha]

/-- Every entry after a rename is one from before, carried over. -/
theorem get?_rename_iff (hne : source ≠ target) (hsep : r.Separates source target)
    (hrec : r.entries.Reciprocal) {key : String} {e' : Entry} :
    (r.rename source target).entries.get? key = some e' ↔
      ∃ k e, r.entries.get? k = some e ∧ r.newKey source target k = key ∧
        r.carried source target k e = e' := by
  constructor
  · intro h
    obtain ⟨k, hk, rfl⟩ := (mem_entries_rename hne).mp (SortedMap.mem_of_get? h)
    obtain ⟨e, he⟩ := SortedMap.mem_iff.mp hk
    rw [get?_rename_newKey hne hsep hrec he] at h
    exact ⟨k, e, he, rfl, Option.some.inj h⟩
  · rintro ⟨k, e, he, rfl, rfl⟩
    exact get?_rename_newKey hne hsep hrec he

/-- **Couplings follow their units.** Since no two keys become one, the two units of a coupling are
told by their new keys. -/
theorem coupling_rename (hne : source ≠ target) (hsep : r.Separates source target)
    (hsym : r.entries.Symmetric) (hclosed : r.entries.Closed) {j' k' : String} {n : Nat} :
    (r.rename source target).entries.coupling j' k' = some n ↔
      ∃ j k, r.newKey source target j = j' ∧ r.newKey source target k = k' ∧
        r.entries.coupling j k = some n := by
  -- the peers of an entry are there, so relabelling keeps them apart
  have hcarried {j : String} {e : Entry} (he : r.entries.get? j = some e) :
      (r.carried source target j e).couples.get? k' = some n ↔
        ∃ k, r.newKey source target k = k' ∧ r.entries.coupling j k = some n := by
    have hpeer : ∀ k, k ∈ e.couples → k ∈ r.entries := fun k hk => by
      obtain ⟨m, hm⟩ := SortedMap.mem_iff.mp hk
      exact hclosed j k m (by rw [Entries.coupling_of_get? he, hm])
    rw [carried, get?_relabel fun i k hi hk => hsep i k (hpeer i hi) (hpeer k hk)]
    simp only [Entries.coupling_of_get? he]
    rfl
  constructor
  · intro h
    obtain ⟨e', he'⟩ := SortedMap.mem_iff.mp (Entries.mem_of_coupling h)
    rw [Entries.coupling_of_get? he'] at h
    obtain ⟨j, e, he, hj, rfl⟩ := (get?_rename_iff hne hsep hsym.reciprocal).mp he'
    obtain ⟨k, hk, hn⟩ := (hcarried he).mp h
    exact ⟨j, k, hj, hk, hn⟩
  · rintro ⟨j, k, rfl, rfl, hn⟩
    obtain ⟨e, he⟩ := SortedMap.mem_iff.mp (Entries.mem_of_coupling hn)
    rw [Entries.coupling_of_get? (get?_rename_newKey hne hsep hsym.reciprocal he)]
    exact (hcarried he).mpr ⟨k, rfl, hn⟩

/-- Two units keep their number for each other. -/
theorem coupling_rename_newKey (hne : source ≠ target) (hsep : r.Separates source target)
    (hsym : r.entries.Symmetric) (hclosed : r.entries.Closed) {j k : String} (hj : j ∈ r.entries)
    (hk : k ∈ r.entries) :
    (r.rename source target).entries.coupling
      (r.newKey source target j) (r.newKey source target k) =
      r.entries.coupling j k := by
  refine Option.ext fun n => ?_
  rw [coupling_rename hne hsep hsym hclosed]
  constructor
  · rintro ⟨j', k', hj', hk', hn⟩
    rw [← hsep j' j (Entries.mem_of_coupling hn) hj hj', ← hsep k' k (hclosed j' k' n hn) hk hk']
    exact hn
  · exact fun hn => ⟨j, k, rfl, rfl, hn⟩

/-- **The index after a rename**: what stood under the old file stands, under its new key, under the
new one. -/
theorem lists_rename (hne : source ≠ target) {file key : String} :
    (r.rename source target).files.Lists file key ↔
      (file = target ∧ ∃ k, k ∈ r.moves source target ∧ r.newKey source target k = key) ∨
        (file ≠ source ∧ r.files.Lists file key) := by
  cases h : r.files.get? source with
  | none =>
    rw [rename_of_none h]
    constructor
    · intro hl
      refine Or.inr ⟨fun hf => ?_, hl⟩
      obtain ⟨_, hs, _⟩ := FileIndex.lists_iff.mp hl
      rw [hf, h] at hs
      exact absurd hs (by simp)
    · rintro (⟨_, k, hk, _⟩ | ⟨_, hl⟩)
      · exact absurd hk (not_mem_moves_of_none h target k)
      · exact hl
  | some keys =>
    rw [rename_of_some hne h, FileIndex.lists_insert]
    by_cases hf : file = target
    · subst hf
      -- under the new path stand the moved units and those that were there
      have hbucket : key ∈ r.bucket .byKey source file ↔
          (∃ k, k ∈ r.moves source file ∧ r.newKey source file k = key) ∨
            r.files.Lists file key := by
        rw [bucket, SortedSet.mem_foldl_insert, map_fst_movedEntries, List.mem_map]
        simp only [mem_map_fst_unitsInOrder file]
        refine or_congr Iff.rfl ?_
        rw [SortedMap.getD_eq, SortedMap.get?_erase, if_neg (Ne.symm hne)]
        rfl
      rw [if_pos rfl, hbucket]
      exact ⟨fun h => h.imp (fun h => ⟨rfl, h⟩) fun h => ⟨Ne.symm hne, h⟩,
        fun h => h.imp (fun h => h.2) fun h => h.2⟩
    · rw [if_neg hf, FileIndex.lists_erase, or_iff_right fun h => hf h.1]

/-! ## Units and counts after a rename

The unit and the count under a key move with it, also where couplings are not symmetric: which
entries are visited matters for their peers only. -/

/-- Relabelling peers changes neither units nor counts. -/
theorem tally_rename (hne : source ≠ target) {keys : SortedSet String}
    (h : r.files.get? source = some keys) (key : String) :
    (r.rename source target).tally key =
      ((r.shifted .byKey source target).get? key).map fun e => (e.unit, e.count) := by
  rw [tally, rename_of_some hne h, SortedMap.get?_mapValues, Option.map_map]
  refine congrArg (Option.map · ((r.shifted .byKey source target).get? key)) (funext fun e => ?_)
  by_cases ha : key ∈ r.affected .byKey source target
  · simp only [Function.comp_apply, if_pos ha, relabelEntry_eq]
  · simp only [Function.comp_apply, if_neg ha]

/-- A moved unit keeps its count, if no two of those that move get one key. -/
theorem tally_rename_of_mem (hne : source ≠ target)
    (hinj : ∀ j k, j ∈ r.moves source target → k ∈ r.moves source target →
      r.newKey source target j = r.newKey source target k → j = k)
    {k : String} {e : Entry} (hm : k ∈ r.moves source target) (he : r.entries.get? k = some e) :
    (r.rename source target).tally (r.newKey source target k) =
      some (e.unit.relocated target, e.count) := by
  obtain ⟨keys, hkeys, -⟩ := FileIndex.lists_iff.mp (mem_moves.mp hm).1
  rw [tally_rename hne hkeys, get?_shifted_of_mem hinj hm he, Option.map_some]

/-- A key that does not move, and that no other key moves to, keeps its unit and its count. -/
theorem tally_rename_of_not_mem {k : String} (hk : k ∉ r.moves source target)
    (hfree : ∀ j, j ∈ r.moves source target → r.newKey source target j ≠ k) :
    (r.rename source target).tally k = r.tally k := by
  by_cases hne : source = target
  · rw [hne, rename_self]
  · cases h : r.files.get? source with
    | none => rw [rename_of_none h]
    | some keys => rw [tally_rename hne h, get?_shifted_of_not_mem hk hfree, tally]

/-- **What stands after a rename**: the moved units under their new keys, and what was there before
under the keys that no unit has left or come to. -/
theorem tally_rename_eq_some_iff (hne : source ≠ target) (hover : r.Overlays source target)
    {key : String} {u : CodeUnit} {n : Nat} :
    (r.rename source target).tally key = some (u, n) ↔
      (∃ k e, k ∈ r.moves source target ∧ r.entries.get? k = some e ∧
        r.newKey source target k = key ∧ e.unit.relocated target = u ∧ e.count = n) ∨
      (key ∉ r.moves source target ∧
        (∀ k, k ∈ r.moves source target → r.newKey source target k ≠ key) ∧
        r.tally key = some (u, n)) := by
  by_cases hhit : ∃ k, k ∈ r.moves source target ∧ r.newKey source target k = key
  · obtain ⟨k, hm, rfl⟩ := hhit
    obtain ⟨e, he⟩ := SortedMap.mem_iff.mp (mem_moves.mp hm).2
    rw [tally_rename_of_mem hne hover.inj hm he, Option.some.injEq, Prod.mk.injEq]
    constructor
    · rintro ⟨hu, hn⟩
      exact Or.inl ⟨k, e, hm, he, rfl, hu, hn⟩
    · rintro (⟨k', e', hm', he', heq, hu, hn⟩ | ⟨_, hfree, _⟩)
      · obtain rfl := hover.inj k' k hm' hm heq
        rw [he, Option.some.injEq] at he'
        rw [he']
        exact ⟨hu, hn⟩
      · exact absurd rfl (hfree k hm)
  · have hfree : ∀ k, k ∈ r.moves source target → r.newKey source target k ≠ key :=
      fun k hk heq => hhit ⟨k, hk, heq⟩
    rw [or_iff_right fun ⟨k, _, hm, _, heq, _⟩ => hfree k hm heq]
    by_cases hm : key ∈ r.moves source target
    · -- nothing is left under the old key
      have hgone : key ∉ (r.rename source target).entries := by
        rw [mem_entries_rename hne]
        rintro ⟨k, _, heq⟩
        by_cases hk : k ∈ r.moves source target
        · exact hfree k hk heq
        · rw [newKey_of_not_mem hk] at heq
          exact hk (heq ▸ hm)
      rw [tally, SortedMap.get?_eq_none_iff.mpr hgone]
      simp [hm]
    · rw [tally_rename_of_not_mem hm hfree]
      exact ⟨fun h => ⟨hm, hfree, h⟩, fun h => h.2.2⟩

/-- A rename keeps the index right, also where moved units take the place of others in the new
file. -/
theorem Indexed.rename (h : r.Indexed) (hne : source ≠ target) (hover : r.Overlays source target) :
    (r.rename source target).Indexed := by
  rw [indexed_iff_tally]
  intro file key
  rw [lists_rename hne]
  constructor
  · rintro (⟨rfl, k, hm, rfl⟩ | ⟨hf, hl⟩)
    · obtain ⟨e, he⟩ := SortedMap.mem_iff.mp (mem_moves.mp hm).2
      exact ⟨_, _, tally_rename_of_mem hne hover.inj hm he, rfl⟩
    · obtain ⟨e, he, hef⟩ := (h file key).mp hl
      -- the key is listed under one file only, so it does not move
      have hm : key ∉ r.moves source target := fun hm => by
        obtain ⟨e', he', hes⟩ := (h source key).mp (mem_moves.mp hm).1
        rw [he] at he'
        exact hf (by rw [← hef, Option.some.inj he', hes])
      by_cases hhit : ∃ k, k ∈ r.moves source target ∧ r.newKey source target k = key
      · obtain ⟨k, hk, heq⟩ := hhit
        obtain ⟨d, hd⟩ := SortedMap.mem_iff.mp (mem_moves.mp hk).2
        have hfile : e.unit.file = target := hover.target k key e hk hm heq he
        refine ⟨_, _, heq ▸ tally_rename_of_mem hne hover.inj hk hd, ?_⟩
        rw [CodeUnit.relocated_file, ← hfile, hef]
      · refine ⟨e.unit, e.count, ?_, hef⟩
        rw [tally_rename_of_not_mem hm fun k hk heq => hhit ⟨k, hk, heq⟩, tally_of_get? he]
  · rintro ⟨u, n, ht, hf⟩
    rcases (tally_rename_eq_some_iff hne hover).mp ht with
      ⟨k, e, hm, _, heq, rfl, _⟩ | ⟨hm, _, hold⟩
    · exact Or.inl ⟨hf.symm, k, hm, heq⟩
    · obtain ⟨e, he, rfl, _⟩ := tally_eq_some_iff.mp hold
      have hl : r.files.Lists file key := (h file key).mpr ⟨e, he, hf⟩
      -- an entry that does not move is of another file than the old one
      exact Or.inr ⟨fun hs => hm (mem_moves.mpr ⟨hs ▸ hl, SortedMap.mem_of_get? he⟩), hl⟩

/-- A rename of a file with units leaves no file without keys: the new one gets theirs. -/
theorem populated_rename (h : r.files.Populated) (hidx : r.Indexed) :
    (r.rename source target).files.Populated := by
  by_cases hne : source = target
  · rw [hne, rename_self]
    exact h
  cases hfile : r.files.get? source with
  | none =>
    rw [rename_of_none hfile]
    exact h
  | some keys =>
    intro file keys' hk
    rw [rename_of_some hne hfile, SortedMap.get?_insert] at hk
    by_cases hf : file = target
    · rw [if_pos hf] at hk
      -- some key stood under the old file, and its unit has moved
      obtain ⟨key, hkey⟩ := h source keys hfile
      have hl : r.files.Lists source key := FileIndex.lists_iff.mpr ⟨keys, hfile, hkey⟩
      obtain ⟨e, he, _⟩ := (hidx source key).mp hl
      have hm : key ∈ r.moves source target := mem_moves.mpr ⟨hl, SortedMap.mem_of_get? he⟩
      refine ⟨r.newKey source target key, Option.some.inj hk ▸ SortedSet.mem_foldl_insert.mpr ?_⟩
      rw [map_fst_movedEntries]
      exact Or.inl (List.mem_map_of_mem ((mem_map_fst_unitsInOrder target).mpr hm))
    · rw [if_neg hf, SortedMap.get?_erase] at hk
      by_cases hs : file = source
      · rw [if_pos hs] at hk
        exact absurd hk (by simp)
      · rw [if_neg hs] at hk
        exact h file keys' hk

end Registry

/-! ## The laws after a rename -/

namespace Entries

open Registry

variable {source target : String} {r : Registry}

/-- All peers are there after a renaming, if they were before: they are relabelled as their entries
are. -/
theorem Closed.rename (hclosed : r.entries.Closed) (hne : source ≠ target)
    (hsep : r.Separates source target) (hsym : r.entries.Symmetric) :
    (r.rename source target).entries.Closed := by
  intro j' k' n hn
  obtain ⟨j, k, _, hk, hjk⟩ := (coupling_rename hne hsep hsym hclosed).mp hn
  exact (mem_entries_rename hne).mpr ⟨k, hclosed j k n hjk, hk⟩

/-- Couplings stay symmetric when a file is renamed, if no two keys become one. -/
theorem Symmetric.rename (hsym : r.entries.Symmetric) (hne : source ≠ target)
    (hsep : r.Separates source target) (hclosed : r.entries.Closed) :
    (r.rename source target).entries.Symmetric := by
  -- one direction suffices: both sides of a pair are there
  have half : ∀ j' k' n, (r.rename source target).entries.coupling j' k' = some n →
      (r.rename source target).entries.coupling k' j' = some n := by
    intro j' k' n hn
    obtain ⟨j, k, hj, hk, hn⟩ := (coupling_rename hne hsep hsym hclosed).mp hn
    rw [hsym j k (mem_of_coupling hn) (hclosed j k n hn)] at hn
    exact (coupling_rename hne hsep hsym hclosed).mpr ⟨k, j, hk, hj, hn⟩
  exact fun j' k' _ _ => Option.ext fun n => ⟨half j' k' n, half k' j' n⟩

/-- No unit is its own peer after a renaming, if no two keys become one: a peer would have to be
relabelled to the key of its entry. -/
theorem Irreflexive.rename (hirr : r.entries.Irreflexive) (hne : source ≠ target)
    (hsep : r.Separates source target) (hsym : r.entries.Symmetric) (hclosed : r.entries.Closed) :
    (r.rename source target).entries.Irreflexive := by
  intro k'
  refine Option.eq_none_iff_forall_ne_some.mpr fun n hn => ?_
  obtain ⟨j, k, hj, hk, hn⟩ := (coupling_rename hne hsep hsym hclosed).mp hn
  have hjk : j = k := hsep j k (mem_of_coupling hn) (hclosed j k n hn) (hj.trans hk.symm)
  rw [hjk, hirr k] at hn
  exact absurd hn (by simp)

theorem Coherent.rename (h : r.entries.Coherent) (hne : source ≠ target)
    (hsep : r.Separates source target) : (r.rename source target).entries.Coherent :=
  ⟨h.symmetric.rename hne hsep h.closed, h.closed.rename hne hsep h.symmetric,
    h.irreflexive.rename hne hsep h.symmetric h.closed⟩

end Entries

end CoChange
