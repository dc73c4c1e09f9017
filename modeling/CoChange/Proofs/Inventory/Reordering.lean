import CoChange.Proofs.Inventory.Basic
import CoChange.Proofs.Registry.Identity
import CoChange.Proofs.Registry.Relabelling

/-!
# The order of the changes of a commit

A registry *follows* an inventory as long as keys tell apart the units that a commit deals with
(`Registry.Pass.Follows`), and then the inventory determines it.

* **`Follows.touch`**, **`Follows.rename`**: behind an event the registry follows what the event
  makes of the inventory, if the new path of a rename is free.
* **`Follows.foldl`**: so it does behind the events of a commit that names no path twice.
* **`Follows.unique`**: two registries that follow one inventory are the same.
* **`consume_perm`**: so a commit can bring its changes in any order.
-/

namespace CoChange

/-- The units of a registry. -/
def Registry.units (r : Registry) : List CodeUnit := r.entries.values.map (·.unit)

/-- The units that a commit deals with: those of the registry, those that it touches, and those of
renamed files in their new places. -/
def Commit.involved (q : UnitQuery) (r : Registry) (c : Commit) : List CodeUnit :=
  r.units ++ c.changes.flatMap (·.units q) ++
    (c.changes.filter (·.isRename)).flatMap fun ch =>
      (r.units.filter (·.file = ch.source)).map (·.relocated ch.target)

namespace Registry

/-! ## Registries that follow an inventory -/

/-- The registry in the middle of a commit says what the inventory says. All units of the inventory
are among the given ones. -/
structure Pass.Follows (units : List CodeUnit) (p : Pass) (I : Inventory) : Prop where
  tally : ∀ k u n, p.registry.tally k = some (u, n) ↔ u.key = k ∧ I.count u = some n
  coupling : ∀ j k n, p.registry.entries.coupling j k = some n ↔
    ∃ u v, u.key = j ∧ v.key = k ∧ I.coupling u v = some n
  counted : ∀ u v n, I.coupling u v = some n → (I.count u).isSome = true ∧ (I.count v).isSome = true
  filed : ∀ file, file ∈ p.registry.files ↔ I.filed file
  touched : ∀ k, k ∈ p.touched ↔ ∃ u ∈ I.touched, u.key = k
  indexed : p.registry.Indexed
  paired : p.registry.entries.Mutual
  among : ∀ u n, I.count u = some n → u ∈ units
  touchedAmong : ∀ u ∈ I.touched, u ∈ units

/-- After a renaming the new file is known if the old one was, the old one is not, and all others
are as before. -/
theorem mem_files_rename {source target : String} (hne : source ≠ target) {r : Registry}
    {file : String} :
    file ∈ (r.rename source target).files ↔
    (file = target ∧ source ∈ r.files) ∨ (file ≠ source ∧ file ∈ r.files) := by
  cases h : r.files.get? source with
  | none =>
    rw [rename_of_none h, or_iff_right fun hs => SortedMap.get?_eq_none_iff.mp h hs.2,
      and_iff_right_of_imp]
    exact fun hf heq => SortedMap.get?_eq_none_iff.mp h (heq ▸ hf)
  | some keys =>
    rw [rename_of_some hne h, SortedMap.mem_insert, SortedMap.mem_erase,
      and_iff_left (SortedMap.mem_of_get? h)]

/-- A touch adds the file of its unit to the known ones, if the unit had no entry. -/
theorem Pass.mem_files_touch {u : CodeUnit} {p : Pass} {file : String} :
    file ∈ (p.touch u).registry.files ↔
      (u.key ∉ p.registry.entries ∧ file = u.file) ∨ file ∈ p.registry.files := by
  rw [files_touch]
  by_cases hu : u.key ∈ p.registry.entries
  · rw [if_pos hu, or_iff_right fun h => h.1 hu]
  · rw [if_neg hu, and_iff_right hu, FileIndex.add, SortedMap.mem_insert]

namespace Pass.Follows

variable {units : List CodeUnit} {p p' : Pass} {I : Inventory} {u : CodeUnit}
    {source target : String}

/-- **The inventory determines the registry.** Each count and coupling stands under keys that the
inventory tells, and a registry is what is read under its keys. -/
theorem unique (h : p.Follows units I) (h' : p'.Follows units I) : p = p' := by
  have htally (k : String) : p.registry.tally k = p'.registry.tally k := by
    refine Option.ext fun t => ?_
    obtain ⟨u, n⟩ := t
    rw [h.tally, h'.tally]
  have hcoupling (j k : String) : p.registry.entries.coupling j k =
      p'.registry.entries.coupling j k :=
    Option.ext fun n => (h.coupling j k n).trans (h'.coupling j k n).symm
  have hentries : p.registry.entries = p'.registry.entries := entries_ext htally hcoupling
  -- the index lists a unit under its file exactly if the tally has it
  have hfiles : p.registry.files = p'.registry.files :=
    FileIndex.ext_mem (fun file => (h.filed file).trans (h'.filed file).symm) fun file key => by
      rw [indexed_iff_tally.mp h.indexed, indexed_iff_tally.mp h'.indexed, htally]
  have htouched : p.touched = p'.touched :=
    SortedSet.ext_mem fun k => (h.touched k).trans (h'.touched k).symm
  obtain ⟨⟨entries, files⟩, touched⟩ := p
  obtain ⟨⟨entries', files'⟩, touched'⟩ := p'
  obtain rfl : entries = entries' := hentries
  obtain rfl : files = files' := hfiles
  obtain rfl : touched = touched' := htouched
  rfl

/-- An entry is of a unit that the inventory counts, and stands under its key. -/
theorem entry (h : p.Follows units I) {k : String} {e : Entry}
    (he : p.registry.entries.get? k = some e) :
    e.unit.key = k ∧ I.count e.unit = some e.count :=
  (h.tally k e.unit e.count).mp (tally_of_get? he)

/-- Under the key of one of the given units stands that unit. -/
theorem tally_key (h : p.Follows units I) (hapart : CodeUnit.KeysApart units) (hu : u ∈ units) :
    p.registry.tally u.key = (I.count u).map fun n => (u, n) := by
  refine Option.ext fun t => ?_
  obtain ⟨v, n⟩ := t
  rw [h.tally, Option.map_eq_some_iff]
  constructor
  · rintro ⟨hkey, hn⟩
    obtain rfl := hapart v (h.among v n hn) u hu hkey
    exact ⟨n, hn, rfl⟩
  · rintro ⟨m, hm, heq⟩
    obtain ⟨rfl, rfl⟩ := Prod.mk.inj heq
    exact ⟨rfl, hm⟩

/-- Keys that are touched are those of the touched units, as long as units are told apart by
keys. -/
theorem mem_touched_key (h : p.Follows units I) (hapart : CodeUnit.KeysApart units)
    (hu : u ∈ units) :
    u.key ∈ p.touched ↔ u ∈ I.touched := by
  rw [h.touched]
  constructor
  · rintro ⟨v, hv, hkey⟩
    rwa [← hapart v (h.touchedAmong v hv) u hu hkey]
  · exact fun hmem => ⟨u, hmem, rfl⟩

/-- A unit has no entry under its key if it is not there. -/
theorem key_not_mem_iff (h : p.Follows units I) (hapart : CodeUnit.KeysApart units)
    (hu : u ∈ units) :
    u.key ∉ p.registry.entries ↔ I.count u = none := by
  have htally := h.tally_key hapart hu
  rw [Registry.tally] at htally
  rw [← SortedMap.get?_eq_none_iff, ← Option.map_eq_none_iff, htally, Option.map_eq_none_iff]

/-! ## Touches -/

/-- After a touch the entry under the key of the unit is of this unit, with its count raised. -/
theorem tally_touch_key (h : p.Follows units I) (hapart : CodeUnit.KeysApart units)
    (hu : u ∈ units) :
    (p.touch u).registry.tally u.key = some (u, I.raised u) := by
  rw [tally_touch, if_pos rfl, h.tally_key hapart hu, Inventory.raised]
  cases I.count u with
  | none => rfl
  | some n => simp only [Option.map_some, h.mem_touched_key hapart hu]

/-- **Behind a touch the registry follows the touched inventory.** The key of the unit is that of no
other one, so just its own entry is raised or added. -/
theorem touch (h : p.Follows units I) (hapart : CodeUnit.KeysApart units) (hu : u ∈ units) :
    (p.touch u).Follows units (I.touch u) where
  tally k v n := by
    by_cases hk : k = u.key
    · rw [hk, h.tally_touch_key hapart hu, Option.some.injEq, Prod.mk.injEq]
      constructor
      · rintro ⟨rfl, rfl⟩
        exact ⟨rfl, Inventory.count_touch_self⟩
      · rintro ⟨hkey, hn⟩
        -- another unit would be among the given ones, which their keys tell apart
        obtain rfl : v = u := by
          by_contra hne
          rw [Inventory.count_touch_of_ne hne] at hn
          exact hne (hapart v (h.among v n hn) u hu hkey)
        exact ⟨rfl, Option.some.inj (Inventory.count_touch_self.symm.trans hn)⟩
    · rw [tally_touch, if_neg hk, h.tally]
      refine and_congr_right fun hkey => ?_
      have hvu : v ≠ u := fun heq => hk (by rw [← hkey, heq])
      rw [Inventory.count_touch_of_ne hvu]
  coupling j k n := by
    rw [coupling_touch]
    exact h.coupling j k n
  counted v w n hn := by
    obtain ⟨hv, hw⟩ := h.counted v w n hn
    exact ⟨Inventory.isSome_count_touch hv, Inventory.isSome_count_touch hw⟩
  filed file := by
    rw [mem_files_touch, h.key_not_mem_iff hapart hu, h.filed]
    rfl
  touched k := by
    rw [mem_touched_touch, h.touched]
    simp only [Inventory.touch, Finset.exists_mem_insert, eq_comm]
  indexed := h.indexed.touch u
  paired := mutual_touch h.paired u
  among v n hn := by
    by_cases hv : v = u
    · rwa [hv]
    · rw [Inventory.count_touch_of_ne hv] at hn
      exact h.among v n hn
  touchedAmong v hv := by
    rcases Finset.mem_insert.mp hv with rfl | hv
    · exact hu
    · exact h.touchedAmong v hv

/-! ## Renames -/

section Rename

variable (h : p.Follows units I)

include h

/-- A unit that moves goes to the other one of the two paths, and all other units stay. -/
theorem newUnit_eq (hfree : I.Free target) {k : String} {e : Entry}
    (he : p.registry.entries.get? k = some e) :
    p.registry.newUnit source target k e.unit = e.unit.exchanged source target := by
  rw [newUnit_eq_relocatedFrom h.indexed he, relocatedFrom]
  by_cases hsource : e.unit.file = source
  · rw [if_pos hsource, CodeUnit.exchanged_of_source hsource]
  · rw [if_neg hsource, CodeUnit.exchanged_of_ne hsource (hfree.ne (h.entry he).2)]

theorem newKey_eq (hfree : I.Free target) {n : Nat} (hn : I.count u = some n) :
    p.registry.newKey source target u.key = (u.exchanged source target).key := by
  obtain ⟨e, he, rfl, -⟩ := tally_eq_some_iff.mp ((h.tally u.key u n).mpr ⟨rfl, hn⟩)
  rw [newKey_eq_key he rfl, h.newUnit_eq hfree he]

/-- A renaming onto a path without units gives no two keys one key, if the units where they go are
among those that keys tell apart. -/
theorem separates (hapart : CodeUnit.KeysApart units) (hfree : I.Free target)
    (hmoved : ∀ v n, v.file = source → I.count v = some n → v.relocated target ∈ units) :
    p.registry.Separates source target := by
  refine separates_of_untracked h.indexed
    (fun k e he => (h.entry he).1) (fun k e he => hfree.ne (h.entry he).2)
    fun j k d e hd hs he heq => ?_
  exact hapart _ (hmoved d.unit d.count hs (h.entry hd).2)
    _ (h.among e.unit e.count (h.entry he).2) heq

/-- After a renaming a unit has the count that the unit in its place had before. -/
theorem tally_rename_iff (hne : source ≠ target) (hsep : p.registry.Separates source target)
    (hfree : I.Free target) {k : String} {n : Nat} :
    (p.registry.rename source target).tally k = some (u, n) ↔
      u.key = k ∧ I.count (u.exchanged source target) = some n := by
  have hrec := h.paired.symmetric.reciprocal
  rw [tally_eq_some_iff]
  constructor
  · -- an entry behind the rename is one from before, carried over
    rintro ⟨e', he', rfl, rfl⟩
    obtain ⟨k, e, he, rfl, rfl⟩ := (get?_rename_iff hne hsep hrec).mp he'
    show (p.registry.newUnit source target k e.unit).key = _ ∧
      I.count ((p.registry.newUnit source target k e.unit).exchanged source target) = some e.count
    rw [newKey_eq_key he (h.entry he).1, h.newUnit_eq hfree he, CodeUnit.exchanged_exchanged]
    exact ⟨rfl, (h.entry he).2⟩
  · rintro ⟨rfl, hn⟩
    obtain ⟨e, he, hunit, hcount⟩ := tally_eq_some_iff.mp ((h.tally _ _ n).mpr ⟨rfl, hn⟩)
    have hnew := get?_rename_newKey hne hsep hrec he
    rw [h.newKey_eq hfree hn, CodeUnit.exchanged_exchanged] at hnew
    refine ⟨_, hnew, ?_, hcount⟩
    show p.registry.newUnit source target _ e.unit = u
    rw [h.newUnit_eq hfree he, hunit, CodeUnit.exchanged_exchanged]

/-- After a renaming two units have the coupling that the units in their places had before. -/
theorem coupling_rename_iff (hne : source ≠ target) (hsep : p.registry.Separates source target)
    (hfree : I.Free target) {j k : String} {n : Nat} :
    (p.registry.rename source target).entries.coupling j k = some n ↔
      ∃ u v : CodeUnit, u.key = j ∧ v.key = k ∧
        I.coupling (u.exchanged source target) (v.exchanged source target) = some n := by
  -- only units that are counted have peers, and of these the new keys are known
  have hkeys {u v : CodeUnit} (hn : I.coupling u v = some n) :
      p.registry.newKey source target u.key = (u.exchanged source target).key ∧
        p.registry.newKey source target v.key = (v.exchanged source target).key := by
    obtain ⟨hu, hv⟩ := h.counted u v n hn
    obtain ⟨m, hm⟩ := Option.isSome_iff_exists.mp hu
    obtain ⟨l, hl⟩ := Option.isSome_iff_exists.mp hv
    exact ⟨h.newKey_eq hfree hm, h.newKey_eq hfree hl⟩
  rw [coupling_rename hne hsep h.paired.symmetric h.paired.closed]
  constructor
  · rintro ⟨j, k, rfl, rfl, hn⟩
    obtain ⟨u, v, rfl, rfl, hold⟩ := (h.coupling j k n).mp hn
    refine ⟨u.exchanged source target,
      v.exchanged source target, (hkeys hold).1.symm, (hkeys hold).2.symm, ?_⟩
    rw [CodeUnit.exchanged_exchanged, CodeUnit.exchanged_exchanged, hold]
  · rintro ⟨u, v, rfl, rfl, hn⟩
    refine ⟨_, _, ?_, ?_, (h.coupling _ _ n).mpr ⟨_, _, rfl, rfl, hn⟩⟩
    · rw [(hkeys hn).1, CodeUnit.exchanged_exchanged]
    · rw [(hkeys hn).2, CodeUnit.exchanged_exchanged]

/-- A unit that is there behind a rename stood under the other one of the two paths before, or where
it is. -/
theorem among_rename (hfree : I.Free target)
    (hmoved : ∀ v n, v.file = source → I.count v = some n → v.relocated target ∈ units) {n : Nat}
    (hn : I.count (u.exchanged source target) = some n) : u ∈ units := by
  have hback : u = (u.exchanged source target).exchanged source target :=
    CodeUnit.exchanged_exchanged.symm
  by_cases hsource : (u.exchanged source target).file = source
  · rw [hback, CodeUnit.exchanged_of_source hsource]
    exact hmoved _ n hsource hn
  · rw [hback, CodeUnit.exchanged_of_ne hsource (hfree.ne hn)]
    exact h.among _ n hn

/-- **Behind a rename the registry follows the renamed inventory**, if the new path is free. Units
are exchanged between the two files. As the new path is free, nothing is lost at it. -/
theorem rename (hapart : CodeUnit.KeysApart units) (hne : source ≠ target)
    (hfree : I.Free target)
    (hmoved : ∀ v n, v.file = source → I.count v = some n → v.relocated target ∈ units) :
    (p.apply (.rename source target)).Follows units (I.rename source target) :=
  have hsep := h.separates hapart hfree hmoved
  { tally := fun _ _ _ => h.tally_rename_iff hne hsep hfree
    coupling := fun _ _ _ => h.coupling_rename_iff hne hsep hfree
    counted := fun _ _ n hn => h.counted _ _ n hn
    filed := fun file => by
      show file ∈ (p.registry.rename source target).files ↔
        (file = target ∧ I.filed source) ∨ (file ≠ source ∧ I.filed file)
      rw [mem_files_rename hne, h.filed, h.filed]
    touched := h.touched
    indexed := h.indexed.rename hne hsep.overlays
    paired := ⟨h.paired.symmetric.rename hne hsep h.paired.closed,
      h.paired.closed.rename hne hsep h.paired.symmetric⟩
    among := fun _ _ hn => h.among_rename hfree hmoved hn
    touchedAmong := h.touchedAmong }

end Rename

/-! ## Events -/

/-- **Behind an event the registry follows what the event makes of the inventory.** What an event
has to allow is what a touch, or a rename, asks for. -/
theorem apply (h : p.Follows units I) (hapart : CodeUnit.KeysApart units) {event : Event}
    (hallows : I.Allows units event) : (p.apply event).Follows units (I.apply event) := by
  cases event with
  | touch u => exact h.touch hapart hallows
  | rename source target =>
    obtain ⟨hne, hfree, hmoved⟩ := hallows
    exact h.rename hapart hne hfree hmoved

/-- **So it does behind several events** that the inventory allows at the start, as long as renames
come behind events that name other paths. -/
theorem foldl (h : p.Follows units I) (hapart : CodeUnit.KeysApart units) {events : List Event}
    (hpairs : events.Pairwise fun a b => a.Apart b ∨ ∃ u, b = .touch u)
    (hallows : ∀ event ∈ events, I.Allows units event) :
    (events.foldl Pass.apply p).Follows units (events.foldl Inventory.apply I) := by
  induction events generalizing p I with
  | nil => exact h
  | cons a rest ih =>
    obtain ⟨ha, hrest⟩ := List.pairwise_cons.mp hpairs
    obtain ⟨hallowed, hothers⟩ := List.forall_mem_cons.mp hallows
    refine ih (h.apply hapart hallowed) hrest fun b hb => ?_
    -- a touch is allowed whatever the inventory says, and a rename keeps clear of the first event
    rcases ha b hb with hab | ⟨u, rfl⟩
    · exact (hothers b hb).apply hab
    · exact hothers _ hb

end Pass.Follows

/-! ## The inventory of a registry -/

/-- The count of a unit that has an entry of its own. -/
def countOf (r : Registry) (u : CodeUnit) : Option Nat :=
  ((r.tally u.key).filter (·.1 = u)).map (·.2)

/-- A unit has a count if the entry under its key is of this very unit. -/
theorem countOf_eq_some_iff {r : Registry} {u : CodeUnit} {n : Nat} :
    r.countOf u = some n ↔ r.tally u.key = some (u, n) := by
  rw [countOf, Option.map_eq_some_iff]
  constructor
  · rintro ⟨⟨v, m⟩, hfilter, rfl⟩
    obtain ⟨htally, hv⟩ := Option.filter_eq_some_iff.mp hfilter
    obtain rfl : v = u := of_decide_eq_true hv
    exact htally
  · exact fun htally => ⟨(u, n), Option.filter_eq_some_iff.mpr ⟨htally, decide_eq_true rfl⟩, rfl⟩

/-- What a registry says of units before a commit. -/
def inventory (r : Registry) : Inventory where
  count := r.countOf
  coupling u v :=
    if (r.countOf u).isSome && (r.countOf v).isSome then r.entries.coupling u.key v.key else none
  filed file := file ∈ r.files
  touched := ∅

/-- The units of a registry are those of its entries. -/
theorem mem_units {r : Registry} {u : CodeUnit} : u ∈ r.units ↔
    ∃ k e, r.entries.get? k = some e ∧ e.unit = u := by
  rw [units, SortedMap.values, List.map_map, List.mem_map]
  constructor
  · rintro ⟨⟨k, e⟩, he, rfl⟩
    exact ⟨k, e, SortedMap.get?_of_mem_toList he, rfl⟩
  · rintro ⟨k, e, he, rfl⟩
    exact ⟨(k, e), SortedMap.get?_eq_some_iff.mp he, rfl⟩

/-- A counted unit is one of the units. -/
theorem mem_units_of_countOf {r : Registry} {u : CodeUnit} {n : Nat} (h : r.countOf u = some n) :
    u ∈ r.units := by
  obtain ⟨e, he, hunit, -⟩ := tally_eq_some_iff.mp (countOf_eq_some_iff.mp h)
  exact mem_units.mpr ⟨u.key, e, he, hunit⟩

theorem coupling_inventory {r : Registry} {u v : CodeUnit} {n : Nat} :
    r.inventory.coupling u v = some n ↔
      ((r.countOf u).isSome = true ∧ (r.countOf v).isSome = true) ∧
      r.entries.coupling u.key v.key = some n := by
  rw [inventory, ← Bool.and_eq_true, Option.ite_none_right_eq_some]

/-- Where every entry is under the key of its unit, each key is that of a counted unit. -/
theorem exists_countOf {r : Registry} (hkeyed : ∀ k e, r.entries.get? k = some e → e.unit.key = k)
    {k : String} (hk : k ∈ r.entries) : ∃ u, u.key = k ∧ (r.countOf u).isSome = true := by
  obtain ⟨e, he⟩ := SortedMap.mem_iff.mp hk
  have hkey := hkeyed k e he
  exact ⟨e.unit, hkey,
    Option.isSome_of_eq_some (countOf_eq_some_iff.mpr (tally_of_get? (hkey.symm ▸ he)))⟩

/-- A registry whose entries stand under the keys of their units, with an exact index and mutual
couplings, is told by its inventory. -/
theorem follows_inventory {r : Registry}
    (hkeyed : ∀ k e, r.entries.get? k = some e → e.unit.key = k) (hidx : r.Indexed)
    (hmutual : r.entries.Mutual) {units : List CodeUnit} (hunits : r.units ⊆ units) :
    Pass.Follows units ⟨r, ∅⟩ r.inventory where
  tally k u n := by
    show r.tally k = some (u, n) ↔ u.key = k ∧ r.countOf u = some n
    rw [countOf_eq_some_iff]
    constructor
    · intro htally
      obtain ⟨e, he, rfl, rfl⟩ := tally_eq_some_iff.mp htally
      obtain rfl := hkeyed k e he
      exact ⟨rfl, htally⟩
    · rintro ⟨rfl, htally⟩
      exact htally
  coupling j k n := by
    constructor
    · intro hn
      -- both keys of a pair are there, and so are their units
      obtain ⟨u, rfl, hu⟩ := exists_countOf hkeyed (Entries.mem_of_coupling hn)
      obtain ⟨v, rfl, hv⟩ := exists_countOf hkeyed (hmutual.closed _ k n hn)
      exact ⟨u, v, rfl, rfl, coupling_inventory.mpr ⟨⟨hu, hv⟩, hn⟩⟩
    · rintro ⟨u, v, rfl, rfl, hn⟩
      exact (coupling_inventory.mp hn).2
  counted _ _ _ hn := (coupling_inventory.mp hn).1
  filed _ := Iff.rfl
  touched k := iff_of_false (SortedMap.not_mem_empty k) fun ⟨u, hu, _⟩ => Finset.notMem_empty u hu
  indexed := hidx
  paired := hmutual
  among _ _ hn := hunits (mem_units_of_countOf hn)
  touchedAmong u hu := absurd hu (Finset.notMem_empty u)

end Registry

/-! ## Commits -/

section Commits

variable {q : UnitQuery} {r : Registry} {c : Commit}

/-- In a commit that names no path twice, a rename comes behind events that name other paths. -/
theorem Commit.NamesApart.pairwise_apart (h : c.NamesApart) (q : UnitQuery) :
    (c.events q).Pairwise fun a b => a.Apart b ∨ ∃ u, b = .touch u := by
  rw [Commit.events, List.pairwise_flatMap]
  refine ⟨fun ch _ => ?_, h.imp fun {a b} hab => ?_⟩
  · -- the events of one change: only the first one can be a rename
    rw [Change.events, List.pairwise_append]
    refine ⟨?_, ?_, ?_⟩
    · cases ch.isRename <;> simp
    · rw [List.pairwise_map]
      exact List.pairwise_of_forall fun _ u => Or.inr ⟨u, rfl⟩
    · intro _ _ b hb
      obtain ⟨u, -, rfl⟩ := List.mem_map.mp hb
      exact Or.inr ⟨u, rfl⟩
  · exact fun x hx y hy => Or.inl fun path hpx hpy =>
      hab path (Change.mem_paths_of_events hx hpx) (Change.mem_paths_of_events hy hpy)

/-- The registry allows all events of the commit if the new paths of its renames are free. -/
theorem Commit.allows_events
    (huntracked : ∀ ch ∈ c.changes, ch.isRename = true →
      ∀ k d, r.entries.get? k = some d → d.unit.file ≠ ch.target) :
    ∀ event ∈ c.events q, r.inventory.Allows (c.involved q r) event := by
  intro event hevent
  obtain ⟨ch, hch, hev⟩ := List.mem_flatMap.mp hevent
  cases event with
  | touch u =>
    refine List.mem_append_left _ (List.mem_append_right _ (List.mem_flatMap.mpr ⟨ch, hch, ?_⟩))
    exact Change.touch_mem_events.mp hev
  | rename source target =>
    obtain ⟨hr, rfl, rfl⟩ := Change.rename_mem_events.mp hev
    refine ⟨(Change.kind_of_isRename hr).2, fun u hu => ?_, fun u n hu hn => ?_⟩
    · -- nothing stands under the new path
      refine Option.eq_none_iff_forall_ne_some.mpr fun n hn => ?_
      obtain ⟨k, e, he, rfl⟩ := Registry.mem_units.mp (Registry.mem_units_of_countOf hn)
      exact huntracked ch hch hr k e he hu
    · -- what moves is one of the relocated units
      refine List.mem_append_right _ (List.mem_flatMap.mpr ⟨ch, List.mem_filter.mpr ⟨hch, hr⟩, ?_⟩)
      refine List.mem_map_of_mem (List.mem_filter.mpr ⟨Registry.mem_units_of_countOf hn, ?_⟩)
      exact decide_eq_true hu

namespace Engine

open Registry

/-- **The events of a commit lead to the same registry in whatever order its changes come.** The
registry follows an inventory all the way, inventories lead to one end in either order, and an
inventory determines its registry. -/
theorem passOf_perm {changes : List Change} (hkeyed : ∀ k d, r.entries.get? k = some d →
    d.unit.key = k) (hidx : r.Indexed) (hmutual : r.entries.Mutual) (hnames : c.NamesApart)
    (huntracked : ∀ ch ∈ c.changes, ch.isRename = true →
      ∀ k d, r.entries.get? k = some d → d.unit.file ≠ ch.target)
    (hdistinct : CodeUnit.KeysApart (c.involved q r)) (hperm : changes.Perm c.changes) :
    (passOf q r c).registry.entries.Mutual ∧ passOf q r { c with changes } = passOf q r c := by
  have hfollows : Pass.Follows (c.involved q r) ⟨r, ∅⟩ r.inventory :=
    follows_inventory hkeyed hidx hmutual fun u hu =>
      List.mem_append_left _ (List.mem_append_left _ hu)
  have hallows := Commit.allows_events (q := q) huntracked
  have hc := hfollows.foldl hdistinct (hnames.pairwise_apart q) hallows
  -- the other order names no path twice either, and has the same events
  have hnames' : Commit.NamesApart { c with changes } :=
    (hperm.pairwise_iff fun {a b} h path hb ha => h path ha hb).mpr hnames
  have hallows' : ∀ event ∈ Commit.events
      q { c with changes }, r.inventory.Allows (c.involved q r) event :=
    fun event hevent => hallows event ((hperm.flatMap_right _).mem_iff.mp hevent)
  have hc' := hfollows.foldl hdistinct (hnames'.pairwise_apart q) hallows'
  rw [show (Commit.events q { c with changes }).foldl Inventory.apply r.inventory =
    (c.events q).foldl Inventory.apply r.inventory from
    Inventory.foldl_events_perm hperm hnames _] at hc'
  exact ⟨hc.paired, hc'.unique hc⟩

/-- An engine goes on in the same way with two commits that do the same to its registry and are
recorded alike. -/
theorem consume_congr {e : Engine} {c c' : Commit} (hhash : c'.hash = c.hash)
    (hparents : c'.parentCount = c.parentCount)
    (happly : applyCommit e.query e.cap e.registry c' = applyCommit e.query e.cap e.registry c) :
    e.consume c' = e.consume c := by
  have horders : applyCommitIn (TableOrders.byKey e.processed) e.query e.cap e.registry c' =
      applyCommitIn (TableOrders.byKey e.processed) e.query e.cap e.registry c := happly
  unfold consume consumeIn
  simp only [hhash, hparents, horders]

end Engine

end Commits

open Engine in
/-- **The order of a commit's changes does not matter** where entries stand under the keys of their
units, the index is right and couplings are mutual, if no path is named by two changes, renames lead
to paths without units, and the units that the commit deals with have different keys. -/
theorem consume_perm (e : Engine) (c : Commit) (changes : List Change)
    (hkeyed : ∀ k d, e.registry.entries.get? k = some d → d.unit.key = k)
    (hidx : e.registry.Indexed) (hmutual : e.registry.entries.Mutual) (hnames : c.NamesApart)
    (huntracked : ∀ ch ∈ c.changes, ch.isRename = true →
      ∀ k d, e.registry.entries.get? k = some d → d.unit.file ≠ ch.target)
    (hdistinct : CodeUnit.KeysApart (c.involved e.query e.registry))
    (hperm : changes.Perm c.changes) :
    e.consume { c with changes } = e.consume c := by
  obtain ⟨hpaired, hpass⟩ := passOf_perm hkeyed hidx hmutual hnames huntracked hdistinct hperm
  refine consume_congr rfl rfl ?_
  rw [applyCommit_eq, applyCommit_eq, hpass]
  -- what is left is the order of the deletions
  have hdeleted : (deletedFiles { c with changes }).Perm (deletedFiles c) := (hperm.filter _).map _
  refine congrArg (Registry.Pass.mk · _) ?_
  exact foldl_removeFile_perm (symmetric_coupleWithin hpaired.symmetric e.cap _) hdeleted

/-! ### A commit that adds a file, renames one and deletes one -/

namespace Sample

/-- Adds two files. -/
def pair : Commit := ⟨"pair", 1, [added "a.go" [foo, bar], added "c.go" [foo]]⟩

/-- Adds a file, renames and edits another one, and deletes a third. -/
def mixed : Commit :=
  ⟨"mixed", 1, [added "d.go" [foo],
    edited "a.go" "b.go" [foo, bar], ⟨"c.go", "", some (file [foo]), none, none⟩]⟩

/-- The engine after the first of the two, in which all three functions are peers. -/
def paired : Engine := (Engine.new query 0).step pair

/-- The couplings of the sample engine are coherent, as they come from one commit. -/
theorem coherent_paired : paired.registry.entries.Coherent :=
  Engine.coherent_step (e := Engine.new query 0) (c := pair) Entries.coherent_empty
    (Registry.Pass.atRenames_nil.touch.touch.touch : Registry.Pass.AtRenames
      _ _ (pair.events query))
    (Registry.Pass.atRenames_nil.touch.touch.touch : Registry.Pass.AtRenames
      _ _ (pair.events query))

end Sample

/-- A commit that adds a file, renames another one and removes a third one is consumed in the
reverse order by an engine in which all units are peers. Nothing comes out differently. -/
theorem consume_perm_sample :
    let e := Sample.paired
    let c := Sample.mixed
    (∀ k d, e.registry.entries.get? k = some d → d.unit.key = k) ∧ e.registry.Indexed ∧
      e.registry.entries.Mutual ∧ c.NamesApart ∧
      (∀ ch ∈ c.changes, ch.isRename = true →
        ∀ k d, e.registry.entries.get? k = some d → d.unit.file ≠ ch.target) ∧
      CodeUnit.KeysApart (c.involved e.query e.registry) ∧
      (e.step c).registry.entries.keys =
        ["Function_bar_b.go", "Function_foo_b.go", "Function_foo_d.go"] ∧
      e.consume { c with changes := c.changes.reverse } = e.consume c := by
  intro e c
  have hkeyed : ∀ k d, e.registry.entries.get? k = some d → d.unit.key = k := by
    have hall : ∀ a ∈ e.registry.entries.toList, a.2.unit.key = a.1 := by decide +kernel
    exact fun k d hd => hall (k, d) (SortedMap.get?_eq_some_iff.mp hd)
  have hidx : e.registry.Indexed := Registry.isConsistent_iff.mp (by decide +kernel)
  have hmutual : e.registry.entries.Mutual :=
    ⟨Sample.coherent_paired.symmetric, Sample.coherent_paired.closed⟩
  have hnames : c.NamesApart := by
    unfold Commit.NamesApart
    decide
  have huntracked : ∀ ch ∈ c.changes, ch.isRename = true →
      ∀ k d, e.registry.entries.get? k = some d → d.unit.file ≠ ch.target := by
    have hall : ∀ ch ∈ c.changes, ch.isRename = true →
        ∀ a ∈ e.registry.entries.toList, a.2.unit.file ≠ ch.target := by decide +kernel
    exact fun ch hch hr k d hd => hall ch hch hr (k, d) (SortedMap.get?_eq_some_iff.mp hd)
  have hdistinct : CodeUnit.KeysApart (c.involved e.query e.registry) := by decide +kernel
  exact ⟨hkeyed, hidx, hmutual, hnames, huntracked, hdistinct, by decide +kernel,
    consume_perm e c c.changes.reverse hkeyed hidx hmutual hnames huntracked hdistinct
      (List.reverse_perm c.changes)⟩

end CoChange
