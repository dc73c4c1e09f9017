import CoChange.Proofs.Registry.Regular

/-!
# Registries without couplings

What is left of a registry when all couplings are taken from it is *bare* (`Registry.bare`): the
units with their counts, and the index. Everything that happens to a registry happens to what is
left of it in the same way, whatever the couplings are: taking them away commutes with touches
(**`bare_touch`**), renames (**`bare_renameIn`**) and removals (**`bare_removeFile`**), and counting
pairs is not seen at all (**`bare_coupleWithin`**).

So a commit leaves the same units, counts and index whether its pairs are counted or not
(**`bare_applyCommitIn`**), and what else an engine keeps depends on these alone: **`bare_runIn`**.
Of the orders of the hash tables only those of the moved keys have a part in it.
-/

namespace CoChange

def Entry.bare (e : Entry) : Entry := { e with couples := ∅ }

namespace Entries

/-- Entries without their couplings. -/
def bare (es : Entries) : Entries := es.mapValues fun _ e => e.bare

theorem get?_bare (es : Entries) (k : String) : es.bare.get? k = (es.get? k).map Entry.bare :=
  SortedMap.get?_mapValues _ es k

theorem bare_insert (es : Entries) (k : String) (e : Entry) :
    Entries.bare (es.insert k e) = es.bare.insert k e.bare :=
  SortedMap.mapValues_insert (fun _ e => Entry.bare e) k e es

theorem bare_erase (es : Entries) (k : String) : Entries.bare (es.erase k) = es.bare.erase k :=
  SortedMap.mapValues_erase (fun _ e => Entry.bare e) k es

end Entries

namespace Registry

/-- A registry without its couplings. -/
def bare (r : Registry) : Registry := ⟨r.entries.bare, r.files⟩

/-- A registry in the middle of a commit, without its couplings. -/
def Pass.bare (p : Pass) : Pass := ⟨p.registry.bare, p.touched⟩

section Bare

variable {r r' : Registry}

theorem mem_bare {k : String} : k ∈ r.bare.entries ↔ k ∈ r.entries := SortedMap.mem_mapValues

@[simp] theorem files_bare (r : Registry) : r.bare.files = r.files := rfl

@[simp] theorem tally_bare (r : Registry) (k : String) : r.bare.tally k = r.tally k := by
  show (r.entries.bare.get? k).map _ = _
  rw [tally, Entries.get?_bare, Option.map_map]
  rfl

/-- Registries of the same units, counts and index differ in their couplings only. -/
theorem bare_eq_iff : r.bare = r'.bare ↔ (∀ k, r.tally k = r'.tally k) ∧ r.files = r'.files := by
  constructor
  · intro h
    have hfiles : r.bare.files = r'.bare.files := congrArg Registry.files h
    refine ⟨fun k => ?_, hfiles⟩
    rw [← tally_bare, h, tally_bare]
  · rintro ⟨htally, hfiles⟩
    have hentries : r.bare.entries = r'.bare.entries := by
      refine SortedMap.ext_get? fun k => ?_
      have hbare (r : Registry) : r.bare.entries.get? k =
          (r.tally k).map fun t => (⟨t.1, t.2, ∅⟩ : Entry) := by
        show r.entries.bare.get? k = _
        rw [Entries.get?_bare, tally, Option.map_map]
        rfl
      rw [hbare, hbare, htally k]
    show (⟨r.bare.entries, r.files⟩ : Registry) = ⟨r'.bare.entries, r'.files⟩
    rw [hentries, hfiles]

/-- Couplings have no part in whether a registry is regular. -/
theorem Regular.of_bare (hregular : r.Regular) (h : r.bare = r'.bare) : r'.Regular := by
  obtain ⟨htally, hfiles⟩ := bare_eq_iff.mp h
  refine ⟨?_, hfiles ▸ hregular.populated, fun k u n hu => hregular.keyed k u n (htally k ▸ hu)⟩
  have hidx := indexed_iff_tally.mp hregular.indexed
  rw [indexed_iff_tally, ← hfiles]
  exact fun file key => by rw [hidx file key, htally key]

/-! ## Touches -/

/-- A touch reads and writes no couplings, so they may be taken away before it or after it. -/
theorem bare_touch (u : CodeUnit) (p : Pass) : (p.touch u).bare = p.bare.touch u := by
  have hregistry : (p.touch u).registry.bare = (p.bare.touch u).registry := by
    have hget : p.bare.registry.entries.get? u.key =
        (p.registry.entries.get? u.key).map Entry.bare := Entries.get?_bare _ u.key
    cases he : p.registry.entries.get? u.key with
    | none =>
      rw [he, Option.map_none] at hget
      rw [Pass.registry_touch_of_none he, Pass.registry_touch_of_none hget]
      exact congrArg (Registry.mk · _) (Entries.bare_insert _ _ _)
    | some e =>
      rw [he, Option.map_some] at hget
      rw [Pass.registry_touch_of_some he, Pass.registry_touch_of_some hget]
      show bare (if u.key ∈ p.touched then _ else _) = if u.key ∈ p.touched then _ else _
      split
      · rfl
      · exact congrArg (Registry.mk · _) (Entries.bare_insert _ _ _)
  show (⟨(p.touch u).registry.bare, (p.touch u).touched⟩ : Pass) = p.bare.touch u
  rw [hregistry]
  rfl

/-! ## Renames

Couplings have no part in which unit stands where behind a rename. That part is left to the order of
the table of the moved keys, which is the same on both sides; the orders of the peers do not
matter. -/

variable {source target : String} {o o' : TableOrder}

/-- The units of a file are the same without couplings, in any orders that agree on them. -/
theorem unitsInOrder_bare (h : o.units = o'.units) (file : String) (r : Registry) :
    r.bare.unitsInOrder o' file = (r.unitsInOrder o file).map fun u => (u.1, u.2.bare) := by
  unfold unitsInOrder
  rw [files_bare, h]
  cases r.files.get? file with
  | none => rfl
  | some keys =>
    rw [List.map_filterMap]
    refine List.filterMap_congr fun key _ => ?_
    show (r.entries.bare.get? key).map _ = Option.map _ ((r.entries.get? key).map _)
    rw [Entries.get?_bare, Option.map_map, Option.map_map]
    rfl

/-- Where the keys of a file move does not depend on couplings. -/
@[simp] theorem moves_bare (source target : String) (r : Registry) :
    r.bare.moves source target = r.moves source target := by
  rw [moves, moves, unitsIn, unitsInOrder_bare (o := .byKey) rfl, relocation, relocation,
    List.map_map]
  rfl

/-- Nor does the key that a unit comes to. -/
@[simp] theorem newKey_bare (source target : String) (r : Registry) (key : String) :
    r.bare.newKey source target key = r.newKey source target key := by
  rw [newKey, newKey, moves_bare]

/-- Nor does whether a rename keeps keys apart. -/
theorem separates_bare : r.bare.Separates source target ↔ r.Separates source target := by
  unfold Separates
  simp only [mem_bare, newKey_bare]

/-- The entries that a renaming moves are the same without couplings, but for their own. -/
theorem movedEntries_bare (h : o.units = o'.units) (source target : String) (r : Registry) :
    r.bare.movedEntries o' source target =
      (r.movedEntries o source target).map fun u => (u.1, u.2.bare) := by
  unfold movedEntries
  rw [unitsInOrder_bare h, List.map_map, List.map_map]
  refine List.map_congr_left fun u _ => ?_
  simp only [Function.comp_apply, newKey_bare]
  rfl

/-- The entries behind the moves of a renaming are the same without couplings. The orders of peers
may differ. -/
theorem shifted_bare (h : o.units = o'.units) (source target : String) (r : Registry) :
    r.bare.shifted o' source target = (r.shifted o source target).bare := by
  have herase : ∀ (es : Entries) (u : String × Entry),
      es.bare.erase u.1 = Entries.bare (es.erase u.1) := fun es u => (es.bare_erase u.1).symm
  have hinsert : ∀ (es : Entries) (u : String × Entry),
      es.bare.insert u.1 u.2.bare = Entries.bare (es.insert u.1 u.2) :=
    fun es u => (es.bare_insert u.1 u.2).symm
  unfold shifted
  rw [movedEntries_bare h, unitsInOrder_bare h, List.foldl_map, List.foldl_map]
  show List.foldl _ (List.foldl _ r.entries.bare _) _ = _
  rw [List.foldl_hom Entries.bare herase, List.foldl_hom Entries.bare hinsert]

/-- Nor do the keys under the new path, for tables of keys in the same order. -/
theorem bucket_bare (h : o.units = o'.units) (source target : String) (r : Registry) :
    r.bare.bucket o' source target = r.bucket o source target := by
  unfold bucket
  rw [movedEntries_bare h, List.foldl_map]
  rfl

/-- Relabelling peers changes nothing but peers. -/
theorem bare_relabelEntryIn (order : List (String × Nat) → List (String × Nat))
    (moves : SortedMap String String) (e : Entry) : (relabelEntryIn order moves e).bare =
      e.bare := by
  unfold relabelEntryIn
  split <;> rfl

/-- Without couplings there is nothing to relabel. -/
theorem relabelEntryIn_bare (order : List (String × Nat) → List (String × Nat))
    (moves : SortedMap String String) (e : Entry) : relabelEntryIn order moves e.bare = e.bare := by
  have hnone : (e.bare.couples.keys.any fun peer => moves.contains peer) = false := rfl
  rw [relabelEntryIn, hnone]
  rfl

/-- **What a rename leaves of units and counts does not depend on couplings**, however units meet in
the new file, and neither does it on the orders in which peers are listed. -/
theorem bare_renameIn (h : o.units = o'.units) (source target : String) (r : Registry) :
    (r.renameIn o source target).bare = r.bare.renameIn o' source target := by
  by_cases hne : source = target
  · rw [hne, renameIn_self, renameIn_self]
  · cases hfile : r.files.get? source with
    | none =>
      have hfile' : r.bare.files.get? source = none := by rwa [files_bare]
      rw [renameIn_of_none o hfile, renameIn_of_none o' hfile']
    | some keys =>
      have hfile' : r.bare.files.get? source = some keys := by rwa [files_bare]
      rw [renameIn_of_some o hne hfile, renameIn_of_some o' hne hfile', bucket_bare h,
        shifted_bare h]
      refine congrArg (Registry.mk · _) (SortedMap.ext_get? fun k => ?_)
      show (Entries.bare (SortedMap.mapValues _ (r.shifted o source target))).get? k = _
      rw [Entries.get?_bare, SortedMap.get?_mapValues, SortedMap.get?_mapValues, Entries.get?_bare,
        Option.map_map, Option.map_map]
      refine congrArg (Option.map · ((r.shifted o source target).get? k)) (funext fun e => ?_)
      simp only [Function.comp_apply]
      -- which entries are visited differs, but a visit changes couplings only
      split
      · rw [bare_relabelEntryIn]
        split
        · rw [relabelEntryIn_bare]
        · rfl
      · split
        · rw [relabelEntryIn_bare]
        · rfl

/-! ## Events -/

/-- An event does the same to units, counts and index without couplings, in any orders that agree on
the keys that move. -/
theorem Pass.bare_applyIn (h : o.units = o'.units) (p : Pass) (event : Event) :
    (p.applyIn o event).bare = p.bare.applyIn o' event := by
  cases event with
  | touch u => exact bare_touch u p
  | rename source target =>
    exact congrArg (Pass.mk · p.touched) (bare_renameIn h source target p.registry)

/-- Events do to counts what they do without couplings, for tables of keys in the same order. -/
theorem Pass.bare_foldlIn (h : o.units = o'.units) (events : List Event) (p : Pass) :
    (events.foldl (applyIn o) p).bare = events.foldl (applyIn o') p.bare :=
  (List.foldl_hom Pass.bare fun p event => (p.bare_applyIn h event).symm).symm

theorem Pass.bare_apply (p : Pass) (event : Event) : (p.apply event).bare = p.bare.apply event :=
  p.bare_applyIn (o := .byKey) rfl event

theorem Pass.bare_foldl (events : List Event) (p : Pass) :
    (events.foldl apply p).bare = events.foldl apply p.bare :=
  Pass.bare_foldlIn (o := .byKey) rfl events p

/-! ## Pairs and removals -/

/-- Counting pairs changes couplings and nothing else. -/
@[simp] theorem bare_coupleWithin (cap : Nat) (touched : SortedSet String) (r : Registry) :
    (r.coupleWithin cap touched).bare = r.bare := by
  rw [bare_eq_iff]
  refine ⟨fun k => tally_coupleWithin cap touched r k, ?_⟩
  unfold coupleWithin
  split
  · rfl
  · rfl

/-- Whether peers are struck from the other entries or not, nothing of it is seen without
couplings. -/
theorem bare_removeEntry (key : String) (es : Entries) :
    Entries.bare (removeEntry key es) = removeEntry key es.bare := by
  refine SortedMap.ext_get? fun k => ?_
  rw [Entries.get?_bare, get?_removeEntry, get?_removeEntry, Entries.get?_bare, Entries.get?_bare]
  cases es.get? key with
  | none => rfl
  | some e =>
    show Option.map _ (if k = key then _ else _) = if k = key then _ else _
    split
    · rfl
    · rw [Option.map_map, Option.map_map]
      refine congrArg (Option.map · (es.get? k)) (funext fun e' => ?_)
      have hnone : k ∉ e.bare.couples := SortedMap.not_mem_empty k
      -- whether the other entry lists the removed one shows in its peers only
      by_cases hk : k ∈ e.couples
      · simp only [Function.comp_apply, if_pos hk, if_neg hnone]
        rfl
      · simp only [Function.comp_apply, if_neg hk, if_neg hnone]

/-- A removal takes out the same units whether couplings are there or not. -/
theorem bare_removeFile (file : String) (r : Registry) :
    (r.removeFile file).bare = r.bare.removeFile file := by
  unfold removeFile
  rw [files_bare]
  cases r.files.get? file with
  | none => rfl
  | some keys =>
    have hone : ∀ (es : Entries) (key : String),
        removeEntry key es.bare = Entries.bare (removeEntry key es) :=
      fun es key => (bare_removeEntry key es).symm
    refine congrArg (Registry.mk · (r.files.erase file)) ?_
    show Entries.bare (keys.keys.foldl _ r.entries) = keys.keys.foldl _ r.entries.bare
    rw [List.foldl_hom Entries.bare hone]

end Bare

end Registry

/-! ## Commits -/

namespace Engine

open Registry

/-- The removal of files does to counts what it does without couplings. -/
theorem bare_dropFiles (r : Registry) (c : Commit) : (dropFiles r c).bare = dropFiles r.bare c :=
  (List.foldl_hom Registry.bare fun r file => (bare_removeFile file r).symm).symm

section Commit

variable {orders orders' : Nat → TableOrder}

/-- So do the events of a commit. -/
theorem bare_passIn (h : ∀ i, (orders i).units = (orders' i).units) (q : UnitQuery) (r : Registry)
    (c : Commit) : (passIn orders q r c).bare = passIn orders' q r.bare c :=
  (List.foldl_hom Pass.bare fun p x => (Pass.bare_foldlIn (h x.2) (x.1.events q) p).symm).symm

theorem bare_passOf (q : UnitQuery) (r : Registry) (c : Commit) :
    (passOf q r c).bare = passOf q r.bare c := Pass.bare_foldl (c.events q) ⟨r, ∅⟩

/-- **A commit leaves the same units, counts and index whatever the cap is**: they are told by what
it does to the bare registry. -/
theorem bare_applyCommitIn (h : ∀ i, (orders i).units = (orders' i).units) (q : UnitQuery)
    (cap : Nat) (r : Registry) (c : Commit) :
    (applyCommitIn orders q cap r c).registry.bare =
      dropFiles (passIn orders' q r.bare c).registry c := by
  have hpass : (passIn orders q r c).registry.bare = (passIn orders' q r.bare c).registry :=
    congrArg Pass.registry (bare_passIn h q r c)
  rw [applyCommitIn_eq]
  show (dropFiles _ c).bare = _
  rw [bare_dropFiles, bare_coupleWithin, hpass]

/-- **A commit does to counts what its events and removals do without couplings**, whatever the cap
is. -/
theorem bare_applyCommit (q : UnitQuery) (cap : Nat) (r : Registry) (c : Commit) :
    (applyCommit q cap r c).registry.bare = dropFiles (passOf q r.bare c).registry c := by
  rw [applyCommit, bare_applyCommitIn fun _ => rfl, passIn_byKey]

end Commit

/-- An engine without its cap and its couplings. -/
def bare (e : Engine) : Engine := { e with cap := 0, registry := e.registry.bare }

section Run

variable {e e' : Engine} {orders orders' : TableOrders}

theorem takes_bare (e : Engine) (c : Commit) : e.bare.takes c = e.takes c := rfl

/-- The statistics of a commit are told by the keys it touches, so couplings have no part in
them. -/
theorem statsAfter_bare (e : Engine) (c : Commit) : e.bare.statsAfter c = e.statsAfter c := by
  -- statistics are told by the touched keys alone, and a bare pass has the same
  have hpass : passOf e.bare.query e.bare.registry c = (passOf e.query e.registry c).bare :=
    (bare_passOf e.query e.registry c).symm
  unfold statsAfter
  rw [hpass, takes_bare]
  rfl

/-- What is left of an engine after a commit is told by what was left of it before. -/
theorem bare_stepIn_eq (h : ∀ n i, (orders n i).units = (orders' n i).units) (e : Engine)
    (c : Commit) :
    (e.stepIn orders c).bare =
      { e.bare with
        registry :=
          if e.bare.takes c then
            dropFiles (passIn (orders' e.bare.processed) e.bare.query e.bare.registry c).registry c
          else e.bare.registry
        merges := (e.bare.merges.accept c.hash c.parentCount).2
        stats := e.bare.statsAfter c
        processed := e.bare.processed + 1
        last := some c.hash } := by
  rw [stepIn_eq, statsAfter_bare, takes_bare]
  cases e.takes c with
  | true =>
    exact congrArg (Engine.mk _ _ · _ _ _ _)
      (bare_applyCommitIn (h e.processed) e.query e.cap e.registry c)
  | false => rfl

/-- **Engines that differ in caps and couplings only still do after some commits.** The orders in
which the peers are listed may be different ones, too. -/
theorem bare_runIn (horders : ∀ n i, (orders n i).units = (orders' n i).units)
    (h : e.bare = e'.bare) (commits : List Commit) :
    (e.runIn orders commits).bare = (e'.runIn orders' commits).bare := by
  induction commits generalizing e e' with
  | nil => exact h
  | cons c rest ih =>
    have hstep : (e.stepIn orders c).bare = (e'.stepIn orders' c).bare := by
      rw [bare_stepIn_eq horders, bare_stepIn_eq fun _ _ => rfl, h]
    rw [runIn_cons, runIn_cons]
    exact ih hstep

/-- Two engines with the same counts have the same counts after the same commits. -/
theorem bare_run (h : e.bare = e'.bare) (commits : List Commit) :
    (e.run commits).bare = (e'.run commits).bare := by
  show (e.runIn .byKey commits).bare = (e'.runIn .byKey commits).bare
  exact bare_runIn (fun _ _ => rfl) h commits

end Run

end Engine

end CoChange
