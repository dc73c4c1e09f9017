import CoChange.Proofs.Journal.Basic
import CoChange.Proofs.Registry.Removal
import CoChange.Proofs.Registry.Rename

/-!
# Registries that a journal describes

`Describes counted J r` ties a registry to a journal: there is one entry for each unit of the
journal, its count is the number of positions of the unit, and two units list each other with the
number of their common positions among the `counted` ones. The couplings are coherent and the index
is right.

One lemma for each operation says that the registry stays described when the journal makes the same
step: `Describes.touch`, `Describes.rename`, `Describes.removeFile`. Counting the pairs of a commit
changes no journal; it adds the position of the commit to the counted ones (`Describes.couple`).
-/

namespace CoChange

/-- A number of common changes as it stands among peers: zero is not listed. -/
def peerNumber (n : Nat) : Option Nat := if n = 0 then none else some n

/-- How many of the counted positions two sets of positions share. -/
def shared (counted : Nat → Bool) (S T : Finset Nat) : Nat :=
  ((S ∩ T).filter fun s => counted s = true).card

theorem shared_comm (counted : Nat → Bool) (S T : Finset Nat) :
    shared counted S T = shared counted T S := by
  rw [shared, shared, Finset.inter_comm]

/-- A position that is not counted makes no difference. -/
theorem shared_insert_left {counted : Nat → Bool} {i : Nat} (hi : counted i = false)
    (S T : Finset Nat) : shared counted (insert i S) T = shared counted S T := by
  refine congrArg Finset.card (Finset.ext fun s => ?_)
  simp only [Finset.mem_filter, Finset.mem_inter, Finset.mem_insert]
  constructor
  · rintro ⟨⟨rfl | hs, ht⟩, hc⟩
    · rw [hi] at hc
      exact absurd hc (by simp)
    · exact ⟨⟨hs, ht⟩, hc⟩
  · rintro ⟨⟨hs, ht⟩, hc⟩
    exact ⟨⟨Or.inr hs, ht⟩, hc⟩

/-- Counting one more position adds one for the sets that share it. -/
theorem shared_or_eq {counted : Nat → Bool} {i : Nat} (hi : counted i = false) (S T : Finset Nat) :
    shared (fun s => counted s || s == i) S T =
      shared counted S T + if i ∈ S ∧ i ∈ T then 1 else 0 := by
  unfold shared
  by_cases hST : i ∈ S ∧ i ∈ T
  · -- the position is one of the shared ones, and was not counted before
    have hins : ((S ∩ T).filter fun s => (counted s || s == i) = true) =
        insert i ((S ∩ T).filter fun s => counted s = true) := by
      refine Finset.ext fun s => ?_
      simp only [Finset.mem_filter, Finset.mem_inter, Finset.mem_insert, Bool.or_eq_true,
        beq_iff_eq]
      constructor
      · rintro ⟨hs, hc | hsi⟩
        · exact Or.inr ⟨hs, hc⟩
        · exact Or.inl hsi
      · rintro (rfl | ⟨hs, hc⟩)
        · exact ⟨hST, Or.inr rfl⟩
        · exact ⟨hs, Or.inl hc⟩
    rw [if_pos hST, hins, Finset.card_insert_of_notMem]
    intro hmem
    rw [(Finset.mem_filter.mp hmem).2] at hi
    exact absurd hi (by simp)
  · rw [if_neg hST, Nat.add_zero]
    refine congrArg Finset.card (Finset.ext fun s => ?_)
    simp only [Finset.mem_filter, Finset.mem_inter, Bool.or_eq_true, beq_iff_eq]
    constructor
    · rintro ⟨hs, hc | rfl⟩
      · exact ⟨hs, hc⟩
      · exact absurd hs hST
    · rintro ⟨hs, hc⟩
      exact ⟨hs, Or.inl hc⟩

/-- A journal tells what a registry holds, with the pairs of the counted positions. -/
structure Describes (counted : Nat → Bool) (J : Journal) (r : Registry) : Prop where
  /-- Each unit has its entry. -/
  entry : ∀ u S, J u = some S →
    ∃ e, r.entries.get? u.key = some e ∧ e.unit = u ∧ e.count = S.card
  /-- Each entry is of a unit that is there. -/
  unit : ∀ k e, r.entries.get? k = some e → e.unit.key = k ∧ (J e.unit).isSome = true
  /-- Two units list each other with the number of positions that they share. -/
  pair : ∀ u v S T, J u = some S → J v = some T → u ≠ v →
    r.entries.coupling u.key v.key = peerNumber (shared counted S T)
  coherent : r.entries.Coherent
  indexed : r.Indexed

namespace Describes

variable {counted : Nat → Bool} {J : Journal} {r : Registry}

/-- The empty journal describes the empty registry. -/
theorem empty : Describes counted Journal.empty Registry.empty where
  entry := fun _ _ h => absurd h (by simp [Journal.empty])
  unit := fun k _ h => absurd h (by simp [Registry.empty])
  pair := fun _ _ _ _ h => absurd h (by simp [Journal.empty])
  coherent := Entries.coherent_empty
  indexed := Registry.indexed_empty

theorem mem_entries (h : Describes counted J r) {u : CodeUnit} (hu : (J u).isSome = true) :
    u.key ∈ r.entries := by
  obtain ⟨S, hS⟩ := Option.isSome_iff_exists.mp hu
  obtain ⟨e, he, _⟩ := h.entry u S hS
  exact SortedMap.mem_of_get? he

/-- The units of a described registry have distinct keys. -/
theorem key_inj (h : Describes counted J r) {u v : CodeUnit} (hu : (J u).isSome = true)
    (hv : (J v).isSome = true) (hkey : u.key = v.key) : u = v := by
  obtain ⟨S, hS⟩ := Option.isSome_iff_exists.mp hu
  obtain ⟨T, hT⟩ := Option.isSome_iff_exists.mp hv
  obtain ⟨e, he, hue, _⟩ := h.entry u S hS
  obtain ⟨e', he', hve, _⟩ := h.entry v T hT
  rw [hkey, he'] at he
  rw [← hue, ← hve, Option.some.inj he]

/-- The entry of a unit is the one under its key. -/
theorem unit_eq (h : Describes counted J r) {u : CodeUnit} (hu : (J u).isSome = true) {e : Entry}
    (he : r.entries.get? u.key = some e) : e.unit = u := by
  obtain ⟨S, hS⟩ := Option.isSome_iff_exists.mp hu
  obtain ⟨e', he', hue, _⟩ := h.entry u S hS
  rw [he] at he'
  rw [Option.some.inj he', hue]

/-- A key is one of the entries exactly if it is the key of a unit that is there. -/
theorem mem_entries_iff (h : Describes counted J r) {k : String} :
    k ∈ r.entries ↔ ∃ u, (J u).isSome = true ∧ u.key = k := by
  constructor
  · intro hk
    obtain ⟨e, he⟩ := SortedMap.mem_iff.mp hk
    exact ⟨e.unit, (h.unit k e he).2, (h.unit k e he).1⟩
  · rintro ⟨u, hu, rfl⟩
    exact h.mem_entries hu

/-- The key of a unit is listed under its file and under no other. -/
theorem lists_iff (h : Describes counted J r) {u : CodeUnit} (hu : (J u).isSome = true)
    {file : String} : r.files.Lists file u.key ↔ u.file = file := by
  obtain ⟨e, he⟩ := SortedMap.mem_iff.mp (h.mem_entries hu)
  rw [h.indexed file u.key]
  constructor
  · rintro ⟨e', he', hf⟩
    rw [← hf, h.unit_eq hu he']
  · intro hf
    exact ⟨e, he, by rw [h.unit_eq hu he, hf]⟩

/-! ## Touches -/

section Touch

variable {p : Registry.Pass} {i : Nat} {u : CodeUnit}

/-- A unit that is not there has no entry under its key, if no unit that is there has the same
key. -/
theorem key_not_mem (h : Describes counted J r) (hnone : J u = none)
    (hkey : ∀ v, (J v).isSome = true → v.key = u.key → v = u) : u.key ∉ r.entries := by
  intro hk
  obtain ⟨v, hv, hvk⟩ := h.mem_entries_iff.mp hk
  rw [hkey v hv hvk, hnone] at hv
  exact absurd hv (by simp)

/-- A touched unit has its entry afterwards, with the count that the journal tells. -/
theorem entry_touch (h : Describes counted J p.registry)
    (hkey : ∀ v, (J v).isSome = true → v.key = u.key → v = u)
    (htouched : ∀ S, J u = some S → (u.key ∈ p.touched ↔ i ∈ S)) :
    ∃ e, (p.touch u).registry.entries.get? u.key = some e ∧ e.unit = u ∧
      e.count = (insert i ((J u).getD ∅)).card := by
  rw [Registry.Pass.get?_touch, if_pos rfl]
  cases hJ : J u with
  | none =>
    rw [SortedMap.get?_eq_none_iff.mpr (h.key_not_mem hJ hkey)]
    exact ⟨.first u, rfl, rfl, rfl⟩
  | some S =>
    obtain ⟨e, he, hunit, hcount⟩ := h.entry u S hJ
    rw [he, Option.getD_some]
    -- a second touch counts as little as a position that is noted already
    by_cases ht : u.key ∈ p.touched
    · refine ⟨e, by simp only [ht, if_true], hunit, ?_⟩
      rw [Finset.insert_eq_of_mem ((htouched S hJ).mp ht), hcount]
    · refine ⟨{ e with count := e.count + 1 }, by simp only [ht, if_false], hunit, ?_⟩
      have hnot : i ∉ S := fun hm => ht ((htouched S hJ).mpr hm)
      rw [Finset.card_insert_of_notMem hnot]
      exact congrArg (· + 1) hcount

/-- No pair of a touched unit gets another number, since the new position is not counted. -/
theorem coupling_insert (h : Describes counted J r) (hi : counted i = false)
    (hkey : ∀ v, (J v).isSome = true → v.key = u.key → v = u) {v : CodeUnit} {S : Finset Nat}
    (hv : J v = some S) (hne : u ≠ v) :
    r.entries.coupling u.key v.key = peerNumber (shared counted (insert i ((J u).getD ∅)) S) := by
  rw [shared_insert_left hi]
  cases hu : J u with
  | none =>
    rw [Entries.coupling_eq_none_of_not_mem (h.key_not_mem hu hkey), Option.getD_none, shared]
    simp [peerNumber]
  | some T => exact h.pair u v T S hu hv hne

/-- Pairs read the same from both sides, also where one of the units is not there yet. -/
theorem coupling_comm (h : Describes counted J r) {v : CodeUnit} (hv : (J v).isSome = true) :
    r.entries.coupling v.key u.key = r.entries.coupling u.key v.key := by
  by_cases hu : u.key ∈ r.entries
  · exact h.coherent.symmetric _ _ (h.mem_entries hv) hu
  · -- a unit that is new is nobody's peer
    rw [Entries.coupling_eq_none_of_not_mem hu]
    exact Option.eq_none_iff_forall_ne_some.mpr fun n hn => hu (h.coherent.closed _ _ n hn)

/-- **A touch.** The unit has to have a key of its own, the position of the commit must not be
counted yet, and the key of the unit is among the touched ones exactly if the position is already
noted. -/
theorem touch (h : Describes counted J p.registry) (hi : counted i = false)
    (hkey : ∀ v, (J v).isSome = true → v.key = u.key → v = u)
    (htouched : ∀ S, J u = some S → (u.key ∈ p.touched ↔ i ∈ S)) :
    Describes counted (J.touch i u) (p.touch u).registry := by
  obtain ⟨eu, heu, hunit, hcount⟩ := h.entry_touch hkey htouched
  have hother : ∀ {v : CodeUnit}, v ≠ u → J.touch i u v = J v := fun hvu => if_neg hvu
  have hself : J.touch i u u = some (insert i ((J u).getD ∅)) := if_pos rfl
  have hcoherent : (p.touch u).registry.entries.Coherent :=
    ⟨h.coherent.symmetric.touch h.coherent.closed u,
      h.coherent.closed.touch u, h.coherent.irreflexive.touch u⟩
  refine ⟨?entry, ?unit, ?pair, hcoherent, h.indexed.touch u⟩
  case entry =>
    intro v S hv
    by_cases hvu : v = u
    · subst hvu
      rw [hself] at hv
      exact ⟨eu, heu, hunit, by rw [hcount, Option.some.inj hv]⟩
    · rw [hother hvu] at hv
      obtain ⟨e, he, hrest⟩ := h.entry v S hv
      have hvk : v.key ≠ u.key := fun heq => hvu (hkey v (Option.isSome_of_eq_some hv) heq)
      exact ⟨e, by rw [Registry.Pass.get?_touch, if_neg hvk, he], hrest⟩
  case unit =>
    intro k e he
    by_cases hk : k = u.key
    · rw [hk, heu] at he
      rw [← Option.some.inj he, hunit, hself]
      exact ⟨hk.symm, rfl⟩
    · rw [Registry.Pass.get?_touch, if_neg hk] at he
      obtain ⟨hek, hthere⟩ := h.unit k e he
      have heu' : e.unit ≠ u := fun heq => hk (by rw [← hek, heq])
      exact ⟨hek, by rw [hother heu', hthere]⟩
  case pair =>
    -- the touch changes a pair only if the unit is one of the two
    intro v w S T hv hw hne
    rw [Registry.Pass.coupling_touch]
    by_cases hvu : v = u
    · have hwu : w ≠ u := fun heq => hne (hvu.trans heq.symm)
      rw [hother hwu] at hw
      rw [hvu, hself] at hv
      rw [hvu, ← Option.some.inj hv]
      exact h.coupling_insert hi hkey hw hwu.symm
    · rw [hother hvu] at hv
      by_cases hwu : w = u
      · rw [hwu, hself] at hw
        rw [hwu, ← Option.some.inj hw, shared_comm, h.coupling_comm (Option.isSome_of_eq_some hv)]
        exact h.coupling_insert hi hkey hv (Ne.symm hvu)
      · rw [hother hwu] at hw
        exact h.pair v w S T hv hw hne

end Touch

/-! ## Renames -/

/-- A unit after a file is renamed. -/
def moved (source target : String) (u : CodeUnit) : CodeUnit :=
  if u.file = source then u.relocated target else u

section Rename

variable {source target : String}

theorem newUnit_eq_moved (h : Describes counted J r) {u : CodeUnit} (hu : (J u).isSome = true) :
    r.newUnit source target u.key u = moved source target u := by
  have hmoves : u.key ∈ r.moves source target ↔ u.file = source := by
    rw [Registry.mem_moves, h.lists_iff hu, and_iff_left (h.mem_entries hu)]
  simp only [Registry.newUnit, moved, hmoves]

theorem newKey_eq_moved (h : Describes counted J r) {u : CodeUnit} (hu : (J u).isSome = true) :
    r.newKey source target u.key = (moved source target u).key := by
  obtain ⟨e, he⟩ := SortedMap.mem_iff.mp (h.mem_entries hu)
  have hunit := h.unit_eq hu he
  rw [Registry.newKey_eq_key he (by rw [hunit]), hunit, h.newUnit_eq_moved hu]

/-- The journal after a rename has the units of the one before, moved, if the new path is free. -/
theorem rename_eq_some_iff (hfree : ∀ u : CodeUnit, u.file = target → J u = none) {v : CodeUnit}
    {S : Finset Nat} :
    J.rename source target v = some S ↔ ∃ u, J u = some S ∧ moved source target u = v := by
  unfold Journal.rename
  constructor
  · intro hv
    -- a unit under the new path comes from the old one, where nothing is left
    by_cases ht : v.file = target
    · rw [if_pos ht] at hv
      refine ⟨v.relocated source, hv, ?_⟩
      rw [moved, if_pos (CodeUnit.relocated_file v source), CodeUnit.relocated_relocated, ← ht,
        CodeUnit.relocated_self]
    · rw [if_neg ht] at hv
      by_cases hs : v.file = source
      · rw [if_pos hs] at hv
        exact absurd hv (by simp)
      · rw [if_neg hs] at hv
        exact ⟨v, hv, by rw [moved, if_neg hs]⟩
  · rintro ⟨u, hu, rfl⟩
    have ht : u.file ≠ target := fun ht => by
      rw [hfree u ht] at hu
      exact absurd hu (by simp)
    by_cases hs : u.file = source
    · rw [moved, if_pos hs, if_pos (CodeUnit.relocated_file u target),
        CodeUnit.relocated_relocated, ← hs, CodeUnit.relocated_self, hu]
    · rw [moved, if_neg hs, if_neg ht, if_neg hs, hu]

/-- Units that are there stay apart when they are moved to a free path. -/
theorem moved_inj (hfree : ∀ u : CodeUnit, u.file = target → J u = none) {u v : CodeUnit}
    (hu : (J u).isSome = true) (hv : (J v).isSome = true)
    (huv : moved source target u = moved source target v) : u = v := by
  -- what moves does not come upon a unit that is there
  have hapart : ∀ {u v : CodeUnit}, (J v).isSome = true → v ≠ u.relocated target := by
    rintro u v hv rfl
    rw [hfree _ (CodeUnit.relocated_file u target)] at hv
    exact absurd hv (by simp)
  unfold moved at huv
  by_cases hsu : u.file = source
  · rw [if_pos hsu] at huv
    by_cases hsv : v.file = source
    · rw [if_pos hsv] at huv
      have hback := congrArg (·.relocated source) huv
      simp only [CodeUnit.relocated_relocated] at hback
      rw [← CodeUnit.relocated_self u, ← CodeUnit.relocated_self v, hsu, hsv, hback]
    · rw [if_neg hsv] at huv
      exact absurd huv.symm (hapart hv)
  · rw [if_neg hsu] at huv
    by_cases hsv : v.file = source
    · rw [if_pos hsv] at huv
      exact absurd huv (hapart hu)
    · rwa [if_neg hsv] at huv

/-- A rename to a free path separates a described registry if the units behind it have distinct
keys. -/
theorem separates (h : Describes counted J r)
    (hfree : ∀ u : CodeUnit, u.file = target → J u = none)
    (hkey : ∀ u v, (J.rename source target u).isSome = true →
      (J.rename source target v).isSome = true → u.key = v.key → u = v) :
    r.Separates source target := by
  intro j k hj hk heq
  obtain ⟨u, hu, rfl⟩ := h.mem_entries_iff.mp hj
  obtain ⟨v, hv, rfl⟩ := h.mem_entries_iff.mp hk
  have there : ∀ {u : CodeUnit}, (J u).isSome = true →
      (J.rename source target (moved source target u)).isSome = true := fun {u} hu => by
    obtain ⟨S, hS⟩ := Option.isSome_iff_exists.mp hu
    rw [(rename_eq_some_iff hfree).mpr ⟨u, hS, rfl⟩]
    rfl
  -- the new keys are those of the moved units
  rw [h.newKey_eq_moved hu, h.newKey_eq_moved hv] at heq
  rw [moved_inj hfree hu hv (hkey _ _ (there hu) (there hv) heq)]

/-- **A rename.** No unit may be there under the new path, and the units behind the rename have to
have distinct keys. -/
theorem rename (h : Describes counted J r) (hne : source ≠ target)
    (hfree : ∀ u : CodeUnit, u.file = target → J u = none)
    (hkey : ∀ u v, (J.rename source target u).isSome = true →
      (J.rename source target v).isSome = true → u.key = v.key → u = v) :
    Describes counted (J.rename source target) (r.rename source target) := by
  have hsep := h.separates hfree hkey
  have hsym := h.coherent.symmetric
  have there : ∀ {u : CodeUnit} {S : Finset Nat}, J u = some S → (J u).isSome = true :=
    Option.isSome_of_eq_some
  refine ⟨?entry, ?unit, ?pair, h.coherent.rename hne hsep, h.indexed.rename hne hsep.overlays⟩
  case entry =>
    intro v S hv
    obtain ⟨u, hu, rfl⟩ := (rename_eq_some_iff hfree).mp hv
    obtain ⟨e, he, hunit, hcount⟩ := h.entry u S hu
    rw [← h.newKey_eq_moved (there hu)]
    refine ⟨_, Registry.get?_rename_newKey hne hsep hsym.reciprocal he, ?_, hcount⟩
    show r.newUnit source target u.key e.unit = _
    rw [hunit, h.newUnit_eq_moved (there hu)]
  case unit =>
    intro key e' he'
    -- an entry behind the rename is one from before, carried over
    obtain ⟨k, e, he, rfl, rfl⟩ := (Registry.get?_rename_iff hne hsep hsym.reciprocal).mp he'
    obtain ⟨rfl, hu⟩ := h.unit k e he
    obtain ⟨S, hS⟩ := Option.isSome_iff_exists.mp hu
    have hunit : (r.carried source target e.unit.key e).unit = moved source target e.unit :=
      h.newUnit_eq_moved hu
    rw [hunit, h.newKey_eq_moved hu, (rename_eq_some_iff hfree).mpr ⟨e.unit, hS, rfl⟩]
    exact ⟨rfl, rfl⟩
  case pair =>
    intro v w S T hv hw hvw
    obtain ⟨u, hu, rfl⟩ := (rename_eq_some_iff hfree).mp hv
    obtain ⟨u', hu', rfl⟩ := (rename_eq_some_iff hfree).mp hw
    rw [← h.newKey_eq_moved (there hu), ← h.newKey_eq_moved (there hu'),
      Registry.coupling_rename_newKey hne hsep hsym h.coherent.closed (h.mem_entries (there hu))
        (h.mem_entries (there hu'))]
    exact h.pair u u' S T hu hu' fun heq => hvw (by rw [heq])

end Rename

/-! ## Deletions -/

/-- The units of other files stay. -/
theorem remove_eq_some_iff {file : String} {u : CodeUnit} {S : Finset Nat} :
    J.remove file u = some S ↔ J u = some S ∧ u.file ≠ file := by
  unfold Journal.remove
  by_cases hf : u.file = file <;> simp [hf]

/-- **The removal of a file.** The units of the file go on both sides, and no other entry lists one
of them any more. -/
theorem removeFile (h : Describes counted J r) (file : String) :
    Describes counted (J.remove file) (r.removeFile file) := by
  have hprunes := Registry.prunes_removeFile h.coherent.symmetric file
  have hmem : ∀ {u : CodeUnit}, (J u).isSome = true → u.file ≠ file →
      u.key ∈ (r.removeFile file).entries := fun {u} hu hf =>
    Registry.mem_removeFile.mpr ⟨h.mem_entries hu, fun hl => hf ((h.lists_iff hu).mp hl)⟩
  refine ⟨?entry, ?unit, ?pair, Registry.coherent_removeFile h.coherent file,
    h.indexed.removeFile file⟩
  case entry =>
    intro u S hu
    obtain ⟨hS, hf⟩ := remove_eq_some_iff.mp hu
    obtain ⟨e, he, hunit, hcount⟩ := h.entry u S hS
    obtain ⟨e', he'⟩ := SortedMap.mem_iff.mp (hmem (Option.isSome_of_eq_some hS) hf)
    obtain ⟨e₀, he₀, hunit', hcount', _⟩ := hprunes _ e' he'
    rw [he] at he₀
    rw [← Option.some.inj he₀] at hunit' hcount'
    exact ⟨e', he', hunit'.trans hunit, hcount'.trans hcount⟩
  case unit =>
    intro k e' he'
    obtain ⟨e, he, hunit, _⟩ := hprunes k e' he'
    obtain ⟨hk, hu⟩ := h.unit k e he
    obtain ⟨S, hS⟩ := Option.isSome_iff_exists.mp hu
    have hf : e.unit.file ≠ file := fun hf =>
      (Registry.mem_removeFile.mp (SortedMap.mem_of_get? he')).2
        (hk ▸ (h.lists_iff hu).mpr hf)
    rw [hunit, remove_eq_some_iff.mpr ⟨hS, hf⟩]
    exact ⟨hk, rfl⟩
  case pair =>
    -- of two units that stay neither is gone from the peers of the other
    intro u v S T hu hv huv
    obtain ⟨hS, hfu⟩ := remove_eq_some_iff.mp hu
    obtain ⟨hT, hfv⟩ := remove_eq_some_iff.mp hv
    rw [hprunes.coupling (hmem (Option.isSome_of_eq_some hS) hfu),
      if_neg fun hgone => hgone.2 (hmem (Option.isSome_of_eq_some hT) hfv)]
    exact h.pair u v S T hS hT huv

/-- Files are removed one after the other from the journal as from the registry. The induction is on
the files. -/
theorem removeFiles (h : Describes counted J r) (files : List String) :
    Describes counted (files.foldl (fun J file => J.remove file) J)
      (files.foldl (fun r file => r.removeFile file) r) := by
  induction files generalizing J r with
  | nil => exact h
  | cons file rest ih => exact ih (h.removeFile file)

/-! ## Pairs -/

/-- Where the touched keys are those of the units that have a position, the key of a unit is touched
exactly if the unit has the position. -/
theorem touched_iff (h : Describes counted J r) {i : Nat} {touched : SortedSet String}
    (htouched : ∀ k, k ∈ touched ↔ ∃ u, J.Noted i u ∧ u.key = k) {u : CodeUnit} {S : Finset Nat}
    (hu : J u = some S) : u.key ∈ touched ↔ i ∈ S := by
  rw [htouched]
  constructor
  · rintro ⟨v, ⟨T, hv, hT⟩, hvk⟩
    have huv : v = u := h.key_inj (Option.isSome_of_eq_some hv) (Option.isSome_of_eq_some hu) hvk
    rw [huv, hu] at hv
    rwa [Option.some.inj hv]
  · exact fun hS => ⟨u, ⟨S, hu, hS⟩, rfl⟩

/-- **Counting pairs.** The touched keys are those of the units that have the position of the
commit, which from then on is counted. -/
theorem couple (h : Describes counted J r) {i : Nat} (hi : counted i = false)
    {touched : SortedSet String} (htouched : ∀ k, k ∈ touched ↔ ∃ u, J.Noted i u ∧ u.key = k) :
    Describes (fun s => counted s || s == i) J (r.couple touched) := by
  have hthere : ∀ k, k ∈ touched → k ∈ r.entries := by
    intro k hk
    obtain ⟨u, ⟨S, hS, _⟩, rfl⟩ := (htouched k).mp hk
    exact h.mem_entries (Option.isSome_of_eq_some hS)
  refine ⟨?entry, ?unit, ?pair, h.coherent.couple hthere, h.indexed.couple touched⟩
  case entry =>
    intro u S hu
    obtain ⟨e, he, hunit, hcount⟩ := h.entry u S hu
    refine ⟨_, by rw [Registry.get?_couple, he, Option.map_some], ?_⟩
    by_cases ht : u.key ∈ touched <;> simp [ht, hunit, hcount]
  case unit =>
    intro k e' he'
    rw [Registry.get?_couple, Option.map_eq_some_iff] at he'
    obtain ⟨e, he, rfl⟩ := he'
    by_cases ht : k ∈ touched <;> simpa [ht] using h.unit k e he
  case pair =>
    -- both keys are touched exactly if the two units share the position
    intro u v S T hu hv huv
    have hkeys : v.key ≠ u.key := fun heq =>
      huv (h.key_inj (Option.isSome_of_eq_some hu) (Option.isSome_of_eq_some hv) heq.symm)
    rw [Registry.coupling_couple, h.pair u v S T hu hv huv, shared_or_eq hi]
    by_cases hST : i ∈ S ∧ i ∈ T
    · have hmem : u.key ∈ r.entries := h.mem_entries (Option.isSome_of_eq_some hu)
      rw [if_pos ⟨(h.touched_iff htouched hu).mpr hST.1,
        (h.touched_iff htouched hv).mpr hST.2, hkeys, hmem⟩,
        if_pos hST]
      unfold peerNumber
      by_cases h0 : shared counted S T = 0 <;> simp [h0]
    · rw [if_neg fun hall =>
        hST ⟨(h.touched_iff htouched hu).mp hall.1, (h.touched_iff htouched hv).mp hall.2.1⟩,
        if_neg hST, Nat.add_zero]

end Describes

end CoChange
