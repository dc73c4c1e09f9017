import CoChange.Proofs.Registry.TableOrder

/-!
# What the cap on coupled units changes

A commit that touches more units than the cap admits does not have its pairs counted. From then on
two engines with different caps have different couplings, and renames and removals go by these.
Still the caps show in nothing but the couplings, and there a lower cap never leads to a larger
number.

* **`Pass.atMost_foldl`**: over the events of a commit, couplings that are at most as large stay so:
  both passes move the same units, and peers follow their units.
* **`atMost_applyCommit`**: so they do over a whole commit, as a commit that the lower cap admits is
  admitted by the other one as well.
* **`capping_keeps_counts`**: what two runs agree on, and how their couplings compare.

The second part needs what keeps couplings with their units: commits that name no path twice, and
units that stay apart (`Engine.Orderly`).
-/

namespace CoChange

/-! ## Orderly commits without their couplings -/

namespace Engine

open Registry

/-- Whether something holds at each rename does not depend on couplings if it does not at any
one. -/
theorem atRenames_bare {P : Pass → String → String → Prop}
    (hP : ∀ p source target, P p.bare source target ↔ P p source target) {p : Pass}
    {events : List Event} : Pass.AtRenames P p.bare events ↔ Pass.AtRenames P p events := by
  unfold Pass.AtRenames
  simp only [← Pass.bare_foldl, hP]

/-- Whether a commit is orderly for a registry has nothing to do with couplings, so it may be asked
of the bare one. -/
theorem orderly_bare {q : UnitQuery} {r : Registry} {c : Commit} :
    Orderly q r.bare c ↔ Orderly q r c := by
  have hsep : RenamesSeparate q r.bare c ↔ RenamesSeparate q r c :=
    atRenames_bare (p := ⟨r, ∅⟩) fun _ _ _ => separates_bare
  have hstays : Pass.TouchedStay ⟨r.bare, ∅⟩ (c.events q) ↔ Pass.TouchedStay ⟨r, ∅⟩ (c.events q) :=
    atRenames_bare (p := ⟨r, ∅⟩) fun p source target => by
      show (∀ k, k ∈ p.touched → k ∉ p.registry.bare.moves source target) ↔ _
      rw [moves_bare]
  exact ⟨fun h => ⟨hsep.mp h.separates, hstays.mp h.stays⟩,
    fun h => ⟨hsep.mpr h.separates, hstays.mpr h.stays⟩⟩

end Engine

/-! ## Couplings that are at most as large -/

namespace Entries

/-- No coupling is larger than that of the same keys in the second entries; one that is absent
counts as zero. -/
def AtMost (es es' : Entries) : Prop :=
  ∀ j k, (es.coupling j k).getD 0 ≤ (es'.coupling j k).getD 0

theorem AtMost.refl (es : Entries) : es.AtMost es := fun _ _ => Nat.le_refl _

/-- A removal on both sides keeps couplings below each other, if it takes out the same entries. A
peer that stays on the left stays on the right. -/
theorem AtMost.prunes {es es' left left' : Entries} (h : es.AtMost es') (hprunes : es.Prunes left)
    (hprunes' : es'.Prunes left') (hmem : ∀ k, k ∈ es ↔ k ∈ es')
    (hleft : ∀ k, k ∈ left ↔ k ∈ left') :
    left.AtMost left' := by
  intro j k
  by_cases hj : j ∈ left
  · rw [hprunes.coupling hj, hprunes'.coupling ((hleft j).mp hj)]
    simp only [hmem k, hleft k]
    split
    · exact Nat.le_refl 0
    · exact h j k
  · rw [coupling_eq_none_of_not_mem hj]
    exact Nat.zero_le _

end Entries

namespace Registry

open Entries

variable {r r' : Registry}

theorem mem_iff_of_bare (h : r.bare = r'.bare) (k : String) : k ∈ r.entries ↔ k ∈ r'.entries := by
  rw [← mem_bare, h, mem_bare]

/-- Both registries move the same units, and a peer on the left is relabelled like the same peer on
the right. As no two keys become one, each coupling is carried over on its own. -/
theorem atMost_rename {source target : String} (h : r.entries.AtMost r'.entries)
    (hbare : r.bare = r'.bare) (hne : source ≠ target) (hsep : r.Separates source target)
    (hm : r.entries.Mutual) (hm' : r'.entries.Mutual) :
    (r.rename source target).entries.AtMost (r'.rename source target).entries := by
  have hsep' : r'.Separates source target := by
    rw [← separates_bare, ← hbare, separates_bare]
    exact hsep
  have hnew : ∀ k, r.newKey source target k = r'.newKey source target k := by
    intro k
    rw [← newKey_bare, hbare, newKey_bare]
  intro j' k'
  cases hn : (r.rename source target).entries.coupling j' k' with
  | none => exact Nat.zero_le _
  | some n =>
    -- a number that is there belongs to units that have come to these keys in both registries
    obtain ⟨j, k, rfl, rfl, hjk⟩ := (coupling_rename hne hsep hm.symmetric hm.closed).mp hn
    have hj : j ∈ r'.entries := (mem_iff_of_bare hbare j).mp (mem_of_coupling hjk)
    have hk : k ∈ r'.entries := (mem_iff_of_bare hbare k).mp (hm.closed j k n hjk)
    have hle := h j k
    rw [hjk] at hle
    rw [hnew j, hnew k, coupling_rename_newKey hne hsep' hm'.symmetric hm'.closed hj hk]
    exact hle

/-- What is few enough for a cap is few enough for a higher one, and for none. -/
theorem withinCap_mono {cap cap' : Nat} (hcap : 0 < cap) (hcaps : cap ≤ cap' ∨ cap' = 0)
    {touched : SortedSet String} (h : withinCap cap touched = true) :
    withinCap cap' touched = true := by
  unfold withinCap at h ⊢
  simp only [Bool.or_eq_true, decide_eq_true_eq] at h ⊢
  omega

/-- Pairs that are counted only raise couplings. -/
theorem atMost_couple (touched : SortedSet String) (r : Registry) :
    r.entries.AtMost (r.couple touched).entries := by
  intro j k
  rw [coupling_couple]
  split
  · show _ ≤ (r.entries.coupling j k).getD 0 + 1
    omega
  · exact Nat.le_refl _

/-- A lower cap counts pairs only where a higher one, or none, counts them as well. If both count
them, each coupling is raised by as much on either side. -/
theorem atMost_coupleWithin {cap cap' : Nat} (hcap : 0 < cap) (hcaps : cap ≤ cap' ∨ cap' = 0)
    (h : r.entries.AtMost r'.entries) (hmem : ∀ k, k ∈ r.entries ↔ k ∈ r'.entries)
    (touched : SortedSet String) :
    (r.coupleWithin cap touched).entries.AtMost (r'.coupleWithin cap' touched).entries := by
  unfold coupleWithin
  by_cases hwithin : withinCap cap touched = true
  · -- then the pairs are counted on both sides
    rw [if_pos hwithin, if_pos (withinCap_mono hcap hcaps hwithin)]
    intro j k
    rw [coupling_couple, coupling_couple]
    simp only [hmem j]
    have hle := h j k
    split
    · show (r.entries.coupling j k).getD 0 + 1 ≤ (r'.entries.coupling j k).getD 0 + 1
      omega
    · exact hle
  · rw [if_neg hwithin]
    split
    · exact fun j k => (h j k).trans (atMost_couple touched r' j k)
    · exact h

/-- **Over events that keep units apart, couplings that are at most as large stay so.** The
induction is on the events. A touch reads no couplings, and a rename carries each coupling over by
itself. -/
theorem Pass.atMost_foldl {p p' : Pass} {events : List Event}
    (h : p.registry.entries.AtMost p'.registry.entries) (hbare : p.bare = p'.bare)
    (hm : p.registry.entries.Mutual) (hm' : p'.registry.entries.Mutual)
    (hsep : p.Separated events) :
    (events.foldl apply p).registry.entries.AtMost (events.foldl apply p').registry.entries := by
  induction events generalizing p p' with
  | nil => exact h
  | cons event rest ih =>
    have hregistry : p.registry.bare = p'.registry.bare := congrArg Pass.registry hbare
    have hsep' : p'.Separated (event :: rest) := by
      have hcongr {p : Pass} : Pass.Separated p.bare (event :: rest) ↔
          p.Separated (event :: rest) :=
        Engine.atRenames_bare fun _ _ _ => and_congr_right fun _ => separates_bare
      rw [← hcongr, ← hbare, hcongr]
      exact hsep
    -- the two passes differ in their peers only, so the renames separate the other one, too
    refine ih ?_ ?_ (mutual_apply hm hsep.head) (mutual_apply hm' hsep'.head) hsep.tail
    · cases event with
      | touch u =>
        intro j k
        show ((p.touch u).registry.entries.coupling j k).getD 0 ≤
          ((p'.touch u).registry.entries.coupling j k).getD 0
        rw [coupling_touch, coupling_touch]
        exact h j k
      | rename source target =>
        obtain ⟨hne, hapart⟩ := hsep [] source target rest rfl
        exact atMost_rename h hregistry hne hapart hm hm'
    · rw [bare_apply, hbare, bare_apply]

end Registry

namespace Engine

open Registry

/-! ## Two runs -/

/-- **A commit keeps couplings at most as large**, if its pairs are counted under the second cap
whenever they are under the first one. -/
theorem atMost_applyCommit {q : UnitQuery} {cap cap' : Nat} {r r' : Registry} {c : Commit}
    (hcap : 0 < cap) (hcaps : cap ≤ cap' ∨ cap' = 0) (h : r.entries.AtMost r'.entries)
    (hbare : r.bare = r'.bare) (hm : r.entries.Mutual) (hm' : r'.entries.Mutual)
    (hsep : RenamesSeparate q r c) (hsep' : RenamesSeparate q r' c) :
    (applyCommit q cap r c).registry.entries.AtMost (applyCommit q cap' r' c).registry.entries := by
  have hstart : Pass.bare ⟨r, ∅⟩ = Pass.bare ⟨r', ∅⟩ := congrArg (Pass.mk · ∅) hbare
  have hpass : (passOf q r c).bare = (passOf q r' c).bare := by
    rw [bare_passOf, hbare, bare_passOf]
  have htouched : (passOf q r c).touched = (passOf q r' c).touched := by
    show (passOf q r c).bare.touched = (passOf q r' c).bare.touched
    rw [hpass]
  have hthere : ∀ k, k ∈ (passOf q r c).registry.entries ↔ k ∈ (passOf q r' c).registry.entries :=
    mem_iff_of_bare (congrArg Pass.registry hpass)
  -- the events keep the order of the counts, and so do the pairs of one commit and the deletions
  have hevents := Pass.atMost_foldl h hstart hm hm' hsep.separated
  have hcoupled := atMost_coupleWithin hcap hcaps hevents hthere (passOf q r c).touched
  have hprunes' := prunes_applyCommit cap' hm' hsep'
  rw [← htouched] at hprunes'
  refine hcoupled.prunes (prunes_applyCommit cap hm hsep) hprunes' ?_ ?_
  · refine mem_iff_of_bare ?_
    rw [bare_coupleWithin, bare_coupleWithin]
    exact congrArg Pass.registry hpass
  · exact mem_iff_of_bare (by rw [bare_applyCommit, bare_applyCommit, hbare])

/-- Two engines that have consumed the same under different caps. -/
structure CappedBelow (e e' : Engine) : Prop where
  bare : e.bare = e'.bare
  regular : e.registry.Regular
  coherent : e.registry.entries.Coherent
  coherent' : e'.registry.entries.Coherent
  atMost : e.registry.entries.AtMost e'.registry.entries

section Runs

variable {e e' : Engine} {c : Commit} {commits : List Commit}

/-- One commit keeps the one engine below the other, with the hash tables in any orders. Orders do
not matter because the renames of the commit are unambiguous on both sides. -/
theorem CappedBelow.step (h : e.CappedBelow e') (hcap : 0 < e.cap)
    (hcaps : e.cap ≤ e'.cap ∨ e'.cap = 0) (hkeeps : e.KeepsApart (c :: commits))
    (hnames : c.NamesApart) (orders orders' : TableOrders) :
    (e.stepIn orders c).CappedBelow (e'.stepIn orders' c) := by
  obtain ⟨hquery, -, hregistry, -, -, -, -⟩ := Engine.mk.inj h.bare
  have htakes : e.takes c = e'.takes c := by
    rw [← takes_bare, h.bare, takes_bare]
  -- what makes a commit orderly does not look at the peers
  have horderly : e.takes c = true → Orderly e.query e.registry c := fun htaken =>
    orderly_of_keepsApart hkeeps h.regular htaken hnames
  have horderly' : e'.takes c = true → Orderly e'.query e'.registry c := fun htaken => by
    rw [← orderly_bare, ← hregistry, ← hquery, orderly_bare]
    exact horderly (htakes.trans htaken)
  -- so the orders of the hash tables do not matter in either run
  rw [stepIn_eq_step (Orderly.unambiguous horderly h.coherent),
    stepIn_eq_step (Orderly.unambiguous horderly' h.coherent')]
  have hbare : (e.step c).bare = (e'.step c).bare := bare_run h.bare [c]
  have hregular := hkeeps.regular_step h.regular
  cases htaken : e.takes c with
  | false =>
    -- a merge that is passed over changes neither registry
    have hsame : (e.step c).registry = e.registry := by
      rw [registry_step, htaken]
      rfl
    have hsame' : (e'.step c).registry = e'.registry := by
      rw [registry_step, ← htakes, htaken]
      rfl
    refine ⟨hbare, hregular, ?_, ?_, ?_⟩
    · rw [hsame]
      exact h.coherent
    · rw [hsame']
      exact h.coherent'
    · rw [hsame, hsame']
      exact h.atMost
  | true =>
    have horderly := horderly htaken
    have horderly' := horderly' (htakes.symm.trans htaken)
    refine ⟨hbare, hregular, coherent_step h.coherent horderly.separates horderly.stays,
      coherent_step h.coherent' horderly'.separates horderly'.stays, ?_⟩
    have hseparates' := horderly'.separates
    rw [registry_step, registry_step, ← htakes, htaken, if_pos rfl, if_pos rfl, ← hquery]
    rw [← hquery] at hseparates'
    exact atMost_applyCommit hcap hcaps h.atMost hregistry ⟨h.coherent.symmetric, h.coherent.closed⟩
      ⟨h.coherent'.symmetric, h.coherent'.closed⟩ horderly.separates hseparates'

/-- **Of two engines, the one with the lower cap has couplings that are at most as large**, after
any commits that name no path twice and keep units apart, whatever the orders of the hash tables are
in either run. -/
theorem CappedBelow.runIn (h : e.CappedBelow e') (hcap : 0 < e.cap)
    (hcaps : e.cap ≤ e'.cap ∨ e'.cap = 0) (hkeeps : e.KeepsApart commits)
    (hnames : ∀ c ∈ commits, c.NamesApart) (orders orders' : TableOrders) :
    (e.runIn orders commits).CappedBelow (e'.runIn orders' commits) := by
  induction commits generalizing e e' with
  | nil => exact h
  | cons c rest ih =>
    obtain ⟨hfirst, hrest⟩ := List.forall_mem_cons.mp hnames
    have hunambiguous : e.Unambiguous [c] :=
      Orderly.unambiguous (fun htaken => orderly_of_keepsApart hkeeps h.regular htaken hfirst)
        h.coherent
    have hkeeps' : (e.stepIn orders c).KeepsApart rest := by
      rw [stepIn_eq_step hunambiguous]
      exact hkeeps.tail
    rw [runIn_cons, runIn_cons]
    refine ih (h.step hcap hcaps hkeeps hfirst orders orders') ?_ ?_ hkeeps' hrest
    · rwa [cap_stepIn]
    · rwa [cap_stepIn, cap_stepIn]

end Runs

end Engine

end CoChange
