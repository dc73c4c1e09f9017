import CoChange.Proofs.Registry.Conservation
import CoChange.Proofs.Registry.TouchSet
import CoChange.Proofs.SortedMap.Sum
import Mathlib.Algebra.BigOperators.Group.Finset.Piecewise

/-!
# What commits add to a registry

Two numbers sum a registry up: the changes of all units (`Entries.total`), and the common changes
that all units list for their peers (`Entries.pairTotal`), where each pair stands twice.

* **`total_foldl`**, **`pairTotal_foldl`**: the events of a commit add one change for each key that
  they touch, and no common changes. Renames may neither give two units one key nor move what was
  touched before.
* **`pairTotal_couple`**: counting the pairs of `n` touched units then adds `n * (n - 1)`.
* **`total_applyCommit`**, **`pairTotal_applyCommit`**: so much a commit adds that deletes no file.
-/

namespace CoChange

namespace Entries

/-- The common changes that all units list for their peers. -/
def pairTotal (es : Entries) : Nat := (es.values.map fun e => e.couples.values.sum).sum

/-- The number that the entry under one key keeps for another key, zero where there is none. -/
def couplingAt (es : Entries) (j k : String) : Nat := (es.coupling j k).getD 0

theorem total_eq_sum_of_subset {es : Entries} {s : Finset String} (hs : ∀ k, k ∈ es → k ∈ s) :
    es.total = ∑ k ∈ s, es.countAt k :=
  SortedMap.sum_values es (·.count) hs

/-- **The common changes are a sum over any two keys of a set that has them all**, peers
included. -/
theorem pairTotal_eq_sum {es : Entries} (hclosed : es.Closed) {s : Finset String}
    (hs : ∀ k, k ∈ es → k ∈ s) : es.pairTotal = ∑ j ∈ s, ∑ k ∈ s, es.couplingAt j k := by
  rw [pairTotal, SortedMap.sum_values es _ hs]
  refine Finset.sum_congr rfl fun j _ => ?_
  cases hj : es.get? j with
  | none =>
    have hnone : ∀ k, es.couplingAt j k = 0 := fun k => by
      rw [couplingAt, coupling, hj]
      rfl
    rw [Finset.sum_eq_zero fun k _ => hnone k]
    rfl
  | some e =>
    -- peers are there themselves, so the sum over `s` has them all
    have hpeers : ∀ k, k ∈ e.couples → k ∈ s := fun k hk => by
      obtain ⟨n, hn⟩ := SortedMap.mem_iff.mp hk
      exact hs k (hclosed j k n (by rw [coupling_of_get? hj, hn]))
    have hsum := SortedMap.sum_values e.couples id hpeers
    rw [List.map_id] at hsum
    rw [Option.map_some, Option.getD_some, hsum]
    refine Finset.sum_congr rfl fun k _ => ?_
    rw [couplingAt, coupling_of_get? hj, Option.map_id, id]

/-- The keys as a finite set. -/
def keySet (es : Entries) : Finset String := es.keys.toFinset

theorem mem_keySet {es : Entries} {k : String} : k ∈ es.keySet ↔ k ∈ es :=
  List.mem_toFinset.trans SortedMap.mem_keys

end Entries

namespace Registry

open Entries

/-! ## Renames -/

section Rename

variable {source target : String} {r : Registry}

theorem keySet_rename (hne : source ≠ target) :
    (r.rename source target).entries.keySet = r.entries.keySet.image (r.newKey source target) := by
  refine Finset.ext fun k => ?_
  rw [mem_keySet, mem_entries_rename hne, Finset.mem_image]
  simp only [mem_keySet]

/-- **A rename that separates the units keeps the common changes.** Each entry is carried over with
its couplings, and no coupling is lost, since no two peers become one. -/
theorem pairTotal_rename (hne : source ≠ target) (hsep : r.Separates source target)
    (hm : r.entries.Mutual) : (r.rename source target).entries.pairTotal = r.entries.pairTotal := by
  have hclosed := hm.closed.rename hne hsep hm.symmetric
  have hinj : Set.InjOn (r.newKey source target) r.entries.keySet := fun j hj k hk =>
    hsep j k (mem_keySet.mp hj) (mem_keySet.mp hk)
  rw [pairTotal_eq_sum hclosed (fun _ => mem_keySet.mpr),
    pairTotal_eq_sum hm.closed (fun _ => mem_keySet.mpr), keySet_rename hne, Finset.sum_image hinj]
  refine Finset.sum_congr rfl fun j hj => ?_
  rw [Finset.sum_image hinj]
  refine Finset.sum_congr rfl fun k hk => ?_
  rw [couplingAt, couplingAt,
    coupling_rename_newKey hne hsep hm.symmetric hm.closed (mem_keySet.mp hj) (mem_keySet.mp hk)]

/-- So it keeps the changes. -/
theorem total_rename (hne : source ≠ target) (hsep : r.Separates source target)
    (hsym : r.entries.Symmetric) : (r.rename source target).entries.total = r.entries.total := by
  have hinj : Set.InjOn (r.newKey source target) r.entries.keySet := fun j hj k hk =>
    hsep j k (mem_keySet.mp hj) (mem_keySet.mp hk)
  rw [total_eq_sum_of_subset (fun _ => mem_keySet.mpr),
    total_eq_sum_of_subset (fun _ => mem_keySet.mpr), keySet_rename hne, Finset.sum_image hinj]
  refine Finset.sum_congr rfl fun k hk => ?_
  obtain ⟨e, he⟩ := SortedMap.mem_iff.mp (mem_keySet.mp hk)
  rw [countAt_of_get? (get?_rename_newKey hne hsep hsym.reciprocal he), countAt_of_get? he]
  rfl

end Rename

/-! ## Touches -/

namespace Pass

section Touch

variable {p : Pass} {u : CodeUnit}

/-- A touch adds a key to the touched ones, unless it is among them already. -/
theorem size_touched_touch :
    (p.touch u).touched.size = p.touched.size + if u.key ∈ p.touched then 0 else 1 := by
  have hset : (p.touch u).touched.keys.toFinset = insert u.key p.touched.keys.toFinset := by
    refine Finset.ext fun k => ?_
    rw [List.mem_toFinset, SortedMap.mem_keys, mem_touched_touch, Finset.mem_insert,
      List.mem_toFinset, SortedMap.mem_keys]
  have hmem : u.key ∈ p.touched.keys.toFinset ↔ u.key ∈ p.touched :=
    List.mem_toFinset.trans SortedMap.mem_keys
  rw [SortedMap.size_eq_card, SortedMap.size_eq_card, hset, Finset.card_insert_eq_ite]
  by_cases hu : u.key ∈ p.touched <;> simp only [hmem, hu, if_true, if_false, Nat.add_zero]

/-- The keys after a touch, and so those before it, are the keys before and the one that is
touched. -/
theorem mem_insert_of_mem_touch {k : String} (h : k ∈ (p.touch u).registry.entries) :
    k ∈ insert u.key p.registry.entries.keySet :=
  Finset.mem_insert.mpr ((mem_touch.mp h).imp_right mem_keySet.mpr)

/-- **A touch adds a change if its key was not touched before.** The sum is over the keys, of which
just one has another count. -/
theorem total_touch (hthere : u.key ∈ p.touched → u.key ∈ p.registry.entries) :
    (p.touch u).registry.entries.total =
      p.registry.entries.total + if u.key ∈ p.touched then 0 else 1 := by
  have hold : ∀ k, k ∈ p.registry.entries → k ∈ insert u.key p.registry.entries.keySet :=
    fun k hk => Finset.mem_insert_of_mem (mem_keySet.mpr hk)
  -- the touch raises one count, and only if it is the first one
  have hcount : ∀ k, (p.touch u).registry.entries.countAt k =
      p.registry.entries.countAt k + if u.key = k then
        (if u.key ∈ p.touched then 0 else 1) else 0 := by
    intro k
    by_cases hk : u.key = k
    · subst hk
      rw [if_pos rfl]
      by_cases ht : u.key ∈ p.touched
      · obtain ⟨e, he⟩ := SortedMap.mem_iff.mp (hthere ht)
        rw [if_pos ht, countAt, countAt, get?_touch, if_pos rfl, he]
        simp only [ht, if_true, Option.map_some, Option.getD_some, Nat.add_zero]
      · rw [if_neg ht, countAt_touch (Or.inr ht)]
    · rw [if_neg hk, Nat.add_zero, countAt, countAt, get?_touch, if_neg (Ne.symm hk)]
  rw [total_eq_sum_of_subset fun _ => mem_insert_of_mem_touch, total_eq_sum_of_subset hold,
    Finset.sum_congr rfl fun k _ => hcount k, Finset.sum_add_distrib, Finset.sum_ite_eq,
    if_pos (Finset.mem_insert_self _ _)]

/-- A touch leaves the sum of all couplings as it is. -/
theorem pairTotal_touch (hclosed : p.registry.entries.Closed) :
    (p.touch u).registry.entries.pairTotal = p.registry.entries.pairTotal := by
  have hold : ∀ k, k ∈ p.registry.entries → k ∈ insert u.key p.registry.entries.keySet :=
    fun k hk => Finset.mem_insert_of_mem (mem_keySet.mpr hk)
  rw [pairTotal_eq_sum (hclosed.touch u) fun _ => mem_insert_of_mem_touch,
    pairTotal_eq_sum hclosed hold]
  simp only [couplingAt, coupling_touch]

end Touch

/-! ## The events of a commit -/

section Events

variable {p : Pass} {events : List Event}

/-- **Events add one change for each key that they touch.** The induction is on the events. The keys
that are touched are counted on both sides. -/
theorem total_foldl (hm : p.registry.entries.Mutual) (hsep : p.Separated events)
    (hstay : p.TouchedStay events) (hthere : ∀ k, k ∈ p.touched → k ∈ p.registry.entries) :
    (events.foldl apply p).registry.entries.total + p.touched.size =
      p.registry.entries.total + (events.foldl apply p).touched.size := by
  induction events generalizing p with
  | nil => rfl
  | cons event rest ih =>
    -- a touch that counts is one more touched key, and a rename moves counts
    have hone : (p.apply event).registry.entries.total + p.touched.size =
        p.registry.entries.total + (p.apply event).touched.size := by
      cases event with
      | rename source target =>
        obtain ⟨hne, hseparates⟩ := hsep [] source target rest rfl
        exact congrArg (· + p.touched.size) (total_rename hne hseparates hm.symmetric)
      | touch u =>
        show (p.touch u).registry.entries.total + _ = _ + (p.touch u).touched.size
        rw [total_touch (hthere u.key), size_touched_touch]
        omega
    have hthere' : ∀ k, k ∈ ([event].foldl apply p).touched →
        k ∈ ([event].foldl apply p).registry.entries :=
      fun k hk => there_of_touchedStay hm hsep.head hstay.head hthere hk
    have hrest := ih (mutual_apply hm hsep.head) hsep.tail hstay.tail hthere'
    rw [List.foldl_cons]
    omega

/-- **Events add no common changes.** Touches read no couplings, and the renames are of the kind
that keeps them. -/
theorem pairTotal_foldl (hm : p.registry.entries.Mutual) (hsep : p.Separated events) :
    (events.foldl apply p).registry.entries.pairTotal = p.registry.entries.pairTotal := by
  induction events generalizing p with
  | nil => rfl
  | cons event rest ih =>
    rw [List.foldl_cons, ih (mutual_apply hm hsep.head) hsep.tail]
    cases event with
    | rename source target =>
      obtain ⟨hne, hseparates⟩ := hsep [] source target rest rfl
      exact pairTotal_rename hne hseparates hm
    | touch u => exact pairTotal_touch hm.closed

end Events

end Pass

/-! ## Counting pairs -/

/-- Counting pairs leaves the sum of all counts as it is. -/
theorem total_couple (touched : SortedSet String) (r : Registry) :
    (r.couple touched).entries.total = r.entries.total := by
  rw [total_eq_sum_of_subset (s := r.entries.keySet) fun k hk => mem_keySet.mpr (mem_couple.mp hk),
    total_eq_sum_of_subset fun _ => mem_keySet.mpr]
  refine Finset.sum_congr rfl fun k _ => ?_
  rw [countAt, countAt, get?_couple, Option.map_map]
  refine congrArg (fun n => Option.getD n 0)
    (congrArg (Option.map · (r.entries.get? k)) (funext fun e => ?_))
  by_cases hk : k ∈ touched <;> simp [hk]

/-- **Counting the pairs of `n` units adds `n * (n - 1)` common changes**, since each of them lists
all the others. -/
theorem pairTotal_couple {touched : SortedSet String} {r : Registry} (hclosed : r.entries.Closed)
    (hthere : ∀ k, k ∈ touched → k ∈ r.entries) :
    (r.couple touched).entries.pairTotal =
      r.entries.pairTotal + touched.size * (touched.size - 1) := by
  have hmem : ∀ k, k ∈ touched ↔ k ∈ touched.keys.toFinset := fun k =>
    (List.mem_toFinset.trans SortedMap.mem_keys).symm
  -- every ordered pair of two touched keys counts once more
  have hone : ∀ j ∈ r.entries.keySet, ∀ k, (r.couple touched).entries.couplingAt j k =
      r.entries.couplingAt j k + if (j, k) ∈ touched.keys.toFinset.offDiag then 1 else 0 := by
    intro j hj k
    have hpair : (j, k) ∈ touched.keys.toFinset.offDiag ↔ j ∈ touched ∧ k ∈ touched ∧ j ≠ k := by
      rw [Finset.mem_offDiag, ← hmem, ← hmem]
    rw [couplingAt, couplingAt, coupling_couple]
    by_cases hjk : j ∈ touched ∧ k ∈ touched ∧ j ≠ k
    · rw [if_pos ⟨hjk.1, hjk.2.1, hjk.2.2.symm, mem_keySet.mp hj⟩, if_pos (hpair.mpr hjk),
        Option.getD_some]
    · rw [if_neg fun h => hjk ⟨h.1, h.2.1, h.2.2.1.symm⟩, if_neg (hpair.not.mpr hjk), Nat.add_zero]
  have hsub : touched.keys.toFinset.offDiag ⊆ r.entries.keySet ×ˢ r.entries.keySet :=
    fun jk hjk => by
    obtain ⟨hj, hk, _⟩ := Finset.mem_offDiag.mp hjk
    exact Finset.mem_product.mpr ⟨mem_keySet.mpr (hthere _ ((hmem _).mpr hj)),
      mem_keySet.mpr (hthere _ ((hmem _).mpr hk))⟩
  have hnew : (∑ j ∈ r.entries.keySet, ∑ k ∈ r.entries.keySet,
      if (j, k) ∈ touched.keys.toFinset.offDiag then 1 else 0) =
        touched.size * (touched.size - 1) := by
    rw [← Finset.sum_product', Finset.sum_ite_mem, Finset.inter_eq_right.mpr hsub,
      ← Finset.card_eq_sum_ones, Finset.offDiag_card, ← SortedMap.size_eq_card, Nat.mul_sub,
      Nat.mul_one]
  have hall : ∀ k, k ∈ (r.couple touched).entries → k ∈ r.entries.keySet := fun k hk =>
    mem_keySet.mpr (mem_couple.mp hk)
  rw [pairTotal_eq_sum (hclosed.couple hthere) hall,
    pairTotal_eq_sum hclosed fun _ => mem_keySet.mpr,
    Finset.sum_congr rfl fun j hj => Finset.sum_congr rfl fun k _ => hone j hj k]
  simp only [Finset.sum_add_distrib]
  rw [hnew]

end Registry

/-! ## A commit -/

namespace Engine

open Registry

variable {q : UnitQuery} {r : Registry} {c : Commit}

/-- **A commit that deletes no file adds a change for each unit that it touches.** Pairs change no
count, and nothing is deleted. -/
theorem total_applyCommit (cap : Nat) (hm : r.entries.Mutual) (hsep : RenamesSeparate q r c)
    (hstay : Pass.TouchedStay ⟨r, ∅⟩ (c.events q)) (hkeep : deletedFiles c = []) :
    (applyCommit q cap r c).registry.entries.total =
      r.entries.total + (passOf q r c).touched.size := by
  have hpass : (passOf q r c).registry.entries.total + 0 =
      r.entries.total + (passOf q r c).touched.size :=
    Pass.total_foldl hm hsep.separated hstay fun k hk => absurd hk (SortedMap.not_mem_empty k)
  rw [applyCommit_eq, dropFiles, hkeep, List.foldl_nil, ← hpass, Nat.add_zero, coupleWithin]
  split
  · exact total_couple _ _
  · rfl

/-- **Without a cap it adds a common change for each two of these**, from both sides. Each pair of
touched keys raises the couplings of both of its units. -/
theorem pairTotal_applyCommit (hm : r.entries.Mutual) (hsep : RenamesSeparate q r c)
    (hstay : Pass.TouchedStay ⟨r, ∅⟩ (c.events q)) (hkeep : deletedFiles c = []) :
    (applyCommit q 0 r c).registry.entries.pairTotal =
      r.entries.pairTotal + (passOf q r c).touched.size * ((passOf q r c).touched.size - 1) := by
  have hpass : (passOf q r c).registry.entries.pairTotal = r.entries.pairTotal :=
    Pass.pairTotal_foldl hm hsep.separated
  have hthere : ∀ k, k ∈ (passOf q r c).touched → k ∈ (passOf q r c).registry.entries := fun k hk =>
    Pass.there_of_touchedStay hm hsep.separated hstay
      (fun k hk => absurd hk (SortedMap.not_mem_empty k)) hk
  have huncapped : withinCap 0 (passOf q r c).touched = true := rfl
  rw [applyCommit_eq, dropFiles, hkeep, List.foldl_nil, coupleWithin, if_pos huncapped,
    pairTotal_couple (mutual_passOf hm hsep).closed hthere, hpass]

end Engine

end CoChange
