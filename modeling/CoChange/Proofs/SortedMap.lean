import CoChange.SortedMap.Basic
import Mathlib.Data.List.Nodup

/-!
# Sorted maps are their look-ups

What `get?` reads after each operation on a sorted map, and that nothing else matters:

* **`ext_get?`**: two maps with the same look-ups are the same map. The order of the keys is part of
  the type, so there is only one list of entries for a given set of look-ups.
* **`get?_insert`**, **`get?_erase`**, **`get?_mapValues`**, **`get?_unionWith`**, …: one equation
  for each operation. Everything further on reads a map through these and never through its list.
* **`get?_foldl_insert_of_mem`**, **`get?_ofList_eq_some_iff`**: what a series of insertions leaves
  when no key occurs twice.
* **`get?_foldl_insert_eq_some_iff`**: what it leaves when keys may occur twice.
-/

namespace CoChange

namespace SortedMap

variable {κ α β : Type} [LT κ]

theorem nodup_keys [LinearKeys κ] (m : SortedMap κ α) : m.keys.Nodup := by
  rw [keys, List.nodup_iff_pairwise_ne, List.pairwise_map]
  refine m.sorted.imp fun {a b} hlt heq => ?_
  rw [heq] at hlt
  exact LinearKeys.irrefl _ hlt

theorem size_eq_length_keys (m : SortedMap κ α) : m.size = m.keys.length := by
  simp [size, keys]

variable [DecidableEq κ]

/-! ## Look-ups and the list of entries -/

omit [LT κ] in
/-- Looking a key up goes by its first entry, as an equation without a match. -/
theorem lookup_cons_eq (e : κ × α) (l : List (κ × α)) (k : κ) :
    (e :: l).lookup k = if k = e.1 then some e.2 else l.lookup k := by
  rw [List.lookup_cons]
  by_cases hk : k = e.1
  · subst hk; simp
  · have hne : (k == e.1) = false := by simpa using hk
    rw [hne, if_neg hk]

/-- A list in strictly increasing order of its keys holds at most one value under a key, so looking
a key up finds the pair wherever it stands. -/
theorem lookup_eq_some_iff_mem [LinearKeys κ] {l : List (κ × α)}
    (h : l.Pairwise (fun a b => a.1 < b.1)) {k : κ} {v : α} :
    l.lookup k = some v ↔ (k, v) ∈ l := by
  induction l with
  | nil => simp
  | cons e rest ih =>
    obtain ⟨k', v'⟩ := e
    have hrest : ∀ a ∈ rest, k' < a.1 := fun a ha => List.rel_of_pairwise_cons h ha
    rw [lookup_cons_eq]
    by_cases hk : k = k'
    · subst hk
      -- the key stands in front, so it cannot come again behind
      have hnot : (k, v) ∉ rest := fun hm => LinearKeys.irrefl k (hrest _ hm)
      simp [hnot, eq_comm]
    · simp [ih h.of_cons, hk]

theorem get?_eq_some_iff [LinearKeys κ] {m : SortedMap κ α} {k : κ} {v : α} :
    m.get? k = some v ↔ (k, v) ∈ m.toList :=
  lookup_eq_some_iff_mem m.sorted

theorem mem_iff_isSome {m : SortedMap κ α} {k : κ} : k ∈ m ↔ (m.get? k).isSome = true := Iff.rfl

theorem mem_iff {m : SortedMap κ α} {k : κ} : k ∈ m ↔ ∃ v, m.get? k = some v := by
  rw [mem_iff_isSome, Option.isSome_iff_exists]

theorem mem_of_get? {m : SortedMap κ α} {k : κ} {v : α} (h : m.get? k = some v) : k ∈ m :=
  mem_iff.mpr ⟨v, h⟩

theorem get?_eq_none_iff {m : SortedMap κ α} {k : κ} : m.get? k = none ↔ k ∉ m := by
  rw [mem_iff_isSome, Option.isSome_iff_ne_none, not_not]

theorem contains_eq_decide {m : SortedMap κ α} {k : κ} : m.contains k = decide (k ∈ m) := by
  rw [Bool.eq_iff_iff, decide_eq_true_iff]
  exact Iff.rfl

theorem getD_eq (m : SortedMap κ α) (k : κ) (d : α) : m.getD k d = (m.get? k).getD d := rfl

/-- The listed keys are those of the map. -/
theorem mem_keys [LinearKeys κ] {m : SortedMap κ α} {k : κ} : k ∈ m.keys ↔ k ∈ m := by
  rw [keys, List.mem_map, mem_iff]
  constructor
  · rintro ⟨⟨k', v⟩, hm, rfl⟩
    exact ⟨v, get?_eq_some_iff.mpr hm⟩
  · rintro ⟨v, hv⟩
    exact ⟨(k, v), get?_eq_some_iff.mp hv, rfl⟩

/-- A key with its value, from the list of entries, is what a look-up reads. -/
theorem get?_of_mem_toList [LinearKeys κ] {m : SortedMap κ α} {e : κ × α} (h : e ∈ m.toList) :
    m.get? e.1 = some e.2 :=
  get?_eq_some_iff.mpr h

/-- There is only one entry under a key. -/
theorem filter_key [LinearKeys κ] {m : SortedMap κ α} {k : κ} {v : α} (h : m.get? k = some v) :
    m.toList.filter (·.1 == k) = [(k, v)] := by
  have hlist : ∀ l : List (κ × α), l.Pairwise (fun a b => a.1 < b.1) → (k, v) ∈ l →
      l.filter (·.1 == k) = [(k, v)] := by
    intro l hsorted hmem
    induction l with
    | nil => exact absurd hmem List.not_mem_nil
    | cons e l ih =>
      have hlt : ∀ a ∈ l, e.1 < a.1 := (List.pairwise_cons.mp hsorted).1
      rcases List.mem_cons.mp hmem with rfl | hmem
      · -- keys grow strictly, so the key does not come again
        have hrest : l.filter (·.1 == k) = [] := List.filter_eq_nil_iff.mpr fun a ha heq => by
          have hkey : a.1 = k := eq_of_beq heq
          exact LinearKeys.irrefl k (hkey ▸ hlt a ha)
        rw [List.filter_cons_of_pos (by simp), hrest]
      · have hne : ¬ (e.1 == k) = true := fun heq => by
          have hkey : e.1 = k := eq_of_beq heq
          exact LinearKeys.irrefl k (hkey ▸ hlt (k, v) hmem)
        rw [List.filter_cons, if_neg hne, ih (List.pairwise_cons.mp hsorted).2 hmem]
  exact hlist m.toList m.sorted (get?_eq_some_iff.mp h)

/-- A map that is not empty has some key. -/
theorem isEmpty_eq_false_iff [LinearKeys κ] {m : SortedMap κ α} : m.isEmpty = false ↔
    ∃ k, k ∈ m := by
  rw [isEmpty, List.isEmpty_eq_false_iff_exists_mem]
  constructor
  · rintro ⟨e, he⟩
    exact ⟨e.1, mem_of_get? (get?_of_mem_toList he)⟩
  · rintro ⟨k, hk⟩
    obtain ⟨v, hv⟩ := mem_iff.mp hk
    exact ⟨(k, v), get?_eq_some_iff.mp hv⟩

/-- **Two maps with the same look-ups are the same map.** Their lists have the same members, and a
strict order leaves only one way to list them. -/
theorem ext_get? [LinearKeys κ] {m m' : SortedMap κ α} (h : ∀ k, m.get? k = m'.get? k) :
    m = m' := by
  obtain ⟨l, hl⟩ := m
  obtain ⟨l', hl'⟩ := m'
  have hmem : ∀ e, e ∈ l ↔ e ∈ l' := by
    rintro ⟨k, v⟩
    rw [← lookup_eq_some_iff_mem hl, ← lookup_eq_some_iff_mem hl']
    exact iff_of_eq (congrArg (· = some v) (h k))
  have hnodup : ∀ {l : List (κ × α)}, l.Pairwise (fun a b => a.1 < b.1) → l.Nodup := by
    intro l hl
    refine List.nodup_iff_pairwise_ne.mpr (hl.imp fun {a b} hlt heq => ?_)
    rw [heq] at hlt
    exact LinearKeys.irrefl _ hlt
  -- both lists are sorted and have the same entries
  have hperm : l.Perm l' := (List.perm_ext_iff_of_nodup (hnodup hl) (hnodup hl')).mpr hmem
  have heq : l = l' := hperm.eq_of_pairwise
    (fun a b _ _ hab hba => (LinearKeys.irrefl _ (LinearKeys.trans hab hba)).elim) hl hl'
  subst heq
  rfl

/-! ## One equation for each operation -/

@[simp] theorem get?_empty (k : κ) : (∅ : SortedMap κ α).get? k = none := rfl

theorem not_mem_empty (k : κ) : k ∉ (∅ : SortedMap κ α) := by
  rw [← get?_eq_none_iff, get?_empty]

/-- To change the values of a map changes what is read under each key, and no key. -/
theorem get?_mapValues (f : κ → α → β) (m : SortedMap κ α) (k : κ) :
    (m.mapValues f).get? k = (m.get? k).map (f k) := by
  obtain ⟨l, hl⟩ := m
  show (l.map fun e => (e.1, f e.1 e.2)).lookup k = (l.lookup k).map (f k)
  clear hl
  induction l with
  | nil => rfl
  | cons e rest ih =>
    rw [List.map_cons, lookup_cons_eq, lookup_cons_eq, ih]
    by_cases hk : k = e.1
    · rw [if_pos hk, if_pos hk, hk]
      rfl
    · rw [if_neg hk, if_neg hk]

theorem mem_mapValues {f : κ → α → β} {m : SortedMap κ α} {k : κ} : k ∈ m.mapValues f ↔ k ∈ m := by
  rw [mem_iff_isSome, mem_iff_isSome, get?_mapValues, Option.isSome_map]

theorem get?_filter [LinearKeys κ] (p : κ → α → Bool) (m : SortedMap κ α) (k : κ) :
    (m.filter p).get? k = (m.get? k).filter (p k) := by
  refine Option.ext fun v => ?_
  rw [Option.filter_eq_some_iff, get?_eq_some_iff, get?_eq_some_iff]
  simp only [filter, List.mem_filter]

/-- After a removal nothing is left under the key, and all else is as before. -/
theorem get?_erase [LinearKeys κ] (k k' : κ) (m : SortedMap κ α) :
    (m.erase k).get? k' = if k' = k then none else m.get? k' := by
  rw [erase, get?_filter]
  by_cases hk : k' = k
  · subst hk; cases m.get? k' <;> simp [Option.filter]
  · have hne : (k' != k) = true := by simpa using hk
    cases m.get? k' <;> simp [Option.filter, hne, hk]

/-- Values may be changed before or after a removal. -/
theorem mapValues_erase [LinearKeys κ] (f : κ → α → β) (k : κ) (m : SortedMap κ α) :
    (m.erase k).mapValues f = (m.mapValues f).erase k := by
  refine ext_get? fun k' => ?_
  rw [get?_mapValues, get?_erase, get?_erase, get?_mapValues]
  by_cases hk : k' = k
  · rw [if_pos hk, if_pos hk, Option.map_none]
  · rw [if_neg hk, if_neg hk]

theorem mem_erase [LinearKeys κ] {k k' : κ} {m : SortedMap κ α} :
    k' ∈ m.erase k ↔ k' ≠ k ∧ k' ∈ m := by
  rw [mem_iff_isSome, get?_erase, mem_iff_isSome]
  by_cases hk : k' = k <;> simp [hk]

section Ordered

variable [DecidableLT κ] [LinearKeys κ]

omit [LinearKeys κ] in
/-- An inserted entry is found under its key, and all others are found as before. The induction is
on the entries in front of it. -/
theorem lookup_insertEntry (l : List (κ × α)) (k k' : κ) (v : α) :
    (insertEntry k v l).lookup k' = if k' = k then some v else l.lookup k' := by
  induction l with
  | nil => rw [insertEntry, lookup_cons_eq]
  | cons e rest ih =>
    unfold insertEntry
    by_cases hlt : k < e.1
    · rw [if_pos hlt, lookup_cons_eq]
    · rw [if_neg hlt]
      by_cases heq : k = e.1
      · -- the new value takes the place of the old one
        rw [if_pos heq, lookup_cons_eq, lookup_cons_eq, ← heq]
        by_cases hk : k' = k <;> simp [hk]
      · rw [if_neg heq, lookup_cons_eq, lookup_cons_eq, ih]
        by_cases hk : k' = e.1
        · subst hk; simp [Ne.symm heq]
        · simp [hk]

theorem get?_insert (k k' : κ) (v : α) (m : SortedMap κ α) :
    (m.insert k v).get? k' = if k' = k then some v else m.get? k' :=
  lookup_insertEntry m.toList k k' v

@[simp] theorem get?_insert_self (k : κ) (v : α) (m : SortedMap κ α) :
    (m.insert k v).get? k = some v := by
  rw [get?_insert, if_pos rfl]

/-- Values may be changed before or after an insertion. -/
theorem mapValues_insert (f : κ → α → β) (k : κ) (v : α) (m : SortedMap κ α) :
    (m.insert k v).mapValues f = (m.mapValues f).insert k (f k v) := by
  refine ext_get? fun k' => ?_
  rw [get?_mapValues, get?_insert, get?_insert, get?_mapValues]
  by_cases hk : k' = k
  · rw [if_pos hk, if_pos hk, hk, Option.map_some]
  · rw [if_neg hk, if_neg hk]

theorem mem_insert {k k' : κ} {v : α} {m : SortedMap κ α} :
    k' ∈ m.insert k v ↔ k' = k ∨ k' ∈ m := by
  rw [mem_iff_isSome, get?_insert, mem_iff_isSome]
  by_cases hk : k' = k <;> simp [hk]

/-- In merged entries each key is looked up on both sides. The order of the keys is what makes an
entry that is behind the other list's head be missing there. -/
theorem lookup_mergeEntries {f : α → α → α} {l l' : List (κ × α)}
    (h : l.Pairwise (fun a b => a.1 < b.1)) (h' : l'.Pairwise (fun a b => a.1 < b.1)) (k : κ) :
    (mergeEntries f l l').lookup k = Option.merge f (l.lookup k) (l'.lookup k) := by
  -- a key in front of a list comes before all keys of the other list behind a larger front
  have absent {e : κ × α} {l : List (κ × α)} {j : κ}
      (h : (e :: l).Pairwise (fun a b => a.1 < b.1)) (hj : j < e.1) : (e :: l).lookup j = none := by
    rw [List.lookup_eq_none_iff]
    intro a ha
    rcases List.mem_cons.mp ha with rfl | ha
    · simpa using fun heq => LinearKeys.irrefl _ (heq ▸ hj)
    · have hlt := LinearKeys.trans hj (List.rel_of_pairwise_cons h ha)
      simpa using fun heq => LinearKeys.irrefl _ (heq ▸ hlt)
  fun_induction mergeEntries f l l' with
  | case1 => simp
  | case2 => simp
  | case3 e l e' l' hlt ih =>
    rw [lookup_cons_eq, lookup_cons_eq e, ih h.of_cons h']
    by_cases hk : k = e.1
    · rw [if_pos hk, if_pos hk, absent h' (hk ▸ hlt), Option.merge_none_right]
    · rw [if_neg hk, if_neg hk]
  | case4 e l e' l' _ hlt ih =>
    rw [lookup_cons_eq, lookup_cons_eq e', ih h h'.of_cons]
    by_cases hk : k = e'.1
    · rw [if_pos hk, if_pos hk, absent h (hk ▸ hlt), Option.merge_none_left]
    · rw [if_neg hk, if_neg hk]
  | case5 e l e' l' hlt hlt' ih =>
    have heq : e.1 = e'.1 := LinearKeys.eq_of_not_lt hlt hlt'
    rw [lookup_cons_eq, lookup_cons_eq, lookup_cons_eq, ih h.of_cons h'.of_cons, ← heq]
    by_cases hk : k = e.1
    · rw [if_pos hk, if_pos hk, if_pos hk, Option.merge_some_some]
    · rw [if_neg hk, if_neg hk, if_neg hk]

theorem get?_unionWith (f : α → α → α) (m m' : SortedMap κ α) (k : κ) :
    (m.unionWith f m').get? k = Option.merge f (m.get? k) (m'.get? k) :=
  lookup_mergeEntries m.sorted m'.sorted k

theorem mem_unionWith {f : α → α → α} {m m' : SortedMap κ α} {k : κ} :
    k ∈ m.unionWith f m' ↔ k ∈ m ∨ k ∈ m' := by
  rw [mem_iff_isSome, get?_unionWith, Option.isSome_merge, Bool.or_eq_true]
  exact Iff.rfl

theorem unionWith_empty (f : α → α → α) (m : SortedMap κ α) : m.unionWith f ∅ = m := by
  refine ext_get? fun k => ?_
  rw [get?_unionWith, get?_empty, Option.merge_none_right]

/-- Three maps are united the same in either grouping, if values are combined so. -/
theorem unionWith_assoc {f : α → α → α} [Std.Associative f] (a b c : SortedMap κ α) :
    (a.unionWith f b).unionWith f c = a.unionWith f (b.unionWith f c) := by
  refine ext_get? fun k => ?_
  have hassoc : ∀ x y z : Option α,
      Option.merge f (Option.merge f x y) z = Option.merge f x (Option.merge f y z) :=
    Std.Associative.assoc
  simp only [get?_unionWith, hassoc]

/-- Where two maps share a key, the order of their values has to be of no matter to `f`. -/
theorem unionWith_comm {f : α → α → α} {m m' : SortedMap κ α}
    (h : ∀ k v v', m.get? k = some v → m'.get? k = some v' → f v v' = f v' v) :
    m.unionWith f m' = m'.unionWith f m := by
  refine ext_get? fun k => ?_
  rw [get?_unionWith, get?_unionWith]
  cases hm : m.get? k with
  | none => simp
  | some v =>
    cases hm' : m'.get? k with
    | none => simp
    | some v' => simpa using h k v v' hm hm'

/-! ## Series of insertions and removals -/

/-- Insertions under other keys leave a look-up alone. -/
theorem get?_foldl_insert_of_not_mem {l : List (κ × α)} {k : κ} (h : k ∉ l.map (·.1))
    (m : SortedMap κ α) : (l.foldl (fun m e => m.insert e.1 e.2) m).get? k = m.get? k := by
  induction l generalizing m with
  | nil => rfl
  | cons e rest ih =>
    rw [List.map_cons, List.mem_cons, not_or] at h
    rw [List.foldl_cons, ih h.2, get?_insert, if_neg h.1]

/-- What stands in a map after several insertions was inserted or has stood there before. -/
theorem get?_foldl_insert_cases {l : List (κ × α)} {m : SortedMap κ α} {k : κ} {v : α}
    (h : (l.foldl (fun m e => m.insert e.1 e.2) m).get? k = some v) :
    (k, v) ∈ l ∨ m.get? k = some v := by
  induction l generalizing m with
  | nil => exact Or.inr h
  | cons e rest ih =>
    rcases ih h with hrest | hins
    · exact Or.inl (List.mem_cons_of_mem _ hrest)
    · rw [get?_insert] at hins
      split at hins
      · rename_i hk
        exact Or.inl (List.mem_cons.mpr (Or.inl (Prod.ext hk (Option.some.inj hins).symm)))
      · exact Or.inr hins

/-- Of several insertions, no two under one key, each can be read afterwards. -/
theorem get?_foldl_insert_of_mem {l : List (κ × α)} (hl : (l.map (·.1)).Nodup) {e : κ × α}
    (he : e ∈ l) (m : SortedMap κ α) :
    (l.foldl (fun m e => m.insert e.1 e.2) m).get? e.1 = some e.2 := by
  induction l generalizing m with
  | nil => simp at he
  | cons a rest ih =>
    rw [List.map_cons, List.nodup_cons] at hl
    rw [List.foldl_cons]
    rcases List.mem_cons.mp he with rfl | he
    · rw [get?_foldl_insert_of_not_mem hl.1, get?_insert_self]
    · exact ih hl.2 he _

/-- Insertions under different keys can be made in any order. -/
theorem foldl_insert_perm {l l' : List (κ × α)} (h : l.Perm l') (hl' : (l'.map (·.1)).Nodup)
    (m : SortedMap κ α) :
    l.foldl (fun m e => m.insert e.1 e.2) m = l'.foldl (fun m e => m.insert e.1 e.2) m := by
  have hl : (l.map (·.1)).Nodup := (h.map _).nodup_iff.mpr hl'
  refine ext_get? fun k => ?_
  by_cases hk : k ∈ l.map (·.1)
  · obtain ⟨e, he, rfl⟩ := List.mem_map.mp hk
    rw [get?_foldl_insert_of_mem hl he, get?_foldl_insert_of_mem hl' (h.mem_iff.mp he)]
  · have hk' : k ∉ l'.map (·.1) := fun hm => hk ((h.map _).mem_iff.mpr hm)
    rw [get?_foldl_insert_of_not_mem hk, get?_foldl_insert_of_not_mem hk']

/-- **Of several values with one key, the one that is inserted last stays.** An entry from before
stays if no value has its key. -/
theorem get?_foldl_insert_eq_some_iff {f : α → κ} {l : List α} {m : SortedMap κ α} {k : κ} {v : α} :
    (l.foldl (fun m a => m.insert (f a) a) m).get? k = some v ↔
      (∃ before after, l = before ++ v :: after ∧ f v = k ∧ ∀ a ∈ after, f a ≠ k) ∨
        (m.get? k = some v ∧ ∀ a ∈ l, f a ≠ k) := by
  induction l generalizing m with
  | nil => simp
  | cons a rest ih =>
    rw [List.foldl_cons, ih, get?_insert]
    constructor
    · rintro (⟨before, after, rfl, hv, hlast⟩ | ⟨hv, hrest⟩)
      · exact Or.inl ⟨a :: before, after, rfl, hv, hlast⟩
      · -- the first value is found if no later one takes its key
        by_cases hk : k = f a
        · rw [if_pos hk, Option.some.injEq] at hv
          exact Or.inl ⟨[], rest, by rw [hv, List.nil_append], by rw [← hv, hk], hrest⟩
        · rw [if_neg hk] at hv
          exact Or.inr ⟨hv, List.forall_mem_cons.mpr ⟨Ne.symm hk, hrest⟩⟩
    · rintro (⟨before, after, hl, hv, hlast⟩ | ⟨hv, hall⟩)
      · rcases List.cons_eq_append_iff.mp hl with ⟨rfl, heq⟩ | ⟨before', rfl, hrest⟩
        · obtain ⟨rfl, rfl⟩ := List.cons.inj heq
          exact Or.inr ⟨by rw [if_pos hv.symm], hlast⟩
        · exact Or.inl ⟨before', after, hrest, hv, hlast⟩
      · obtain ⟨ha, hrest⟩ := List.forall_mem_cons.mp hall
        exact Or.inr ⟨by rw [if_neg (Ne.symm ha), hv], hrest⟩

/-- The keys after several insertions are those that were inserted and those that were there. -/
theorem mem_foldl_insert {β : Type} {f : β → κ} {g : β → α} {l : List β}
    {m : SortedMap κ α} {k : κ} :
    k ∈ l.foldl (fun m e => m.insert (f e) (g e)) m ↔ k ∈ l.map f ∨ k ∈ m := by
  induction l generalizing m with
  | nil => simp
  | cons e rest ih =>
    rw [List.foldl_cons, ih, mem_insert, List.map_cons, List.mem_cons]
    tauto

theorem mem_ofList {l : List (κ × α)} {k : κ} : k ∈ ofList l ↔ k ∈ l.map (·.1) := by
  rw [ofList, mem_foldl_insert]
  exact or_iff_left (not_mem_empty k)

/-- A map made of a list in which no key occurs twice. -/
theorem get?_ofList_eq_some_iff {l : List (κ × α)} (hl : (l.map (·.1)).Nodup) {k : κ} {v : α} :
    (ofList l).get? k = some v ↔ (k, v) ∈ l := by
  constructor
  · intro h
    obtain ⟨⟨k', v'⟩, he, rfl⟩ := List.mem_map.mp (mem_ofList.mp (mem_of_get? h))
    rw [ofList, get?_foldl_insert_of_mem hl he] at h
    rw [← Option.some.inj h]
    exact he
  · exact fun he => get?_foldl_insert_of_mem hl he _

/-- A map does not depend on the order in which its entries are listed. -/
theorem ofList_perm {m : SortedMap κ α} {l : List (κ × α)} (h : l.Perm m.toList) :
    ofList l = m := by
  refine ext_get? fun k => Option.ext fun v => ?_
  have hl : (l.map (·.1)).Nodup := (h.map _).nodup_iff.mpr (nodup_keys m)
  rw [get?_ofList_eq_some_iff hl, get?_eq_some_iff, h.mem_iff]

/-- A map is made of its own entries. -/
theorem ofList_toList (m : SortedMap κ α) : ofList m.toList = m := ofList_perm (.refl _)

omit [DecidableLT κ] in
/-- After several removals nothing is left under the keys that were removed, and the rest is as
before. -/
theorem get?_foldl_erase (l : List (κ × α)) (m : SortedMap κ β) (k : κ) :
    (l.foldl (fun m e => m.erase e.1) m).get? k = if k ∈ l.map (·.1) then none else m.get? k := by
  induction l generalizing m with
  | nil => simp
  | cons e rest ih =>
    rw [List.foldl_cons, ih, get?_erase, List.map_cons]
    by_cases hr : k ∈ rest.map (·.1) <;>
      simp only [hr, List.mem_cons, or_true, or_false, if_true, if_false]

end Ordered

end SortedMap

namespace SortedSet

variable {κ : Type} [LT κ] [DecidableEq κ] [DecidableLT κ] [LinearKeys κ]

theorem mem_insert {k k' : κ} {s : SortedSet κ} : k' ∈ SortedSet.insert k s ↔ k' = k ∨ k' ∈ s :=
  SortedMap.mem_insert

theorem mem_foldl_insert {β : Type} {f : β → κ} {l : List β} {s : SortedSet κ} {k : κ} :
    k ∈ l.foldl (fun s e => SortedSet.insert (f e) s) s ↔ k ∈ l.map f ∨ k ∈ s :=
  SortedMap.mem_foldl_insert

theorem mem_ofList {l : List κ} {k : κ} : k ∈ ofList l ↔ k ∈ l := by
  have h := mem_foldl_insert (f := fun k : κ => k) (l := l) (s := ∅) (k := k)
  rw [List.map_id', or_iff_left (SortedMap.not_mem_empty k)] at h
  exact h

omit [DecidableLT κ] in
/-- Two sets with the same members are the same set. -/
theorem ext_mem {s s' : SortedSet κ} (h : ∀ k, k ∈ s ↔ k ∈ s') : s = s' := by
  refine SortedMap.ext_get? fun k => ?_
  have hk := h k
  rw [SortedMap.mem_iff_isSome, SortedMap.mem_iff_isSome] at hk
  cases hs : s.get? k <;> cases hs' : s'.get? k <;> simp_all

/-- A set is made of its own members. -/
theorem ofList_keys (s : SortedSet κ) : ofList s.keys = s :=
  ext_mem fun _ => mem_ofList.trans SortedMap.mem_keys

end SortedSet

end CoChange
