import CoChange.Proofs.Json
import CoChange.Proofs.SortedMap
import Mathlib.Data.List.Nodup

/-!
# Places in a document

What stands in a document is told by its *address*, the way down from the root as the numbers of the
children to take. Addresses are ordered like words in a dictionary, which is the order in which a
document is written.

* **`mem_leafAddresses`**, **`pairwise_leafAddresses`**: the addresses of the leaves of a document,
  each once, in their order.
* **`path_inj`**: where no object has a name twice, the names on the way tell the address.
-/

namespace CoChange.Json.Value

/-! ## Children -/

/-- What stands directly in a document, with its name: the members of an object, or the items of an
array under their positions. Only scalars and empty arrays and objects are leaves: they have no
children. -/
def children : Value → List (String × Value)
  | .array items => items.zipIdx.map fun c => (toString c.2, c.1)
  | .object members => members
  | _ => []

variable {v w : Value} {c : String × Value}

theorem exists_mem_children {items : List Value} (h : v ∈ items) :
    ∃ name, (name, v) ∈ (array items).children := by
  obtain ⟨i, hi⟩ := List.mem_iff_getElem?.mp h
  exact ⟨toString i, List.mem_map.mpr ⟨(v, i), List.mem_zipIdx_iff_getElem?.mpr hi, rfl⟩⟩

/-- What is in a document is less deep than the document, which the recursions over documents rest
on. -/
theorem depth_lt_of_mem_children (h : c ∈ v.children) : c.2.depth < v.depth := by
  cases v with
  | array items =>
    obtain ⟨⟨w, i⟩, hw, rfl⟩ := List.mem_map.mp h
    exact Nat.lt_succ_of_le (depth_le_depthItems (List.fst_mem_of_mem_zipIdx hw))
  | object members => exact Nat.lt_succ_of_le (depth_le_depthMembers h)
  | _ => exact absurd h List.not_mem_nil

/-- What is true of a document whenever it is true of its children is true of all documents. -/
@[elab_as_elim]
theorem induction_on_children {motive : Value → Prop}
    (h : ∀ v, (∀ c ∈ v.children, motive c.2) → motive v) (v : Value) : motive v := by
  induction hn : v.depth using Nat.strongRecOn generalizing v with
  | ind n ih => exact h v fun c hc => ih _ (hn ▸ depth_lt_of_mem_children hc) c.2 rfl

/-! ## Addresses -/

/-- What stands at an address, if the way leads anywhere. -/
def at? : Value → List Nat → Option Value
  | v, [] => some v
  | v, i :: rest => (v.children[i]?).bind fun c => c.2.at? rest

/-- The names on the way to an address. -/
def path : Value → List Nat → List String
  | _, [] => []
  | v, i :: rest =>
    match v.children[i]? with
    | some c => c.1 :: c.2.path rest
    | none => []

mutual

/-- The addresses of the leaves of a document, in its order. -/
def leafAddresses : Value → List (List Nat)
  | .array (v :: rest) => v.leafAddresses.map (0 :: ·) ++ itemAddresses 1 rest
  | .object ((_, v) :: rest) => v.leafAddresses.map (0 :: ·) ++ memberAddresses 1 rest
  | _ => [[]]

/-- The addresses of the leaves of the items of an array from a position on. -/
def itemAddresses : Nat → List Value → List (List Nat)
  | _, [] => []
  | i, v :: rest => v.leafAddresses.map (i :: ·) ++ itemAddresses (i + 1) rest

/-- The addresses of the leaves of the members of an object from a position on. -/
def memberAddresses : Nat → List (String × Value) → List (List Nat)
  | _, [] => []
  | i, (_, v) :: rest => v.leafAddresses.map (i :: ·) ++ memberAddresses (i + 1) rest

end

theorem at?_cons {i : Nat} (h : v.children[i]? = some c) (rest : List Nat) :
    v.at? (i :: rest) = c.2.at? rest := by
  rw [at?, h, Option.bind_some]

theorem path_cons {i : Nat} (h : v.children[i]? = some c) (rest : List Nat) :
    v.path (i :: rest) = c.1 :: c.2.path rest := by
  rw [path, h]

theorem itemAddresses_eq (i : Nat) (items : List Value) :
    itemAddresses i items = (items.zipIdx i).flatMap fun c => c.1.leafAddresses.map (c.2 :: ·) := by
  induction items generalizing i with
  | nil => rfl
  | cons v rest ih => rw [itemAddresses, ih, List.zipIdx_cons, List.flatMap_cons]

/-- The addresses in an object are those in its members, each behind the position of the member. -/
theorem memberAddresses_eq (i : Nat) (members : List (String × Value)) :
    memberAddresses i members = (members.zipIdx i).flatMap fun c =>
      c.1.2.leafAddresses.map (c.2 :: ·) := by
  induction members generalizing i with
  | nil => rfl
  | cons m rest ih => rw [memberAddresses, ih, List.zipIdx_cons, List.flatMap_cons]

/-- A document with nothing in it has one leaf, itself. -/
theorem leafAddresses_of_leaf (h : v.children = []) : v.leafAddresses = [[]] := by
  cases v with
  | array items =>
    obtain rfl : items = [] := by simpa [children] using h
    rfl
  | object members =>
    obtain rfl : members = [] := h
    rfl
  | _ => rfl

/-- The children of an array have the numbers of its items. -/
theorem zipIdx_children (items : List Value) :
    (array items).children.zipIdx = items.zipIdx.map fun c => ((toString c.2, c.1), c.2) := by
  have htwice (i : Nat) : (items.zipIdx i).zipIdx i = (items.zipIdx i).map fun c => (c, c.2) := by
    induction items generalizing i with
    | nil => rfl
    | cons v rest ih => rw [List.zipIdx_cons, List.zipIdx_cons, ih, List.map_cons]
  rw [children, List.zipIdx_map, htwice, List.map_map]
  rfl

/-- The leaves of what has children are the leaves of the children, one child after the other. -/
theorem leafAddresses_of_children (h : v.children ≠ []) :
    v.leafAddresses = v.children.zipIdx.flatMap fun c => c.1.2.leafAddresses.map (c.2 :: ·) := by
  cases v with
  | array items =>
    cases items with
    | nil => exact absurd rfl h
    | cons v rest =>
      rw [zipIdx_children, List.flatMap_map]
      exact itemAddresses_eq 0 (v :: rest)
  | object members =>
    obtain ⟨m, rest, rfl⟩ := List.exists_cons_of_ne_nil h
    exact memberAddresses_eq 0 (m :: rest)
  | _ => exact absurd rfl h

/-- **Every leaf has its address.** An address that leads to something with parts in it is not among
them. -/
theorem mem_leafAddresses {a : List Nat} :
    a ∈ v.leafAddresses ↔ ∃ leaf, v.at? a = some leaf ∧ leaf.children = [] := by
  induction v using induction_on_children generalizing a with
  | h v ih =>
    -- a leaf has the empty address and no other one
    by_cases hleaf : v.children = []
    · rw [leafAddresses_of_leaf hleaf, List.mem_singleton]
      cases a with
      | nil => exact iff_of_true rfl ⟨v, rfl, hleaf⟩
      | cons i rest =>
        refine iff_of_false (List.cons_ne_nil i rest) ?_
        rintro ⟨leaf, hat, -⟩
        rw [at?, hleaf] at hat
        exact nomatch hat
    · rw [leafAddresses_of_children hleaf, List.mem_flatMap]
      constructor
      · rintro ⟨⟨c, i⟩, hc, ha⟩
        obtain ⟨rest, hrest, rfl⟩ := List.mem_map.mp ha
        have hat := List.mem_zipIdx_iff_getElem?.mp hc
        rw [at?_cons hat]
        exact (ih c (List.mem_of_getElem? hat)).mp hrest
      · rintro ⟨leaf, hat, hchildren⟩
        cases a with
        | nil =>
          obtain rfl := Option.some.inj hat
          exact absurd hchildren hleaf
        | cons i rest =>
          obtain ⟨c, hc, hat⟩ := Option.bind_eq_some_iff.mp hat
          have hrest := (ih c (List.mem_of_getElem? hc)).mpr ⟨leaf, hat, hchildren⟩
          exact ⟨(c, i), List.mem_zipIdx_iff_getElem?.mpr hc, List.mem_map_of_mem hrest⟩

/-- **The leaves come in the order of a dictionary**, so none comes twice. The addresses in one
child come before those in the next one, since they begin with a smaller position. -/
theorem pairwise_leafAddresses (v : Value) : v.leafAddresses.Pairwise (· < ·) := by
  induction v using induction_on_children with
  | h v ih =>
    by_cases hleaf : v.children = []
    · rw [leafAddresses_of_leaf hleaf]
      exact List.pairwise_singleton ..
    · rw [leafAddresses_of_children hleaf, List.pairwise_flatMap]
      refine ⟨fun c hc => ?_, ?_⟩
      · have hchild := ih c.1 (List.fst_mem_of_mem_zipIdx hc)
        exact hchild.map _ fun a b hlt => List.cons_lt_cons_self.mpr hlt
      · -- of two children, the first one has the smaller number
        have hnumbers : (v.children.zipIdx.map (·.2)).Pairwise (· < ·) := by
          rw [List.zipIdx_map_snd]
          exact List.pairwise_lt_range'
        refine (List.pairwise_map.mp hnumbers).imp fun {c d} hlt a ha b hb => ?_
        obtain ⟨_, -, rfl⟩ := List.mem_map.mp ha
        obtain ⟨_, -, rfl⟩ := List.mem_map.mp hb
        exact List.cons_lt_cons_iff.mpr (Or.inl hlt)

theorem nodup_leafAddresses (v : Value) : v.leafAddresses.Nodup := by
  refine List.nodup_iff_pairwise_ne.mpr ((pairwise_leafAddresses v).imp fun {a b} hlt heq => ?_)
  rw [heq] at hlt
  exact List.lt_irrefl b hlt

/-! ## Names -/

/-- The members of every object in a document have a property. -/
inductive Throughout (P : List (String × Value) → Prop) : Value → Prop where
  | intro {v : Value} (own : ∀ members, v = .object members → P members)
    (inner : ∀ c ∈ v.children, c.2.Throughout P) : Throughout P v

/-- What holds throughout an object holds of its members, and throughout the value of each. -/
theorem throughout_object_iff {P : List (String × Value) → Prop} {members : List (String × Value)} :
    Throughout P (.object members) ↔ P members ∧ ∀ m ∈ members, m.2.Throughout P := by
  constructor
  · rintro ⟨hown, hinner⟩
    exact ⟨hown members rfl, hinner⟩
  · rintro ⟨hown, hinner⟩
    exact .intro (fun _ h => Value.object.inj h ▸ hown) hinner

/-- What holds throughout an array holds throughout each of its items. -/
theorem throughout_array_iff {P : List (String × Value) → Prop} {items : List Value} :
    Throughout P (.array items) ↔ ∀ v ∈ items, v.Throughout P := by
  constructor
  · rintro ⟨-, hinner⟩ v hv
    obtain ⟨name, hc⟩ := exists_mem_children hv
    exact hinner _ hc
  · refine fun h => .intro nofun fun c hc => ?_
    obtain ⟨d, hd, rfl⟩ := List.mem_map.mp hc
    exact h d.1 (List.fst_mem_of_mem_zipIdx hd)

theorem throughout_scalar {P : List (String × Value) → Prop} (hchildren : v.children = [])
    (hscalar : ∀ members, v ≠ .object members) : v.Throughout P :=
  .intro (fun members h => absurd h (hscalar members)) (hchildren ▸ List.forall_mem_nil _)

/-- No object has a name twice. -/
def UniqueNames : Value → Prop := Throughout fun members => (members.map (·.1)).Nodup

/-- The names of the children of a document are all different: positions in an array are, and names
in an object are asked to be. -/
theorem UniqueNames.nodup_children (h : v.UniqueNames) : (v.children.map (·.1)).Nodup := by
  obtain ⟨hown, -⟩ := h
  cases v with
  | array items =>
    have hnumbers : (items.zipIdx.map (·.2)).Nodup := by
      rw [List.zipIdx_map_snd]
      exact List.nodup_range'
    have hnames := hnumbers.map fun _ _ => Decimal.toString_inj.mp
    rw [List.map_map] at hnames
    rw [children, List.map_map]
    exact hnames
  | object members => exact hown members rfl
  | _ => exact List.nodup_nil

/-- **The names on the way tell the address**, where no object has a name twice. Two names on the
way that are equal belong to one child, and the rest follows from there. -/
theorem path_inj (h : v.UniqueNames) {a b : List Nat} {w w' : Value} (ha : v.at? a = some w)
    (hb : v.at? b = some w') (hpath : v.path a = v.path b) : a = b := by
  induction a generalizing v b with
  | nil =>
    cases b with
    | nil => rfl
    | cons j b =>
      obtain ⟨c, hc, -⟩ := Option.bind_eq_some_iff.mp hb
      rw [path, path_cons hc] at hpath
      exact nomatch hpath
  | cons i a ih =>
    obtain ⟨c, hc, ha⟩ := Option.bind_eq_some_iff.mp ha
    rw [path_cons hc] at hpath
    cases b with
    | nil => exact nomatch hpath
    | cons j b =>
      obtain ⟨c', hc', hb⟩ := Option.bind_eq_some_iff.mp hb
      rw [path_cons hc'] at hpath
      obtain ⟨hname, hrest⟩ := List.cons.inj hpath
      have hi : i < v.children.length := (List.getElem?_eq_some_iff.mp hc).1
      -- children of one name stand at one place
      have hsame : (v.children.map (·.1))[i]? = (v.children.map (·.1))[j]? := by
        rw [List.getElem?_map, List.getElem?_map, hc, hc', Option.map_some, Option.map_some, hname]
      obtain rfl := (List.getElem?_inj (by rwa [List.length_map]) h.nodup_children).mp hsame
      obtain rfl := Option.some.inj (hc.symm.trans hc')
      obtain ⟨-, hinner⟩ := h
      rw [ih (hinner c (List.mem_of_getElem? hc)) ha hb hrest]

theorem normalizeItems_eq (items : List Value) : normalizeItems items = items.map normalize := by
  induction items with
  | nil => rfl
  | cons v rest ih => rw [normalizeItems, ih, List.map_cons]

theorem normalizeMembers_eq (members : List (String × Value)) :
    normalizeMembers members = members.map fun m => (m.1, m.2.normalize) := by
  induction members with
  | nil => rfl
  | cons m rest ih => rw [normalizeMembers, ih, List.map_cons]

/-- What stands in a sorted document is sorted. -/
theorem exists_of_mem_children_normalize (h : c ∈ v.normalize.children) :
    ∃ d ∈ v.children, c.2 = d.2.normalize := by
  cases v with
  | array items =>
    rw [normalize, normalizeItems_eq] at h
    obtain ⟨⟨w, i⟩, hw, rfl⟩ := List.mem_map.mp h
    obtain ⟨u, hu, rfl⟩ := List.mem_map.mp (List.fst_mem_of_mem_zipIdx hw)
    obtain ⟨name, hd⟩ := exists_mem_children hu
    exact ⟨_, hd, rfl⟩
  | object members =>
    have hget := SortedMap.get?_of_mem_toList (m := SortedMap.ofList (normalizeMembers members)) h
    -- a member that is kept is one of the members that were put in
    have hmem := (SortedMap.get?_foldl_insert_cases (m := ∅) hget).resolve_right (by simp)
    rw [normalizeMembers_eq] at hmem
    obtain ⟨m, hm, heq⟩ := List.mem_map.mp hmem
    exact ⟨m, hm, (Prod.mk.inj heq).2.symm⟩
  | _ => exact absurd h List.not_mem_nil

/-- **No object of a sorted document has a name twice.** Members are put in a map by their names,
where the last one of a name stays. -/
theorem uniqueNames_normalize (v : Value) : v.normalize.UniqueNames := by
  induction v using induction_on_children with
  | h v ih =>
    refine .intro (fun members hmembers => ?_) fun c hc => ?_
    · cases v with
      | object members' =>
        obtain rfl := Value.object.inj hmembers
        exact SortedMap.nodup_keys _
      | _ => exact nomatch hmembers
    · obtain ⟨d, hd, heq⟩ := exists_of_mem_children_normalize hc
      rw [heq]
      exact ih d hd

end CoChange.Json.Value
