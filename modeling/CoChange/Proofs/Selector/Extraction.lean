import CoChange.Proofs.Selector.Selection
import CoChange.Proofs.SortedMap
import CoChange.Proofs.Tree.Address

/-!
# What a query extracts

A query names the nodes that its selector selects, and keeps one node for each name.
`UnitQuery.Names` says which name a node gets.

* **`UnitQuery.get?_extract_eq_some_iff`**: under a name stands the last of the selected nodes that
  get it.
* **`extract_keeps_last`**: the order this is about is that of the places of the tree, each of which
  the walk of the tree visits once, and every selected node has its name among the extracted ones.
-/

namespace CoChange

/-- A split of the filtered list at one of its elements comes from a split of the list. -/
theorem exists_split_filter_iff {α : Type} {p P : α → Prop} [DecidablePred p] {l : List α} {x : α} :
    (∃ before after, l.filter (fun n => decide (p n)) = before ++ x :: after ∧ ∀ y ∈ after, P y) ↔
      ∃ before after, l = before ++ x :: after ∧ p x ∧ ∀ y ∈ after, p y → P y := by
  constructor
  · rintro ⟨before, after, heq, hafter⟩
    -- the element stands in the list itself, with some that are left out in front of it
    obtain ⟨l₁, l₂, rfl, -, h₂⟩ := List.filter_eq_append_iff.mp heq
    obtain ⟨skipped, rest, rfl, -, hx, hrest⟩ := List.filter_eq_cons_iff.mp h₂
    refine ⟨l₁ ++ skipped, rest, (List.append_assoc _ _ _).symm,
      of_decide_eq_true hx, fun y hy hpy => ?_⟩
    rw [← hrest] at hafter
    exact hafter y (List.mem_filter.mpr ⟨hy, decide_eq_true hpy⟩)
  · rintro ⟨before, after, rfl, hx, hafter⟩
    have hkept : (x :: after).filter (fun n => decide (p n)) =
        x :: after.filter fun n => decide (p n) := by
      rw [List.filter_cons, if_pos (decide_eq_true hx)]
    refine ⟨_, _, by rw [List.filter_append, hkept], fun y hy => ?_⟩
    obtain ⟨hmem, hpy⟩ := List.mem_filter.mp hy
    exact hafter y hmem (of_decide_eq_true hpy)

namespace UnitQuery

/-- The name of a node: what stands in the name field if that is not empty, else the token. -/
def Names (q : UnitQuery) (n : Node) (name : String) : Prop :=
  (q.name.Reads n name ∧ name ≠ "") ∨
    ((∀ value, q.name.Reads n value → value = "") ∧ name = n.token)

/-- The name that a query gives a node is the value that its field reads, or else the token, or else
what stands for the place of the node. -/
theorem names_iff {q : UnitQuery} {n : Node} {name : String} : q.Names n name ↔
    q.nameOf n = name := by
  simp only [Names, nameOf, ← Field.value?_eq_some_iff]
  cases q.name.value? n with
  | none => simp [eq_comm]
  | some value =>
    simp only [String.isEmpty_iff, Option.some.injEq, forall_eq']
    by_cases hempty : value = ""
    · -- an empty value is taken for a missing one
      rw [if_pos hempty, hempty]
      constructor
      · rintro (⟨rfl, hne⟩ | ⟨-, rfl⟩)
        · exact absurd rfl hne
        · rfl
      · exact fun htoken => Or.inr ⟨rfl, htoken.symm⟩
    · rw [if_neg hempty, or_iff_left (fun h => hempty h.1)]
      constructor
      · exact And.left
      · rintro rfl
        exact ⟨rfl, hempty⟩

variable {q : UnitQuery} {root : Node} {name : String} {x : Node}

/-- **Under a name stands the last of the selected nodes that get it.** Nodes are gone through in
the order of the tree, and a later node replaces an earlier one under the same name. -/
theorem get?_extract_eq_some_iff : (q.extract root).get? name = some x ↔
    ∃ before after, q.selector.scope root = before ++ x :: after ∧
      q.selector.Selects x ∧ q.Names x name ∧
      ∀ y ∈ after, q.selector.Selects y → ¬ q.Names y name := by
  simp only [names_iff]
  rw [extract, Selector.select_eq, SortedMap.get?_foldl_insert_eq_some_iff, SortedMap.get?_empty,
    or_iff_left (fun h => absurd h.1 (by simp))]
  calc (∃ before after, (q.selector.scope root).filter (fun n => decide (q.selector.Selects n)) =
          before ++ x :: after ∧ q.nameOf x = name ∧ ∀ y ∈ after, q.nameOf y ≠ name)
    _ ↔ q.nameOf x = name ∧ ∃ before after, (q.selector.scope root).filter
          (fun n => decide (q.selector.Selects n)) = before ++ x :: after ∧
          ∀ y ∈ after, q.nameOf y ≠ name := by
        simp only [← exists_and_left, and_left_comm]
    _ ↔ q.nameOf x = name ∧ ∃ before after, q.selector.scope root = before ++ x :: after ∧
          q.selector.Selects x ∧ ∀ y ∈ after, q.selector.Selects y → q.nameOf y ≠ name :=
        and_congr_right fun _ => exists_split_filter_iff
    _ ↔ _ := by simp only [← exists_and_left, and_left_comm, ne_eq]

/-- A name stands there exactly if a selected node gets it. -/
theorem mem_extract_iff :
    name ∈ q.extract root ↔ ∃ x ∈ q.selector.scope root, q.selector.Selects x ∧ q.Names x name := by
  have hpairs : q.extract root = ((q.selector.select root).map fun n => (q.nameOf n, n)).foldl
      (fun m e => m.insert e.1 e.2) ∅ := by
    rw [List.foldl_map]
    rfl
  rw [hpairs, SortedMap.mem_foldl_insert, or_iff_left (SortedMap.not_mem_empty name), List.map_map,
    List.mem_map, Selector.select_eq]
  simp only [List.mem_filter, decide_eq_true_eq, and_assoc, names_iff, Function.comp_apply]

end UnitQuery

open UnitQuery in
/-- **Extraction keeps, for every name, the last candidate in document order.** Document order goes
through all places of the tree, each once and in the order of their addresses, and is what a walk
with a stack goes through. A candidate is a selected node of the whole tree, or of the children of
its root only. The names that stand there are those of the candidates. -/
theorem extract_keeps_last (q : UnitQuery) (root : Node) :
    (root.preOrder = root.documentOrder ∧
      root.documentOrder.map some = root.addresses.map root.at? ∧
      root.addresses.Nodup ∧ root.addresses.Pairwise (· < ·) ∧
      ∀ path, path ∈ root.addresses ↔ (root.at? path).isSome) ∧
    (∀ name x, (q.extract root).get? name = some x ↔
      ∃ before after,
        (if q.selector.recursive then root.documentOrder else root.children) =
          before ++ x :: after ∧
        q.selector.Selects x ∧ q.Names x name ∧ ∀ y ∈ after, q.selector.Selects y →
        ¬ q.Names y name) ∧
    (∀ name, name ∈ q.extract root ↔
      ∃ x ∈ if q.selector.recursive then root.documentOrder else root.children,
        q.selector.Selects x ∧ q.Names x name) :=
  ⟨⟨Node.preOrder_eq_documentOrder root,
    (Node.map_at?_addresses root).symm, Node.nodup_addresses root,
      Node.pairwise_addresses root, fun _ => Node.mem_addresses⟩,
    fun _ _ => get?_extract_eq_some_iff, fun _ => mem_extract_iff⟩

end CoChange
