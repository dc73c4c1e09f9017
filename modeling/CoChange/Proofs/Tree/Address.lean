import CoChange.Tree.Basic
import Mathlib.Data.List.Nodup

/-!
# Places in a tree

A walk with a stack visits a node and everything below it, each before its children and these in
order (**`preOrder_eq_documentOrder`**).

Two nodes of a tree can be equal, so what tells them apart is where they stand. An *address* is the
way down from the root, as the numbers of the children to take. Addresses are ordered like words in
a dictionary, which puts a node before all nodes below it, and these before the ones below its next
sibling.

* **`map_at?_addresses`**: document order goes through the nodes at the addresses, one after the
  other.
* **`mem_addresses`**, **`pairwise_addresses`**: these are all addresses of nodes, each once, in
  their order.
-/

namespace CoChange.Node

/-! ## The walk -/

theorem documentOrder_eq (n : Node) : n.documentOrder = n :: documentOrderAll n.children := by
  cases n
  rfl

/-- The nodes of two rows of siblings come one row after the other. -/
theorem documentOrderAll_append (a b : List Node) :
    documentOrderAll (a ++ b) = documentOrderAll a ++ documentOrderAll b := by
  induction a with
  | nil => rfl
  | cons n rest ih =>
    rw [List.cons_append, documentOrderAll, documentOrderAll, ih, List.append_assoc]

/-- A walk visits the trees of its stack one after the other. -/
theorem walk_eq_documentOrderAll (stack : List Node) : walk stack = documentOrderAll stack := by
  induction stack using walk.induct with
  | case1 => rw [walk, documentOrderAll]
  | case2 n stack ih =>
    rw [walk, ih, documentOrderAll_append, documentOrderAll, documentOrder_eq, List.cons_append]

/-- **A walk from a node is the node and everything below it in document order.** The walk keeps the
nodes that are still to be visited on a stack, with the children of a node on top of it. -/
theorem preOrder_eq_documentOrder (n : Node) : n.preOrder = n.documentOrder := by
  rw [preOrder, walk_eq_documentOrderAll, documentOrderAll, documentOrderAll, List.append_nil]

/-! ## Addresses -/

/-- The node at an address, if the way leads to one. -/
def at? : Node → List Nat → Option Node
  | n, [] => some n
  | n, i :: path => (n.children[i]?).bind fun child => child.at? path

mutual

/-- The addresses of a tree, parents first and children in order. -/
def addresses : Node → List (List Nat)
  | ⟨_, _, _, _, _, _, children⟩ => [] :: addressesFrom 0 children

/-- The addresses of several trees that are siblings, the first of which has the given number. -/
def addressesFrom : Nat → List Node → List (List Nat)
  | _, [] => []
  | i, n :: rest => n.addresses.map (i :: ·) ++ addressesFrom (i + 1) rest

end

/-! ## Trees by their children -/

/-- A node has no more nodes in it than all its siblings together. -/
theorem size_le_sizeAll {c : Node} {siblings : List Node} (hc : c ∈ siblings) :
    c.size ≤ sizeAll siblings := by
  induction siblings with
  | nil => exact absurd hc List.not_mem_nil
  | cons n rest ih =>
    rw [sizeAll]
    rcases List.mem_cons.mp hc with rfl | hc
    · exact Nat.le_add_right _ _
    · exact Nat.le_trans (ih hc) (Nat.le_add_left _ _)

/-- What is true of a node whenever it is true of its children is true of all nodes. -/
theorem induction_on_children {P : Node → Prop} (h : ∀ n, (∀ c ∈ n.children, P c) → P n)
    (n : Node) : P n := by
  induction hn : n.size using Nat.strongRecOn generalizing n with
  | ind size ih =>
    refine h n fun c hc => ih c.size ?_ c rfl
    rw [← hn, size_eq n]
    exact Nat.lt_succ_of_le (size_le_sizeAll hc)

theorem documentOrderAll_eq_flatMap (siblings : List Node) :
    documentOrderAll siblings = siblings.flatMap documentOrder := by
  induction siblings with
  | nil => rfl
  | cons n rest ih => rw [documentOrderAll, ih, List.flatMap_cons]

/-- The addresses among siblings are those in each of them, behind its position. -/
theorem addressesFrom_eq_flatMap (i : Nat) (siblings : List Node) :
    addressesFrom i siblings = (siblings.zipIdx i).flatMap fun c =>
      c.1.addresses.map (c.2 :: ·) := by
  induction siblings generalizing i with
  | nil => rfl
  | cons n rest ih => rw [addressesFrom, ih, List.zipIdx_cons, List.flatMap_cons]

theorem addresses_eq (n : Node) :
    n.addresses = [] :: n.children.zipIdx.flatMap fun c => c.1.addresses.map (c.2 :: ·) := by
  rw [← addressesFrom_eq_flatMap]
  cases n
  rfl

/-! ## What stands at the addresses -/

theorem at?_child {n c : Node} {i : Nat} (h : n.children[i]? = some c) (path : List Nat) :
    n.at? (i :: path) = c.at? path := by
  rw [at?, h, Option.bind_some]

/-- **Document order goes through the nodes at the addresses of the tree**, one after the other. The
induction is on the tree, child by child. -/
theorem map_at?_addresses (n : Node) : n.addresses.map n.at? = n.documentOrder.map some := by
  induction n using induction_on_children with
  | h n ih =>
    have hchild : ∀ c ∈ n.children.zipIdx,
        (c.1.addresses.map (c.2 :: ·)).map n.at? = c.1.documentOrder.map some := by
      intro c hc
      have hat : n.children[c.2]? = some c.1 := List.mem_zipIdx_iff_getElem?.mp hc
      rw [List.map_map, ← ih c.1 (List.mem_of_getElem? hat)]
      exact List.map_congr_left fun path _ => at?_child hat path
    have hchildren : documentOrderAll n.children =
        n.children.zipIdx.flatMap fun c => c.1.documentOrder := by
      rw [documentOrderAll_eq_flatMap, ← List.flatMap_map (f := Prod.fst), List.zipIdx_map_fst]
    rw [addresses_eq, documentOrder_eq, hchildren, List.map_cons, List.map_cons, List.map_flatMap,
      List.map_flatMap, List.flatMap_congr hchild]
    rfl

/-- **Every place of the tree has its address.** The induction is on the tree: an address leads into
the child at its first position. -/
theorem mem_addresses {n : Node} {path : List Nat} : path ∈ n.addresses ↔ (n.at? path).isSome := by
  induction path generalizing n with
  | nil =>
    rw [addresses_eq]
    exact iff_of_true List.mem_cons_self rfl
  | cons i path ih =>
    -- an address begins with the number of a child and goes on in it
    have hbelow : i :: path ∈ n.addresses ↔ ∃ c, n.children[i]? = some c ∧ path ∈ c.addresses := by
      rw [addresses_eq, List.mem_cons, or_iff_right (List.cons_ne_nil i path), List.mem_flatMap]
      constructor
      · rintro ⟨⟨c, j⟩, hc, hmem⟩
        obtain ⟨path', hpath', heq⟩ := List.mem_map.mp hmem
        obtain ⟨rfl, rfl⟩ := List.cons.inj heq
        exact ⟨c, List.mem_zipIdx_iff_getElem?.mp hc, hpath'⟩
      · rintro ⟨c, hc, hpath⟩
        exact ⟨(c, i), List.mem_zipIdx_iff_getElem?.mpr hc, List.mem_map_of_mem hpath⟩
    rw [hbelow, at?, Option.isSome_bind]
    cases n.children[i]? with
    | none => simp
    | some c => simpa using ih

/-- **The addresses come in the order of a dictionary**, so none comes twice. A node comes before
what is in it, and a child before the next one. -/
theorem pairwise_addresses (n : Node) : n.addresses.Pairwise (· < ·) := by
  induction n using induction_on_children with
  | h n ih =>
    rw [addresses_eq, List.pairwise_cons, List.pairwise_flatMap]
    refine ⟨fun path hpath => ?_, fun c hc => ?_, ?_⟩
    · obtain ⟨c, -, hmem⟩ := List.mem_flatMap.mp hpath
      obtain ⟨path', -, rfl⟩ := List.mem_map.mp hmem
      exact List.nil_lt_cons c.2 path'
    · have hchild := ih c.1 (List.fst_mem_of_mem_zipIdx hc)
      exact hchild.map _ fun path path' hlt => List.cons_lt_cons_self.mpr hlt
    · -- of two siblings, the first one has the smaller number
      have hnumbers : (n.children.zipIdx.map (·.2)).Pairwise (· < ·) := by
        rw [List.zipIdx_map_snd]
        exact List.pairwise_lt_range'
      refine (List.pairwise_map.mp hnumbers).imp fun {c d} hlt path hpath path' hpath' => ?_
      obtain ⟨_, -, rfl⟩ := List.mem_map.mp hpath
      obtain ⟨_, -, rfl⟩ := List.mem_map.mp hpath'
      exact List.cons_lt_cons_iff.mpr (Or.inl hlt)

theorem nodup_addresses (n : Node) : n.addresses.Nodup := by
  refine List.nodup_iff_pairwise_ne.mpr ((pairwise_addresses n).imp fun {path path'} hlt heq => ?_)
  rw [heq] at hlt
  exact List.lt_irrefl path' hlt

end CoChange.Node
