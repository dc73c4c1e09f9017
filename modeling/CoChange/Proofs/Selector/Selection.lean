import CoChange.Proofs.SortedMap
import CoChange.Proofs.Tree.Address
import CoChange.Selector.Basic

/-!
# What a selector selects

`Field.Reads` says what stands in the fields of a node, `Selector.Selects` when a node is one that a
selector means, and `Selector.scope` where it looks.

* **`Field.value?_eq_some_iff`**: what is read of a field is what stands there.
* **`Selector.select_eq`**: a selector selects what it means of what it looks at, in document order.
-/

namespace CoChange

/-- What stands in a field of a node: its kind, its token, its id in decimal, or the value of a
property. -/
inductive Field.Reads (n : Node) : Field → String → Prop
  | kind : Reads n .kind n.kind
  | token : Reads n .token n.token
  | id : Reads n .id (toString n.id)
  | prop {key value : String} (h : (key, value) ∈ n.props.toList) : Reads n (.prop key) value

/-- **What is read of a field is what stands there.** Only a property that the node does not have is
missing. -/
theorem Field.value?_eq_some_iff {field : Field} {n : Node} {value : String} :
    field.value? n = some value ↔ field.Reads n value := by
  constructor
  · intro h
    cases field with
    | kind => exact Option.some.inj h ▸ .kind
    | token => exact Option.some.inj h ▸ .token
    | id => exact Option.some.inj h ▸ .id
    | prop key => exact .prop (SortedMap.get?_eq_some_iff.mp h)
  · intro h
    cases h with
    | kind => rfl
    | token => rfl
    | id => rfl
    | prop h => exact SortedMap.get?_eq_some_iff.mpr h

instance (field : Field) (n : Node) (value : String) : Decidable (field.Reads n value) :=
  decidable_of_iff _ Field.value?_eq_some_iff

/-- When a condition is true of a node. A property that is not there differs from every value. -/
def Condition.Satisfied (n : Node) : Condition → Prop
  | .hasRole role => role ∈ n.roles
  | .compare field .equal value => field.Reads n value
  | .compare field .notEqual value => ¬field.Reads n value

instance (n : Node) : DecidablePred (Condition.Satisfied n)
  | .hasRole role => inferInstanceAs (Decidable (role ∈ n.roles))
  | .compare field .equal value => inferInstanceAs (Decidable (field.Reads n value))
  | .compare field .notEqual value => inferInstanceAs (Decidable (¬field.Reads n value))

/-- A condition holds of a node exactly if the node satisfies it, by what its field reads and what
its roles are. -/
theorem Condition.holds_iff {c : Condition} {n : Node} : c.holds n = true ↔ c.Satisfied n := by
  cases c with
  | hasRole role => exact List.contains_iff_mem
  | compare field comparison value =>
    cases comparison with
    | equal => exact beq_iff_eq.trans Field.value?_eq_some_iff
    | notEqual => exact bne_iff_ne.trans (not_congr Field.value?_eq_some_iff)

namespace Selector

/-- When a selector means a node: all conditions of one of its alternatives are true of it. -/
def Selects (s : Selector) (n : Node) : Prop := ∃ all ∈ s.alternatives, ∀ c ∈ all, c.Satisfied n

instance (s : Selector) : DecidablePred s.Selects :=
  fun n => inferInstanceAs (Decidable (∃ all ∈ s.alternatives, ∀ c ∈ all, Condition.Satisfied n c))

/-- Where a selector looks: at the whole tree, or at the children of its root. -/
def scope (s : Selector) (root : Node) : List Node :=
  if s.recursive then root.documentOrder else root.children

theorem holds_iff {s : Selector} {n : Node} : s.holds n = true ↔ s.Selects n := by
  simp only [holds, List.any_eq_true, List.all_eq_true, Condition.holds_iff, Selects]

/-- **A selector selects what it means of what it looks at.** The selector goes through its nodes
once, in their order, and keeps those that satisfy one of its alternatives. -/
theorem select_eq (s : Selector) (root : Node) :
    s.select root = (s.scope root).filter fun n => decide (s.Selects n) := by
  have hholds : s.holds = fun n => decide (s.Selects n) :=
    funext fun n => Bool.eq_iff_iff.mpr (holds_iff.trans decide_eq_true_iff.symm)
  rw [select, scope, Node.preOrder_eq_documentOrder, hholds]

end Selector

end CoChange
