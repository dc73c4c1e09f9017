import CoChange.SortedMap.Basic

/-!
# Syntax trees

A tree of nodes, independent of the language of the source it was read from. A node has a type, a
token, roles, named properties and, when it is known, its place in the source.

* `Node.documentOrder`: a node and all nodes below it, each before its children, by recursion.
* `Node.preOrder`: the same list, found by a walk with a stack of nodes still to visit.
-/

namespace CoChange

/-- A place in a source: lines count from one, columns and offsets from zero. -/
structure Span where
  startLine : Nat
  startColumn : Nat
  startOffset : Nat
  endLine : Nat
  endColumn : Nat
  endOffset : Nat
  deriving DecidableEq, Repr, Inhabited

/-- A node of a syntax tree, with its children in source order. -/
structure Node where
  id : Nat
  kind : String
  token : String
  roles : List String
  props : SortedMap String String
  span : Option Span
  children : List Node

instance : Inhabited Node := ⟨⟨0, "", "", [], ∅, none, []⟩⟩

namespace Node

def hasRole (n : Node) (role : String) : Bool := n.roles.contains role

def prop? (n : Node) (key : String) : Option String := n.props.get? key

mutual

def size : Node → Nat
  | ⟨_, _, _, _, _, _, children⟩ => sizeAll children + 1

def sizeAll : List Node → Nat
  | [] => 0
  | n :: rest => n.size + sizeAll rest

end

mutual

/-- A node and everything below it, parents first and children in order. -/
def documentOrder : Node → List Node
  | n@⟨_, _, _, _, _, _, children⟩ => n :: documentOrderAll children

/-- The nodes of several trees, one tree after the other. -/
def documentOrderAll : List Node → List Node
  | [] => []
  | n :: rest => n.documentOrder ++ documentOrderAll rest

end

theorem sizeAll_append (a b : List Node) : sizeAll (a ++ b) = sizeAll a + sizeAll b := by
  induction a with
  | nil => simp [sizeAll]
  | cons n rest ih => simp [sizeAll, ih, Nat.add_assoc]

theorem size_eq (n : Node) : n.size = sizeAll n.children + 1 := by
  cases n; rfl

/-- Visits the nodes of a stack: the top one is put out, and its children take its place. -/
def walk : List Node → List Node
  | [] => []
  | n :: stack => n :: walk (n.children ++ stack)
  termination_by stack => sizeAll stack
  decreasing_by simp [sizeAll, sizeAll_append, size_eq]

/-- A node and everything below it, in the order in which a walk from it visits them. -/
def preOrder (n : Node) : List Node := walk [n]

/-- The number of nodes that a walk visits. -/
def subtreeSize (n : Node) : Nat := n.preOrder.length

/-- The last line of a node that has its end on a later line than its start, the start line of any
other. -/
def Span.reach (s : Span) : Nat := if s.startLine < s.endLine then s.endLine else s.startLine

/-- The last line of a node. Where the end is not recorded on a later line than the start, it is the
furthest line that any placed node below reaches, so that trees with places on their leaves alone
still have extents. A node without a place ends on line zero. -/
def lastLine (n : Node) : Nat :=
  match n.span with
  | none => 0
  | some s =>
    if s.startLine < s.endLine then s.endLine
    else (n.preOrder.filterMap (·.span)).foldl (fun line t => max line (Span.reach t)) s.startLine

end Node

end CoChange
