import CoChange.Tree.Basic

/-!
# Selecting and naming nodes

A `Selector` picks nodes of a tree: the children of the root, or the root and everything below it,
for which one of several alternatives holds. An alternative is a list of conditions that all have to
hold. A `Field` is a scalar of a node that can be compared, or give a node its name.
-/

namespace CoChange

/-- A scalar of a node. -/
inductive Field where
  | kind
  | token
  | id
  | prop (key : String)
  deriving DecidableEq, Repr

/-- The value of a field; only a property may be missing. -/
def Field.value? (n : Node) : Field → Option String
  | .kind => some n.kind
  | .token => some n.token
  | .id => some (toString n.id)
  | .prop key => n.prop? key

/-- How a field is compared. -/
inductive Comparison where
  | equal
  | notEqual
  deriving DecidableEq, Repr

/-- One condition on a node. -/
inductive Condition where
  | hasRole (role : String)
  | compare (field : Field) (comparison : Comparison) (value : String)
  deriving DecidableEq, Repr

/-- Whether a condition holds. A missing property differs from every value. -/
def Condition.holds (n : Node) : Condition → Bool
  | .hasRole role => n.hasRole role
  | .compare field .equal value => field.value? n == some value
  | .compare field .notEqual value => field.value? n != some value

/-- Which nodes of a tree are picked. -/
structure Selector where
  recursive : Bool
  alternatives : List (List Condition)
  deriving DecidableEq, Repr

/-- Whether one of the alternatives holds for a node. -/
def Selector.holds (s : Selector) (n : Node) : Bool :=
  s.alternatives.any fun all => all.all fun c => c.holds n

def Selector.select (s : Selector) (root : Node) : List Node :=
  (if s.recursive then root.preOrder else root.children).filter s.holds

/-- A selector together with the field that names what it picks. -/
structure UnitQuery where
  selector : Selector
  name : Field
  deriving DecidableEq, Repr

namespace UnitQuery

/-- The name of a picked node: the named field where it is there and not empty, else the token. -/
def nameOf (q : UnitQuery) (n : Node) : String :=
  match q.name.value? n with
  | some name => if name.isEmpty then n.token else name
  | none => n.token

/-- The picked nodes by name. Of several nodes with one name the last in document order stays. -/
def extract (q : UnitQuery) (root : Node) : SortedMap String Node :=
  (q.selector.select root).foldl (fun m n => m.insert (q.nameOf n) n) ∅

/-- `extract`, with nothing from a tree that is not there. -/
def extractFrom (q : UnitQuery) : Option Node → SortedMap String Node
  | none => ∅
  | some root => q.extract root

end UnitQuery

end CoChange
