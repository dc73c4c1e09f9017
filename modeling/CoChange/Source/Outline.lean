import CoChange.Tree.Basic

/-!
# Outlines of sources

The outline of a source are the functions that it declares. A function can be declared inside
another one, and inside constructs that are no functions; the latter are kept as groups, since a
function of a group is not a direct part of what is around the group.
-/

namespace CoChange

/-- A place in a source: lines count from one, columns and offsets are bytes and count from zero. -/
structure Place where
  line : Nat
  column : Nat
  offset : Nat
  deriving DecidableEq, Repr, Inhabited

namespace Place

def start : Place := ⟨1, 0, 0⟩

def past (p : Place) (c : Char) : Place :=
  if c = '\n' then ⟨p.line + 1, 0, p.offset + 1⟩
  else ⟨p.line, p.column + c.utf8Size, p.offset + c.utf8Size⟩

def pastAll (p : Place) (cs : List Char) : Place := cs.foldl past p

/-- Where the text of a source starts, and the text: a byte order mark in front of it is no part of
it. -/
def skipMark : List Char → Place × List Char
  | '\ufeff' :: text => (start.past '\ufeff', text)
  | text => (start, text)

end Place

/-- The part of a source from one place up to another. -/
def Span.between (start stop : Place) : Span :=
  ⟨start.line, start.column, start.offset, stop.line, stop.column, stop.offset⟩

structure Declaration where
  name : String
  /-- Whether the function belongs to a type. -/
  isMember : Bool
  span : Span
  deriving DecidableEq, Repr, Inhabited

/-- A part of an outline. -/
inductive OutlineItem where
  | function (declaration : Declaration) (inner : List OutlineItem)
  | group (inner : List OutlineItem)
  deriving Repr

instance : Inhabited OutlineItem := ⟨.group []⟩

/-- The outline of a source, and where the source ends. -/
structure Outline where
  items : List OutlineItem
  stop : Place
  deriving Repr, Inhabited

namespace OutlineItem

/-- Items as a group, if there are any. -/
def grouped (items : List OutlineItem) : List OutlineItem :=
  if items.isEmpty then [] else [group items]

def functionNode (id : Nat) (d : Declaration) (children : List Node) : Node where
  id := id
  kind := if d.isMember then "Method" else "Function"
  token := ""
  roles := if d.isMember then ["Function", "Declaration", "Member"] else ["Function", "Declaration"]
  props := SortedMap.ofList [("name", d.name)]
  span := some d.span
  children := children

def groupNode (id : Nat) (children : List Node) : Node := ⟨id, "Group", "", [], ∅, none, children⟩

mutual

/-- An item as a node. Nodes get numbers in document order; the result has the next number, too. -/
def toNode (id : Nat) : OutlineItem → Node × Nat
  | function d inner =>
    let (children, next) := toNodes (id + 1) inner
    (functionNode id d children, next)
  | group inner =>
    let (children, next) := toNodes (id + 1) inner
    (groupNode id children, next)

def toNodes (id : Nat) : List OutlineItem → List Node × Nat
  | [] => ([], id)
  | item :: rest =>
    let (n, next) := item.toNode id
    let (ns, next) := toNodes next rest
    (n :: ns, next)

end

end OutlineItem

/-- The tree of a source: its functions below the node of the file. -/
def Outline.toTree (o : Outline) : Node :=
  ⟨1, "File", "", [], ∅, some (.between .start o.stop), (OutlineItem.toNodes 2 o.items).1⟩

end CoChange
