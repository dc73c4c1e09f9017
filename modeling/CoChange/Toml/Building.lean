import CoChange.SortedMap.Basic
import CoChange.Toml.Basic

/-!
# Putting documents together

A document is given by headers of tables and by entries with dotted keys. A table that a header
names is defined once. A table that stands only in the path of a header can still be defined by a
header of its own, and a table that dotted keys made can still get entries from dotted keys, but not
the other way round.
-/

namespace CoChange.Toml

/-- How a table came to be. -/
inductive Origin where
  /-- By its header, or as a value. -/
  | defined
  /-- By a header of a table inside it. -/
  | passed
  /-- By a dotted key. -/
  | dotted
  deriving DecidableEq, Repr

/-- What stands under a key of a document in the making. -/
inductive Item where
  | value (v : Value)
  | table (origin : Origin) (entries : List (String × Item))
  /-- The tables of an array, the last one first. -/
  | tables (elements : List (List (String × Item)))

instance : Inhabited Item := ⟨.value default⟩

/-- The entries of a table in the making. -/
abbrev Items := List (String × Item)

namespace Item

mutual

def finish : Item → Value
  | value v => v
  | table _ entries => .table (SortedMap.ofList (finishEntries entries)).toList
  | tables elements => .array (finishElements elements).reverse

def finishEntries : List (String × Item) → List (String × Value)
  | [] => []
  | (k, item) :: rest => (k, item.finish) :: finishEntries rest

/-- The finished tables of an array. -/
def finishElements : List (List (String × Item)) → List Value
  | [] => []
  | entries :: rest =>
    .table (SortedMap.ofList (finishEntries entries)).toList :: finishElements rest

end

end Item

/-- Puts an item under a key, in place of the one there. -/
def Items.put (key : String) (item : Item) (items : Items) : Items :=
  (key, item) :: items.filter (·.1 ≠ key)

/-- Changes the table at a path below a table; `change` gets to know how the table came to be.
Tables on the way that are not there are made, with the given origin. Dotted keys do not lead into
tables that were defined. `none` says that the path leads nowhere. -/
def Items.changeAt (origin : Origin) (change : Origin → Items → Option Items) :
    Origin → List String → Items → Option Items
  | own, [], items => change own items
  | _, key :: path, items =>
    match items.lookup key with
    | none => do
      return items.put key (.table origin (← changeAt origin change origin path []))
    | some (.table own entries) =>
      if origin = .dotted && own = .defined then none
      else do return items.put key (.table own (← changeAt origin change own path entries))
    | some (.tables (entries :: rest)) => do
      return items.put key (.tables ((← changeAt origin change .defined path entries) :: rest))
    | some _ => none

/-- Adds the value under a dotted key, which nothing may stand under. The last table on the way has
to have come from dotted keys if the key has points. -/
def Items.addValue (path : List String) (key : String) (v : Value) (items : Items) : Option Items :=
  items.changeAt .dotted (fun own entries =>
    if own = .dotted && path.isEmpty || own ≠ .dotted && !path.isEmpty then none
    else if (entries.lookup key).isSome then none
    else some (entries.put key (.value v))) .defined path

/-- A document in the making: what has been put together, and the table that entries go to, with its
path and with whether it is an element of an array. -/
structure Draft where
  root : Items
  current : Items
  path : List String
  isElement : Bool

namespace Draft

def empty : Draft := ⟨[], [], [], false⟩

/-- Puts the current table in its place. -/
def settle (d : Draft) : Option Items :=
  match d.path.getLast? with
  | none => some d.current
  | some key =>
    d.root.changeAt .passed (fun _ entries =>
      if d.isElement then
        match entries.lookup key with
        | some (.tables elements) => some (entries.put key (.tables (d.current :: elements)))
        | none => some (entries.put key (.tables [d.current]))
        | _ => none
      else some (entries.put key (.table .defined d.current))) .defined d.path.dropLast

/-- Starts the table that a header names. -/
def startTable (d : Draft) (path : List String) : Option Draft := do
  let root ← d.settle
  let key ← path.getLast?
  let found := lookupIn root path.dropLast key
  let root ← root.changeAt .passed (fun _ entries => some (entries.filter (·.1 ≠ key))) .defined
    path.dropLast
  match found with
  | none => return ⟨root, [], path, false⟩
  | some (.table .passed entries) => return ⟨root, entries, path, false⟩
  | some _ => none
where
  /-- The item under a key of the table at a path. -/
  lookupIn (items : Items) : List String → String → Option Item
    | [], key => items.lookup key
    | k :: path, key =>
      match items.lookup k with
      | some (.table _ entries) => lookupIn entries path key
      | some (.tables (entries :: _)) => lookupIn entries path key
      | _ => none

/-- Starts an element of the array that a header names. -/
def startElement (d : Draft) (path : List String) : Option Draft := do
  let root ← d.settle
  let key ← path.getLast?
  let root ← root.changeAt .passed (fun _ entries =>
    match entries.lookup key with
    | none | some (.tables _) => some entries
    | _ => none) .defined path.dropLast
  return ⟨root, [], path, true⟩

/-- Adds an entry to the current table. -/
def addValue (d : Draft) (path : List String) (key : String) (v : Value) : Option Draft := do
  return { d with current := ← d.current.addValue path key v }

def finish (d : Draft) : Option Entries := do
  return (SortedMap.ofList (Item.finishEntries (← d.settle))).toList

end Draft

/-- The value of a table between braces. -/
def tableOf (entries : List (List String × String × Value)) : Option Value := do
  let items ← entries.foldlM (fun items (path, key, v) => Items.addValue path key v items) []
  return (Item.table .defined items).finish

end CoChange.Toml
