import CoChange.Arithmetic
import CoChange.CodeUnit
import CoChange.Commit
import CoChange.Correlation
import CoChange.Selector.Basic

/-!
# The registry of units

Every unit that is known at some point of the history, under its key, with the number of commits
that changed it and, for each of its peers, the number of commits that changed both.

* `Registry`: the entries, and the keys of the entries of each file.
* `Pass`: a registry in the middle of a commit, with the keys that the commit has touched so far.
* `Registry.renameIn`, `Registry.removeFile`, `Registry.couple`, `Registry.absorb`: what happens to
  a registry besides touches.
* `TableOrder`: the orders of the hash tables that a rename walks through. They show where several
  keys become one, and are anybody's guess. The functions whose names end in `In` are given these
  orders, and those of the same names without it use that of the keys.
-/

namespace CoChange

/-- What is known of one unit. -/
structure Entry where
  unit : CodeUnit
  count : Nat
  couples : SortedMap String Nat
  deriving Inhabited

/-- The entry of a unit that is seen for the first time. -/
def Entry.first (unit : CodeUnit) : Entry := ⟨unit, 1, ∅⟩

abbrev Entries := SortedMap String Entry

/-- The keys of each file. -/
abbrev FileIndex := SortedMap String (SortedSet String)

/-- All known units. -/
structure Registry where
  entries : Entries
  files : FileIndex
  deriving Inhabited

/-- Adds a key to the keys of a file. -/
def FileIndex.add (file key : String) (files : FileIndex) : FileIndex :=
  files.insert file (SortedSet.insert key (files.getD file ∅))

/-- The index of the given entries: each key stands under the file of its unit. -/
def FileIndex.ofEntries (entries : Entries) : FileIndex :=
  entries.toList.foldl (fun files e => files.add e.2.unit.file e.1) ∅

namespace Registry

def empty : Registry := ⟨∅, ∅⟩

/-- The registry of the given entries. -/
def ofEntries (entries : Entries) : Registry := ⟨entries, .ofEntries entries⟩

def reindex (r : Registry) : Registry := .ofEntries r.entries

def get? (r : Registry) (key : String) : Option Entry := r.entries.get? key

def size (r : Registry) : Nat := r.entries.size

/-- The number of pairs of a unit and one of its peers. -/
def edgeCount (r : Registry) : Nat := (r.entries.values.map (·.couples.size)).sum

/-- Whether the file index lists as many keys as there are entries, each of an entry of that
file. -/
def isConsistent (r : Registry) : Bool :=
  (r.files.values.map (·.size)).sum == r.entries.size
    && r.files.toList.all fun f =>
      f.2.keys.all fun key => ((r.get? key).map (·.unit.file)) == some f.1

/-! ### Touches -/

/-- A registry in the middle of a commit. -/
structure Pass where
  registry : Registry
  touched : SortedSet String
  deriving Inhabited

/-- A commit changes a unit. The first touch of a commit counts, further ones do not; an unknown
unit gets an entry. -/
def Pass.touch (u : CodeUnit) (p : Pass) : Pass :=
  let r := p.registry
  let registry := match r.get? u.key with
    | some e =>
      if u.key ∈ p.touched then r
      else { r with entries := r.entries.insert u.key { e with count := e.count + 1 } }
    | none => ⟨r.entries.insert u.key (.first u), r.files.add u.file u.key⟩
  ⟨registry, SortedSet.insert u.key p.touched⟩

/-- A commit changes named nodes of a file. -/
def Pass.touchAll (file : String) (nodes : List (String × Node)) (p : Pass) : Pass :=
  nodes.foldl (fun p n => p.touch ⟨n.2.kind, n.1, file⟩) p

/-- A commit adds a file: all its units are touched. -/
def Pass.insertion (q : UnitQuery) (file : String) (after : Node) (p : Pass) : Pass :=
  p.touchAll file (q.extract after).toList

/-! ### Renames -/

/-- The orders in which a rename walks through its hash tables: that of the keys that move, and for
each entry, by its key, that of its peers. What is in a table does not tell its order, which may be
another one each time. -/
structure TableOrder where
  units : List String → List String
  peers : String → List (String × Nat) → List (String × Nat)
  perm_units : ∀ keys, (units keys).Perm keys
  perm_peers : ∀ key couples, (peers key couples).Perm couples

/-- All tables are walked through by their keys. -/
def TableOrder.byKey : TableOrder := ⟨id, fun _ => id, fun _ => .refl _, fun _ _ => .refl _⟩

/-- The units of a file, with their keys, as the table of these keys lists them. -/
def unitsInOrder (o : TableOrder) (file : String) (r : Registry) : List (String × Entry) :=
  match r.files.get? file with
  | none => []
  | some keys => (o.units keys.keys).filterMap fun key => (r.get? key).map (Prod.mk key)

/-- The units of a file that is renamed, with their keys. -/
def unitsIn (file : String) (r : Registry) : List (String × Entry) := r.unitsInOrder .byKey file

/-- The new keys of units that move to a file, by their old keys. -/
def relocation (file : String) (units : List (String × Entry)) : SortedMap String String :=
  .ofList (units.map fun u => (u.1, (u.2.unit.relocated file).key))

/-- The same peers under their new keys. Of several peers that come to one key, the number of the
last one in the order of the table stays. -/
def relabelIn (order : List (String × Nat) → List (String × Nat)) (moves : SortedMap String String)
    (couples : SortedMap String Nat) : SortedMap String Nat :=
  .ofList ((order couples.toList).map fun c => (moves.getD c.1 c.1, c.2))

/-- The same peers under their new keys. -/
def relabel (moves : SortedMap String String) (couples : SortedMap String Nat) :
    SortedMap String Nat :=
  relabelIn id moves couples

/-- The entry with its peers under their new keys, if one of them moves. -/
def relabelEntryIn (order : List (String × Nat) → List (String × Nat))
    (moves : SortedMap String String) (e : Entry) : Entry :=
  if e.couples.keys.any fun peer => moves.contains peer then
    { e with couples := relabelIn order moves e.couples }
  else e

/-- The entry with its peers under their new keys, if one of them moves. -/
def relabelEntry (moves : SortedMap String String) (e : Entry) : Entry := relabelEntryIn id moves e

/-- Gives a file another path: its units move to new keys, and their peers list them under these. Of
several units that come to one key, the last one in the order of the table stays. Nothing happens
when no unit of the file is known. -/
def renameIn (o : TableOrder) (source target : String) (r : Registry) : Registry :=
  match if source = target then none else r.files.get? source with
  | none => r
  | some _ =>
    let moves := relocation target (r.unitsIn source)
    let units := r.unitsInOrder o source
    let moved := units.map fun u =>
      (moves.getD u.1 u.1, { u.2 with unit := u.2.unit.relocated target })
    let affected : SortedSet String := SortedSet.ofList <| units.flatMap fun u =>
      moves.getD u.1 u.1 :: u.2.couples.keys.map fun peer => moves.getD peer peer
    let rest := units.foldl (fun m u => m.erase u.1) r.entries
    let entries := moved.foldl (fun m u => m.insert u.1 u.2) rest
    let entries := entries.mapValues fun key e =>
      if key ∈ affected then relabelEntryIn (o.peers key) moves e else e
    let files := r.files.erase source
    let bucket := moved.foldl (fun s u => SortedSet.insert u.1 s) (files.getD target ∅)
    ⟨entries, files.insert target bucket⟩

/-- Gives a file another path, with all tables walked through by their keys. -/
def rename (source target : String) (r : Registry) : Registry := r.renameIn .byKey source target

/-- A commit changes a file: it is renamed if its path is new, and the units on changed lines are
touched. Without line differences nothing is touched. -/
def Pass.modificationIn (o : TableOrder) (q : UnitQuery) (c : Change) (p : Pass) : Pass :=
  let p :=
    if c.isRename then { p with registry := p.registry.renameIn o c.source c.target } else p
  match c.diff with
  | none => p
  | some d => p.touchAll c.target (d.touches (q.extractFrom c.before) (q.extractFrom c.after))

/-- `modificationIn`, with all tables walked through by their keys. -/
def Pass.modification (q : UnitQuery) (c : Change) (p : Pass) : Pass := p.modificationIn .byKey q c

/-! ### Deletions -/

/-- Removes an entry, and its key from its peers. -/
def removeEntry (key : String) (entries : Entries) : Entries :=
  match entries.get? key with
  | none => entries
  | some e => (entries.erase key).mapValues fun peer e' =>
    if peer ∈ e.couples then { e' with couples := e'.couples.erase key } else e'

def removeFile (file : String) (r : Registry) : Registry :=
  match r.files.get? file with
  | none => r
  | some keys =>
    ⟨keys.keys.foldl (fun entries key => removeEntry key entries) r.entries, r.files.erase file⟩

/-! ### Couplings -/

/-- Whether a commit is small enough for its pairs to be counted; a cap of zero admits all. -/
def withinCap (cap : Nat) (touched : SortedSet String) : Bool := cap = 0 || touched.size ≤ cap

/-- Counts one more common change for every two of the touched units. -/
def couple (touched : SortedSet String) (r : Registry) : Registry :=
  { r with entries := r.entries.mapValues fun key e =>
      if key ∈ touched then
        { e with couples :=
          e.couples.unionWith (· + ·) ((touched.erase key).mapValues fun _ _ => 1) }
      else e }

/-- Counts the pairs of a commit, if it is within the cap. -/
def coupleWithin (cap : Nat) (touched : SortedSet String) (r : Registry) : Registry :=
  if withinCap cap touched then r.couple touched else r

/-! ### Joining registries -/

/-- Adds the counts of two entries of one unit. -/
def joinEntry (e e' : Entry) : Entry :=
  ⟨e.unit, e.count + e'.count, e.couples.unionWith (· + ·) e'.couples⟩

/-- Adds the units and counts of another registry. The file index is left to `reindex`. -/
def absorb (r other : Registry) : Registry :=
  { r with entries := r.entries.unionWith joinEntry other.entries }

end Registry

end CoChange
