import CoChange.Yaml.Token

/-!
# Nodes of YAML

The tokens of a document as a tree. An anchored node gets a number; an alias stands for a number.
-/

namespace CoChange.Yaml

inductive Node where
  | scalar (tag : Option String) (plain : Bool) (text : String)
  | sequence (tag : Option String) (items : List Node)
  | mapping (tag : Option String) (entries : List (Node × Node))
  | alias (number : Nat)
  deriving Repr

instance : Inhabited Node := ⟨.scalar none true ""⟩

namespace Node

def tag? : Node → Option String
  | scalar tag _ _ | sequence tag _ | mapping tag _ => tag
  | .alias _ => none

/-- Whether a node has a tag that only its author understands. -/
def hasLocalTag (n : Node) : Bool := n.tag?.any (·.toList.head? = some '!')

/-- A node without content. -/
def empty : Node := scalar none true ""

mutual

/-- The size of a node: collections count twice, at their start and at their end. -/
def size : Node → Nat
  | scalar _ _ _ => 1
  | .alias _ => 1
  | sequence _ items => 2 + itemsSize items
  | mapping _ entries => 2 + entriesSize entries

def itemsSize : List Node → Nat
  | [] => 0
  | n :: rest => n.size + itemsSize rest

def entriesSize : List (Node × Node) → Nat
  | [] => 0
  | (k, v) :: rest => k.size + v.size + entriesSize rest

end

end Node

/-- A document: its root, and the nodes that aliases stand for. -/
structure Document where
  root : Node
  anchored : List (Nat × Node)
  deriving Repr, Inhabited

/-- The state of reading nodes. -/
structure NodeState where
  tokens : List Token
  /-- What handles of tags stand for. -/
  handles : List (List Char × List Char)
  /-- The numbers that aliases stand for, the latest first. -/
  numbers : List (List Char × Nat)
  /-- How many nodes have been anchored. -/
  serial : Nat
  /-- The anchored node that has got each number last, by its place among them. -/
  owners : List (Nat × Nat)
  /-- The anchored nodes, by their place among them. -/
  finished : List (Nat × Node)

abbrev NodeReader (α : Type) := StateT NodeState (Except Fault) α

namespace NodeReader

def peek : NodeReader (Option Token) := do return (← get).tokens.head?

def skip : NodeReader Unit := modify fun s => { s with tokens := s.tokens.drop 1 }

/-- Goes past the next token if it is the given one. -/
def skipIf (t : Token) : NodeReader Bool := do
  if (← peek) = some t then
    skip
    return true
  else return false

/-- Goes past the next token, which has to be the given one. -/
def expect (t : Token) : NodeReader Unit := do
  if !(← skipIf t) then throw .unexpectedToken

/-- Whether the next token is one of some. -/
def atAny (ts : List Token) : NodeReader Bool := do
  return (← peek).any ts.contains

/-- What a handle and the rest of a tag stand for. -/
def resolveTag (handle rest : List Char) : NodeReader String := do
  if handle.isEmpty then return String.ofList rest
  match (← get).handles.lookup handle with
  | some start => return String.ofList (start ++ rest)
  | none => throw .unknownHandle

/-- Notes an anchor. A node gets as its number how many different names have been anchored before; a
number stands for the node that has got it last. The result is the node's place. -/
def noteAnchor (name : List Char) : NodeReader Nat := do
  let s ← get
  let number := (s.numbers.map (·.1)).eraseDups.length
  set { s with
    numbers := (name, number) :: s.numbers
    serial := s.serial + 1
    owners := (number, s.serial) :: s.owners }
  return s.serial

/-- What stands in front of the content of a node. -/
structure Properties where
  tag : Option String
  anchor : Option Nat

/-- Whether a node has a tag or an anchor. -/
def Properties.any (p : Properties) : Bool := p.tag.isSome || p.anchor.isSome

def anchor? : NodeReader (Option (List Char)) := do
  match ← peek with
  | some (.anchor name) =>
    skip
    return some name
  | _ => return none

def tag? : NodeReader (Option String) := do
  match ← peek with
  | some (.tag handle rest) =>
    skip
    return some (← resolveTag handle rest)
  | _ => return none

/-- Reads a tag and an anchor, in any order. -/
def properties : NodeReader Properties := do
  let first ← anchor?
  let tag ← tag?
  let second ← if first.isNone && tag.isSome then anchor? else pure none
  return ⟨tag, ← (first.or second).mapM noteAnchor⟩

mutual

/-- Reads a node. In a block, collections may go by their indentation; `dashes` says that a sequence
may stand there without being set in. -/
def node (inBlock dashes : Bool) : Nat → NodeReader Node
  | 0 => throw .unexpectedToken
  | fuel + 1 => do
    match ← peek with
    | some (.alias name) =>
      skip
      match (← get).numbers.lookup name with
      | some number => return .alias number
      | none => throw .unknownAlias
    | _ =>
      let p ← properties
      let n ← content inBlock dashes p fuel
      match p.anchor with
      | some place => modify fun s => { s with finished := (place, n) :: s.finished }
      | none => pure ()
      return n

/-- Reads the content of a node. A lone exclamation mark as the tag of a scalar says nothing. -/
def content (inBlock dashes : Bool) (p : Properties) : Nat → NodeReader Node
  | 0 => throw .unexpectedToken
  | fuel + 1 => do
    match ← peek, inBlock with
    | some (.scalar plain text), _ =>
      skip
      let text := String.ofList text
      if p.tag = some "!" then return .scalar none true text
      else return .scalar p.tag plain text
    | some .flowSequenceStart, _ =>
      skip
      return .sequence p.tag (← flowItems true fuel)
    | some .flowMappingStart, _ =>
      skip
      return .mapping p.tag (← flowEntries true fuel)
    | some .blockSequenceStart, true =>
      skip
      let items ← blockItems [.blockEntry, .blockEnd] fuel
      expect .blockEnd
      return .sequence p.tag items
    | some .blockMappingStart, true =>
      skip
      let entries ← blockEntries fuel
      expect .blockEnd
      return .mapping p.tag entries
    | t, _ =>
      if dashes && t = some .blockEntry then
        return .sequence p.tag (← blockItems [.blockEntry, .key, .value, .blockEnd] fuel)
      else if p.any then return .scalar p.tag true ""
      else throw .unexpectedToken

/-- Reads a node, or nothing in front of one of the tokens that can stand behind it. -/
def nodeOrEmpty (inBlock dashes : Bool) (ends : List Token) : Nat → NodeReader Node
  | 0 => throw .unexpectedToken
  | fuel + 1 => do if ← atAny ends then return .empty else node inBlock dashes fuel

def blockItems (ends : List Token) : Nat → NodeReader (List Node)
  | 0 => throw .unexpectedToken
  | fuel + 1 => do
    if ← skipIf .blockEntry then
      let n ← nodeOrEmpty true false ends fuel
      return n :: (← blockItems ends fuel)
    else return []

def blockEntries : Nat → NodeReader (List (Node × Node))
  | 0 => throw .unexpectedToken
  | fuel + 1 => do
    if ← skipIf .key then
      let k ← nodeOrEmpty true true [.key, .value, .blockEnd] fuel
      let v ← if ← skipIf .value then nodeOrEmpty true true [.key, .value, .blockEnd] fuel
        else pure .empty
      return (k, v) :: (← blockEntries fuel)
    else return []

/-- Reads the items of a sequence between brackets, and the closing bracket. -/
def flowItems (first : Bool) : Nat → NodeReader (List Node)
  | 0 => throw .unexpectedToken
  | fuel + 1 => do
    if ← skipIf .flowSequenceEnd then return []
    if !first then expect .flowEntry
    if ← skipIf .flowSequenceEnd then return []
    let n ← if ← skipIf .key then pairItem fuel else node false false fuel
    return n :: (← flowItems false fuel)

/-- Reads a single entry that stands as an item of a sequence. Where its key is missing, the token
that shows that is lost. -/
def pairItem : Nat → NodeReader Node
  | 0 => throw .unexpectedToken
  | fuel + 1 => do
    let ends := [Token.flowEntry, .flowSequenceEnd]
    let keyMissing ← atAny (.value :: ends)
    let k ← if keyMissing then skip *> pure .empty else node false false fuel
    let v ← if ← skipIf .value then nodeOrEmpty false false ends fuel else pure .empty
    return .mapping none [(k, v)]

/-- Reads the entries of a mapping between braces, and the closing brace. -/
def flowEntries (first : Bool) : Nat → NodeReader (List (Node × Node))
  | 0 => throw .unexpectedToken
  | fuel + 1 => do
    if ← skipIf .flowMappingEnd then return []
    if !first then expect .flowEntry
    if ← skipIf .flowMappingEnd then return []
    let ends := [Token.flowEntry, .flowMappingEnd]
    if ← skipIf .key then
      let k ← nodeOrEmpty false false (.value :: ends) fuel
      let v ← if ← skipIf .value then nodeOrEmpty false false ends fuel else pure .empty
      return (k, v) :: (← flowEntries false fuel)
    else
      let k ← node false false fuel
      return (k, .empty) :: (← flowEntries false fuel)

end

def directives (versionSeen : Bool) (own : List (List Char)) : List Token → NodeReader Unit
  | .version :: rest => do
    if versionSeen then throw .badDirective
    skip
    directives true own rest
  | .shorthand handle start :: rest => do
    if own.contains handle then throw .badDirective
    skip
    modify fun s => { s with handles := (handle, start) :: s.handles }
    directives versionSeen (handle :: own) rest
  | _ => return ()

/-- Skips the marks at the end of a document. -/
def skipDocumentEnds : List Token → List Token := List.dropWhile (· = .documentEnd)

/-- Reads the only document of a text; a text without content has none. -/
def document (fuel : Nat) : NodeReader (Option Node) := do
  let tokens := (← get).tokens
  if tokens.isEmpty then return none
  directives false [] tokens
  let explicit ← skipIf .documentStart
  if !explicit && (← get).tokens.length < tokens.length then throw .unexpectedToken
  let bare := explicit && (match ← peek with
    | none | some .version | some (.shorthand _ _) | some .documentStart | some .documentEnd => true
    | _ => false)
  let root ← if bare then pure Node.empty else node true false fuel
  if !(skipDocumentEnds (← get).tokens).isEmpty then throw .severalDocuments
  return some root

end NodeReader

/-- The tags that handles stand for if nothing else is said. -/
def defaultHandles : List (List Char × List Char) :=
  [("!".toList, "!".toList), ("!!".toList, "tag:yaml.org,2002:".toList)]

/-- The document of a text, if it has any. -/
def Document.ofTokens (tokens : List Token) : Except Fault (Option Document) := do
  let (root, s) ← (NodeReader.document (4 * tokens.length + 4)).run
    ⟨tokens, defaultHandles, [], 0, [], []⟩
  let numbers := (s.owners.map (·.1)).eraseDups
  return root.map fun root => ⟨root, numbers.filterMap fun n => do
    let place ← s.owners.lookup n
    return (n, ← s.finished.lookup place)⟩

end CoChange.Yaml
