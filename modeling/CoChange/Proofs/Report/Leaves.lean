import CoChange.Proofs.Json.Address
import CoChange.Proofs.Text.Joined
import CoChange.Report.Generic
import Mathlib.Data.List.Forall2

/-!
# The rows of a document of unknown layout

A document is shown as a table of its leaves, each under the names on the way to it with points in
between.

* **`map_leaves`**: the leaves that a walk lists are those at the addresses of the document.
* **`each_leaf_has_its_row`**: there is one row for each leaf, in the order of the document, and if
  no object has a name twice, no two rows have the same key.
-/

namespace CoChange

open Json (Value)

namespace Json.Value

/-- All names in the objects of a document are segments of a path. -/
def SegmentNames : Value → Prop := Throughout fun members => ∀ m ∈ members, Text.IsSegment m.1

variable {v : Value}

/-- The children of a document with proper names have proper names: names of members by assumption,
and positions because they are digits. -/
theorem SegmentNames.children (h : v.SegmentNames) : ∀ c ∈ v.children, Text.IsSegment c.1 := by
  obtain ⟨hown, -⟩ := h
  intro c hc
  cases v with
  | array items =>
    obtain ⟨⟨w, i⟩, -, rfl⟩ := List.mem_map.mp hc
    exact Text.isSegment_toString i
  | object members => exact hown members rfl c hc
  | _ => exact absurd hc List.not_mem_nil

theorem SegmentNames.child (h : v.SegmentNames) {c : String × Value} (hc : c ∈ v.children) :
    c.2.SegmentNames := by
  obtain ⟨-, hinner⟩ := h
  exact hinner c hc

/-- All names on a path into a document with proper names are proper. -/
theorem SegmentNames.path (h : v.SegmentNames) (a : List Nat) :
    ∀ name ∈ v.path a, Text.IsSegment name := by
  induction a generalizing v with
  | nil => exact List.forall_mem_nil _
  | cons i rest ih =>
    rw [Value.path]
    split
    · rename_i c hc
      have hmem := List.mem_of_getElem? hc
      exact List.forall_mem_cons.mpr ⟨h.children c hmem, ih (h.child hmem)⟩
    · exact List.forall_mem_nil _

end Json.Value

namespace Report

variable {v : Value}

/-! ## The walk -/

/-- The leaves of the items of an array are those of each item, under a key with its position. -/
theorem itemLeaves_eq (key : String) (i : Nat) (items : List Value) :
    itemLeaves key i items = (items.zipIdx i).flatMap fun c =>
      leaves (childKey key (toString c.2)) c.1 := by
  induction items generalizing i with
  | nil => rfl
  | cons v rest ih => rw [itemLeaves, ih, List.zipIdx_cons, List.flatMap_cons]

theorem memberLeaves_eq (key : String) (members : List (String × Value)) :
    memberLeaves key members = members.flatMap fun m => leaves (childKey key m.1) m.2 := by
  induction members with
  | nil => rfl
  | cons m rest ih => rw [memberLeaves, ih, List.flatMap_cons]

/-- A document with nothing in it is its own leaf, under the key it stands at. -/
theorem leaves_of_leaf (h : v.children = []) (key : String) : leaves key v = [(key, v)] := by
  cases v with
  | array items =>
    obtain rfl : items = [] := by simpa [Value.children] using h
    rfl
  | object members =>
    obtain rfl : members = [] := h
    rfl
  | _ => rfl

/-- The leaves of a document are those of its children, in their order, under keys that go on from
its own. -/
theorem leaves_of_children (h : v.children ≠ []) (key : String) :
    leaves key v = v.children.flatMap fun c => leaves (childKey key c.1) c.2 := by
  cases v with
  | array items =>
    cases items with
    | nil => exact absurd rfl h
    | cons v rest =>
      rw [Value.children, List.flatMap_map]
      exact itemLeaves_eq key 0 (v :: rest)
  | object members =>
    obtain ⟨m, rest, rfl⟩ := List.exists_cons_of_ne_nil h
    exact memberLeaves_eq key (m :: rest)
  | _ => exact absurd rfl h

/-- Only the root has an empty key. -/
theorem childKey_dotted {path : List String} (h : ∀ name ∈ path, Text.IsSegment name)
    (name : String) :
    childKey (Text.dotted path) name = Text.dotted (path ++ [name]) := by
  by_cases hroot : path = []
  · rw [hroot, List.nil_append, Text.dotted_singleton]
    rfl
  · have hkey := Text.dotted_ne_empty hroot h
    rw [childKey, if_neg (mt String.isEmpty_iff.mp hkey), Text.dotted_concat hroot]

/-- **A walk lists the leaves at the addresses of the document**, with the names on the way to
them. -/
theorem map_leaves (hnames : v.SegmentNames) {path : List String}
    (hpath : ∀ name ∈ path, Text.IsSegment name) :
    (leaves (Text.dotted path) v).map some =
      v.leafAddresses.map fun a => (v.at? a).map fun leaf =>
        (Text.dotted (path ++ v.path a), leaf) := by
  induction v using Value.induction_on_children generalizing path with
  | h v ih =>
    by_cases hleaf : v.children = []
    · rw [leaves_of_leaf hleaf, Value.leafAddresses_of_leaf hleaf, List.map_singleton,
        List.map_singleton, Value.path, List.append_nil]
      rfl
    · have hchild (c : (String × Value) × Nat) (hc : c ∈ v.children.zipIdx) :
          (leaves (childKey (Text.dotted path) c.1.1) c.1.2).map some =
            (c.1.2.leafAddresses.map (c.2 :: ·)).map fun a =>
              (v.at? a).map fun leaf => (Text.dotted (path ++ v.path a), leaf) := by
        have hat := List.mem_zipIdx_iff_getElem?.mp hc
        have hmem := List.mem_of_getElem? hat
        -- the name of the child makes the path longer by one segment
        have hlonger : ∀ name ∈ path ++ [c.1.1], Text.IsSegment name :=
          List.forall_mem_append.mpr ⟨hpath, List.forall_mem_singleton.mpr (hnames.children _ hmem)⟩
        rw [childKey_dotted hpath, ih _ hmem (hnames.child hmem) hlonger, List.map_map]
        refine List.map_congr_left fun a _ => ?_
        rw [Function.comp_apply, Value.at?_cons hat, Value.path_cons hat, List.append_assoc]
        rfl
      have hnumbered : leaves (Text.dotted path) v =
          v.children.zipIdx.flatMap fun c => leaves (childKey (Text.dotted path) c.1.1) c.1.2 := by
        rw [leaves_of_children hleaf]
        conv_lhs => rw [← List.zipIdx_map_fst 0 v.children, List.flatMap_map]
      rw [hnumbered, Value.leafAddresses_of_children hleaf, List.map_flatMap, List.map_flatMap,
        List.flatMap_congr hchild]

/-! ## The rows -/

/-- How a leaf is shown: a text as it is, and anything else as it is written in a document. -/
inductive ShownAs : Value → String → Prop where
  | text (s : String) : ShownAs (.string s) s
  | written {leaf : Value} (h : ∀ s, leaf ≠ .string s) : ShownAs leaf leaf.compact

theorem shownAs_leafText (leaf : Value) : ShownAs leaf (leafText leaf) := by
  cases leaf with
  | string s => exact .text s
  | _ => exact .written nofun

/-- The row of the leaf at an address: the names on the way to it, and the leaf. -/
def IsRowOf (v : Value) (a : List Nat) (row : Row) : Prop :=
  ∃ leaf text, v.at? a = some leaf ∧ ShownAs leaf text ∧ row = [Text.dotted (v.path a), text]

/-- The rows of a document are its leaves with their texts, unless the document as a whole is
blank. -/
theorem genericRows_of_not_blank (hnull : v ≠ .null) (harray : v ≠ .array [])
    (hobject : v ≠ .object []) :
    genericRows v = (leaves "" v).map fun entry => [entry.1, leafText entry.2] := by
  have hblank : isBlank v = false := by
    unfold isBlank
    split <;> simp_all
  rw [genericRows, hblank]
  rfl

/-- Each leaf has its row. -/
theorem forall₂_isRowOf (hnames : v.SegmentNames) :
    List.Forall₂ (IsRowOf v) v.leafAddresses
      ((leaves "" v).map fun entry => [entry.1, leafText entry.2]) := by
  have hleaves := map_leaves hnames (List.forall_mem_nil _)
  rw [← List.forall₂_eq_eq_eq, List.forall₂_map_left_iff, List.forall₂_map_right_iff] at hleaves
  rw [List.forall₂_map_right_iff]
  refine hleaves.flip.imp fun a entry h => ?_
  obtain ⟨leaf, hat, rfl⟩ := Option.map_eq_some_iff.mp h.symm
  exact ⟨leaf, _, hat, shownAs_leafText leaf, rfl⟩

/-- No key is shown twice. -/
theorem nodup_keys (hnames : v.SegmentNames) (hunique : v.UniqueNames) {rows : List Row}
    (h : List.Forall₂ (IsRowOf v) v.leafAddresses rows) : (rows.map (·.head?)).Nodup := by
  have hkeys : v.leafAddresses.map (fun a => some (Text.dotted (v.path a))) =
      rows.map (·.head?) := by
    rw [← List.forall₂_eq_eq_eq, List.forall₂_map_left_iff, List.forall₂_map_right_iff]
    refine h.imp fun a row hrow => ?_
    obtain ⟨leaf, text, -, -, rfl⟩ := hrow
    rfl
  rw [← hkeys]
  refine List.Nodup.map_on (fun a ha b hb hkey => ?_) (Value.nodup_leafAddresses v)
  obtain ⟨leaf, hat, -⟩ := Value.mem_leafAddresses.mp ha
  obtain ⟨leaf', hat', -⟩ := Value.mem_leafAddresses.mp hb
  exact Value.path_inj hunique hat hat'
    (Text.dotted_inj_of_segments (hnames.path a) (hnames.path b) (Option.some.inj hkey))

/-- **Each leaf of a document has its row.** If the names in a document are not empty and have no
points, the rows of its table are those of its leaves, in the order of the document. The key of a
row is the names on the way to the leaf with points in between. If no object has a name twice, as in
all documents that have been read, no two rows have the same key. -/
theorem each_leaf_has_its_row (hnull : v ≠ .null) (harray : v ≠ .array [])
    (hobject : v ≠ .object []) (hnames : v.SegmentNames) :
    v.leafAddresses.Pairwise (· < ·) ∧
    (∀ a, a ∈ v.leafAddresses ↔ ∃ leaf, v.at? a = some leaf ∧ leaf.children = []) ∧
    List.Forall₂ (IsRowOf v) v.leafAddresses (genericRows v) ∧
    (v.UniqueNames → ((genericRows v).map (·.head?)).Nodup) := by
  rw [genericRows_of_not_blank hnull harray hobject]
  have hrows := forall₂_isRowOf hnames
  exact ⟨Value.pairwise_leafAddresses v, fun _ => Value.mem_leafAddresses, hrows,
    fun hunique => nodup_keys hnames hunique hrows⟩

namespace Sample

/-- A document with objects in an array in an object, and leaves of all kinds. -/
def nested : Value :=
  .object [("empty", .object []),
    ("nodes", .array [.object [("count", .nat 2), ("name", .string "a,b")], .null]),
    ("ok", .bool true)]

theorem normalize_nested : nested.normalize = nested := rfl

/-- The nested sample document has proper names. -/
theorem segmentNames_nested : nested.SegmentNames := by
  have hscalar {leaf : Value} (hchildren : leaf.children = [])
      (h : ∀ members, leaf ≠ .object members) :
      leaf.SegmentNames := Value.throughout_scalar hchildren h
  have hempty : Value.SegmentNames (.object []) :=
    Value.throughout_object_iff.mpr ⟨List.forall_mem_nil _, List.forall_mem_nil _⟩
  have hfields : Value.SegmentNames (.object [("count", .nat 2), ("name", .string "a,b")]) := by
    refine Value.throughout_object_iff.mpr ⟨by decide, ?_⟩
    exact List.forall_mem_cons.mpr
      ⟨hscalar rfl nofun, List.forall_mem_singleton.mpr (hscalar rfl nofun)⟩
  have hnodes : Value.SegmentNames
      (.array [.object [("count", .nat 2), ("name", .string "a,b")], .null]) := by
    refine Value.throughout_array_iff.mpr ?_
    exact List.forall_mem_cons.mpr ⟨hfields, List.forall_mem_singleton.mpr (hscalar rfl nofun)⟩
  refine Value.throughout_object_iff.mpr ⟨by decide, List.forall_mem_cons.mpr ⟨hempty, ?_⟩⟩
  exact List.forall_mem_cons.mpr ⟨hnodes, List.forall_mem_singleton.mpr (hscalar rfl nofun)⟩

end Sample

/-- Leaves of all kinds have their rows. -/
theorem each_leaf_has_its_row_sample :
    (Sample.nested ≠ .null ∧ Sample.nested ≠ .array [] ∧
      Sample.nested ≠ .object [] ∧ Sample.nested.SegmentNames ∧
      Sample.nested.UniqueNames) ∧
    genericRows Sample.nested =
      [["empty", "\x7b\x7d"], ["nodes.0.count", "2"],
        ["nodes.0.name", "a,b"], ["nodes.1", "null"], ["ok", "true"]] ∧
    [1, 0, 1] ∈ Sample.nested.leafAddresses ∧
    ((genericRows Sample.nested).map (·.head?)).Nodup := by
  have hunique := Value.uniqueNames_normalize Sample.nested
  rw [Sample.normalize_nested] at hunique
  obtain ⟨-, hmem, -, hnodup⟩ := each_leaf_has_its_row (v := Sample.nested) nofun nofun nofun
    Sample.segmentNames_nested
  exact ⟨⟨nofun, nofun, nofun, Sample.segmentNames_nested, hunique⟩,
    by decide +kernel, (hmem _).mpr ⟨_, rfl, rfl⟩,
    hnodup hunique⟩

end Report

end CoChange
