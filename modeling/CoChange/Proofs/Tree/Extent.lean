import CoChange.Proofs.Correlation
import CoChange.Proofs.Tree.Address
import Mathlib.Logic.Relation
import Mathlib.Order.Bounds.Basic

/-!
# How far a node reaches

A placed node that records an end behind its start ends there. Any other placed node is *open*: its
last line is one maximum over a walk of its tree, and the walk meets recorded places only. The law
behind it is about last lines: an open node ends with the last of the placed nodes below it, which
can be open themselves.

* **`mem_preOrder_iff`**: a walk from a node visits it and the nodes below it, at any depth.
* **`lastLine_le_iff`**: the last line of an open node by the recorded places.
* **`isLUB_lastLine`**: the last line of an open node by the last lines below it.
* **`extent_covers_nodes_below`**: the lines of all placed nodes, and how those of open nodes nest.
* **`mem_reports_of_below`**: a change that touches a nested unit touches the open unit around it.
-/

namespace CoChange

theorem foldl_max_le_iff {α : Type} (f : α → Nat) (l : List α) (a b : Nat) :
    l.foldl (fun m x => max m (f x)) a ≤ b ↔ a ≤ b ∧ ∀ x ∈ l, f x ≤ b := by
  induction l generalizing a with
  | nil => simp
  | cons x rest ih => rw [List.foldl_cons, ih, Nat.max_le, List.forall_mem_cons, and_assoc]

namespace Node

/-- A step down in a tree. -/
def HasChild (n child : Node) : Prop := child ∈ n.children

/-- When a node stands below another one, at any depth. -/
def Below (n d : Node) : Prop := Relation.TransGen HasChild n d

/-- **A walk from a node visits it and the nodes below it.** The walk goes on with the children of
whatever it visits, and with nothing else. -/
theorem mem_preOrder_iff {n d : Node} : d ∈ n.preOrder ↔ Relation.ReflTransGen HasChild n d := by
  rw [preOrder_eq_documentOrder]
  induction n using induction_on_children with
  | h n ih =>
    -- both sides say: the node itself, or found from one of its children
    rw [documentOrder_eq, documentOrderAll_eq_flatMap, List.mem_cons, List.mem_flatMap,
      Relation.ReflTransGen.cases_head_iff, eq_comm]
    exact or_congr_right (exists_congr fun child => and_congr_right fun hchild => ih child hchild)

theorem self_mem_preOrder (n : Node) : n ∈ n.preOrder := mem_preOrder_iff.mpr .refl

theorem Below.mem_preOrder {n d : Node} (h : Below n d) : d ∈ n.preOrder :=
  mem_preOrder_iff.mpr h.to_reflTransGen

/-- What a walk from a visited node visits is visited, too. -/
theorem mem_preOrder_trans {n d e : Node} (hd : d ∈ n.preOrder) (he : e ∈ d.preOrder) :
    e ∈ n.preOrder :=
  mem_preOrder_iff.mpr ((mem_preOrder_iff.mp hd).trans (mem_preOrder_iff.mp he))

/-! ## Recorded places -/

variable {n d : Node} {s t : Span}

theorem reach_of_ended (hend : s.startLine < s.endLine) : Span.reach s = s.endLine := if_pos hend

theorem reach_of_open (hopen : s.endLine ≤ s.startLine) : Span.reach s = s.startLine :=
  if_neg (Nat.not_lt.mpr hopen)

theorem startLine_le_reach (s : Span) : s.startLine ≤ Span.reach s := by
  rcases Nat.lt_or_ge s.startLine s.endLine with hend | hopen
  · rw [reach_of_ended hend]
    exact Nat.le_of_lt hend
  · rw [reach_of_open hopen]

theorem lastLine_of_ended (hs : n.span = some s) (hend : s.startLine < s.endLine) :
    n.lastLine = s.endLine := by
  simp only [lastLine, hs, if_pos hend]

/-- **An open node ends on the first line that no place in its tree reaches beyond.** The walk takes
the largest of the lines that the places reach to, from the first line of the node on. -/
theorem lastLine_le_iff (hs : n.span = some s) (hopen : s.endLine ≤ s.startLine) {line : Nat} :
    n.lastLine ≤ line ↔ s.startLine ≤ line ∧ ∀ d ∈ n.preOrder, ∀ t, d.span = some t →
    Span.reach t ≤ line := by
  simp only [lastLine, hs, if_neg (Nat.not_lt.mpr hopen)]
  rw [foldl_max_le_iff, List.forall_mem_filterMap]

/-- No place in the tree of an open node reaches beyond its last line. -/
theorem reach_le_lastLine_of_mem (hs : n.span = some s) (hopen : s.endLine ≤ s.startLine)
    (hd : d ∈ n.preOrder) (ht : d.span = some t) : Span.reach t ≤ n.lastLine :=
  ((lastLine_le_iff hs hopen).mp (Nat.le_refl _)).2 d hd t ht

theorem reach_le_lastLine (hs : n.span = some s) : Span.reach s ≤ n.lastLine := by
  rcases Nat.lt_or_ge s.startLine s.endLine with hend | hopen
  · rw [lastLine_of_ended hs hend, reach_of_ended hend]
  · exact reach_le_lastLine_of_mem hs hopen n.self_mem_preOrder hs

theorem startLine_le_lastLine (hs : n.span = some s) : s.startLine ≤ n.lastLine :=
  Nat.le_trans (startLine_le_reach s) (reach_le_lastLine hs)

/-- A node, open or not, ends by any line that no place in its tree reaches beyond. -/
theorem lastLine_le_of_reach_le {line : Nat}
    (h : ∀ d ∈ n.preOrder, ∀ t, d.span = some t → Span.reach t ≤ line) : n.lastLine ≤ line := by
  cases hs : n.span with
  | none =>
    simp only [lastLine, hs]
    exact Nat.zero_le line
  | some s =>
    -- a node that is not open ends where its own place does, and the walk begins with that
    have hself : Span.reach s ≤ line := h n n.self_mem_preOrder s hs
    rcases Nat.lt_or_ge s.startLine s.endLine with hend | hopen
    · rwa [lastLine_of_ended hs hend, ← reach_of_ended hend]
    · exact (lastLine_le_iff hs hopen).mpr ⟨Nat.le_trans (startLine_le_reach s) hself, h⟩

/-! ## Last lines below an open node -/

/-- **No node below an open one ends behind it**: what a walk from the one meets, a walk from the
other met. -/
theorem lastLine_le_of_below (hs : n.span = some s) (hopen : s.endLine ≤ s.startLine)
    (hd : Below n d) :
    d.lastLine ≤ n.lastLine :=
  lastLine_le_of_reach_le fun _ he _ ht =>
    reach_le_lastLine_of_mem hs hopen (mem_preOrder_trans hd.mem_preOrder he) ht

/-- **An open node ends with the last of the placed nodes below it**, though not before its
start. -/
theorem isLUB_lastLine (hs : n.span = some s) (hopen : s.endLine ≤ s.startLine) :
    IsLUB (insert s.startLine (lastLine '' {d | Below n d ∧ d.span.isSome})) n.lastLine := by
  refine isLUB_iff_le_iff.mpr fun line => ?_
  rw [upperBounds_insert, Set.mem_inter_iff, Set.mem_Ici, mem_upperBounds, Set.forall_mem_image]
  constructor
  · intro hline
    exact ⟨Nat.le_trans (startLine_le_lastLine hs) hline,
      fun d hd => Nat.le_trans (lastLine_le_of_below hs hopen hd.1) hline⟩
  · rintro ⟨hstart, hbelow⟩
    refine (lastLine_le_iff hs hopen).mpr ⟨hstart, fun d hd t ht => ?_⟩
    rcases Relation.reflTransGen_iff_eq_or_transGen.mp (mem_preOrder_iff.mp hd) with rfl | hd
    · -- the node itself is open, and its own place reaches no further than its start
      obtain rfl : s = t := Option.some.inj (hs.symm.trans ht)
      rwa [reach_of_open hopen]
    · have hplaced : d.span.isSome := Option.isSome_iff_exists.mpr ⟨t, ht⟩
      exact Nat.le_trans (reach_le_lastLine ht) (hbelow ⟨hd, hplaced⟩)

/-- **The extent of a placed node covers the nodes below it.** It does not end before it starts. It
ends where the node records an end behind its start, and if there is no such end, with the last of
the placed nodes below it, at any depth. Then a placed node below that does not start before it has
all its lines in it. This asks nothing of the nodes below: where only leaves record an end, every
node that has others below it is an open one. -/
theorem extent_covers_nodes_below (hs : n.span = some s) :
    s.startLine ≤ n.lastLine ∧
    (s.startLine < s.endLine → n.lastLine = s.endLine) ∧
    (s.endLine ≤ s.startLine →
      IsLUB (insert s.startLine (lastLine '' {d | Below n d ∧ d.span.isSome})) n.lastLine ∧
      ∀ d t, Below n d → d.span = some t → s.startLine ≤ t.startLine →
        Set.Icc t.startLine d.lastLine ⊆ Set.Icc s.startLine n.lastLine) := by
  refine ⟨startLine_le_lastLine hs,
    lastLine_of_ended hs, fun hopen => ⟨isLUB_lastLine hs hopen, ?_⟩⟩
  intro d t hd _ hstart
  exact Set.Icc_subset_Icc hstart (lastLine_le_of_below hs hopen hd)

namespace Sample

/-- A call on some lines, or with its last line unknown. -/
def call (first last : Nat) (children : List Node) : Node :=
  ⟨0, "Call", "", [], ∅, some ⟨first, 0, 0, last, 0, 0⟩, children⟩

/-- A node that is not placed. -/
def block (children : List Node) : Node := ⟨0, "Block", "", [], ∅, none, children⟩

/-- A call on line three of which no end is recorded, with an argument on lines four and five. -/
def nestedCall : Node := call 3 0 [block [call 4 5 []]]

/-- A call around it that records no end either, with unplaced nodes between the two and a leaf
before both. -/
def surroundingCall : Node := call 2 2 [block [block [nestedCall]], call 1 1 []]

end Sample

/-- Neither of two nested calls records an end: both end on line five, with a leaf of the inner one,
which ends where it says. -/
theorem extent_covers_nodes_below_sample :
    Sample.surroundingCall.span = some ⟨2, 0, 0, 2, 0, 0⟩ ∧
      Below Sample.surroundingCall Sample.nestedCall ∧
      Sample.surroundingCall.lastLine = 5 ∧
      IsLUB (insert 2 (lastLine '' {d | Below Sample.surroundingCall d ∧ d.span.isSome})) 5 ∧
      Set.Icc 3 Sample.nestedCall.lastLine ⊆ Set.Icc 2 Sample.surroundingCall.lastLine ∧
      (Sample.call 4 5 []).lastLine = 5 := by
  have hspan : Sample.surroundingCall.span = some ⟨2, 0, 0, 2, 0, 0⟩ := rfl
  have hlast : Sample.surroundingCall.lastLine = 5 := by decide +kernel
  have hbelow : Below Sample.surroundingCall Sample.nestedCall :=
    .head (List.mem_cons_self : _ ∈ Sample.surroundingCall.children)
      (.head (List.mem_cons_self : _ ∈ (Sample.block _).children) (.single List.mem_cons_self))
  obtain ⟨-, -, hopen⟩ := extent_covers_nodes_below hspan
  obtain ⟨hlub, hlines⟩ := hopen (by decide)
  obtain ⟨-, hended, -⟩ := extent_covers_nodes_below (n := Sample.call 4 5 []) rfl
  exact ⟨hspan, hbelow, hlast, hlast ▸ hlub, hlines _ _ hbelow rfl (by decide), hended (by decide)⟩

end Node

/-! ## Nested units in a change -/

section Script

variable {diff : FileDiff} {units : Side → SortedMap String Node} {side : Side}
    {outer inner : String}
  {n d : Node} {s t : Span}

/-- **A change that touches a nested unit touches the open unit around it**, if that one starts no
later. -/
theorem mem_reports_of_below (houter : (units side).get? outer = some n) (hs : n.span = some s)
    (hopen : s.endLine ≤ s.startLine) (hpos : s.startLine ≠ 0) (hd : Node.Below n d)
    (ht : d.span = some t) (hstart : s.startLine ≤ t.startLine)
    (hmem : (side, inner, d) ∈ diff.reports units) :
    (side, outer, n) ∈ diff.reports units := by
  have hspans : ∀ line, d.Spans line → n.Spans line := by
    rintro line ⟨t', ht', -, hfirst, hlast⟩
    obtain rfl : t = t' := Option.some.inj (ht.symm.trans ht')
    exact ⟨s, hs, hpos, Nat.le_trans hstart hfirst,
      Nat.le_trans hlast (Node.lastLine_le_of_below hs hopen hd)⟩
  obtain ⟨line, hline⟩ := (mem_reports.mp hmem).2
  obtain ⟨htext, hchanged, hunit⟩ := Finset.mem_filter.mp hline
  exact mem_reports.mpr ⟨houter, line, Finset.mem_filter.mpr ⟨htext, hchanged, hspans line hunit⟩⟩

end Script

end CoChange
