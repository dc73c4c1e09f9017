import CoChange.Correlation
import CoChange.Proofs.EditScript
import CoChange.Proofs.Registry.Event
import Mathlib.Order.Interval.Finset.Nat

/-!
# Changes touch the units on changed lines

The walk over an edit script keeps a position in each of the two texts and lists the nodes on the
lines that the edits take up in one text only. `FileDiff.reports` is that list with the text in
which each node was met, and `FileDiff.changedLines` the set of lines that a node should be met on:
the changed lines of the text that lie in the extent of the node.

* **`touchesFrom_eq`**: what a change touches are the reports, without their texts.
* **`countP_reportsFrom`**: a node is reported once for each of its changed lines.
* **`touches_follow_changed_lines`**: so for whole scripts, and a modified file touches the units
  with changed lines.
-/

namespace CoChange

open EditScript

/-- Whether a line, counting from one, lies in the extent of a node. A node without a place, or with
no start line, has no extent. -/
def Node.Spans (n : Node) (line : Nat) : Prop :=
  ∃ s, n.span = some s ∧ s.startLine ≠ 0 ∧ s.startLine ≤ line ∧ line ≤ n.lastLine

/-- What the index checks is that the line lies in the extent of the node. -/
theorem LineIndex.covers_iff {n : Node} {line : Nat} : LineIndex.covers n line = true ↔
    n.Spans line := by
  unfold LineIndex.covers Node.Spans
  cases n.span with
  | none => simp
  | some s => simp [and_assoc]

instance (n : Node) (line : Nat) : Decidable (n.Spans line) :=
  decidable_of_iff _ LineIndex.covers_iff

/-- The lines of a text that a script changes and that lie in the extent of a node. -/
def FileDiff.changedLines (d : FileDiff) (side : Side) (n : Node) : Finset Nat :=
  (Finset.Icc 1 (d.lines side)).filter fun line => Changes side d.edits line ∧ n.Spans line

/-- What one edit touches, at a position in each of the two texts, with the text in which it is
met. -/
def editReports (index : Side → LineIndex) (position : Side → Nat) (e : Edit) :
    List (Side × String × Node) :=
  match e.kind with
  | .equal => []
  | .delete => ((index .old).along (position .old) e.size).map (Prod.mk .old)
  | .insert => ((index .new).along (position .new) e.size).map (Prod.mk .new)

/-- What the edits touch, from a position in each of the two texts on, with the text in which it is
met. -/
def reportsFrom (index : Side → LineIndex) : (Side → Nat) → List Edit → List (Side × String × Node)
  | _, [] => []
  | position, e :: rest =>
    editReports index position e ++
      reportsFrom index (fun side => position side + e.width side) rest

/-- The nodes on changed lines, each with the text in which it is met. -/
def FileDiff.reports (d : FileDiff) (units : Side → SortedMap String Node) :
    List (Side × String × Node) :=
  reportsFrom (fun side => ⟨units side, d.lines side⟩) (fun _ => 0) d.edits

/-- **What a change touches are the reports**, in their order. The walk keeps its two positions as
the reports do. The induction is on the edits. -/
theorem touchesFrom_eq (index : Side → LineIndex) (position : Side → Nat) (edits : List Edit) :
    touchesFrom (index .old) (index .new) (position .old) (position .new) edits =
      (reportsFrom index position edits).map (·.2) := by
  induction edits generalizing position with
  | nil => rfl
  | cons e rest ih =>
    obtain ⟨kind, size⟩ := e
    have hmap : ∀ (side : Side) (l : List (String × Node)), (l.map (Prod.mk side)).map (·.2) = l :=
      fun side l => by
      rw [List.map_map]
      exact List.map_id' l
    rw [reportsFrom, List.map_append, ← ih]
    cases kind with
    | equal => rfl
    | delete => exact congrArg (· ++ _) (hmap .old _).symm
    | insert => exact congrArg (· ++ _) (hmap .new _).symm

/-! ## How often a node is reported -/

namespace LineIndex

variable {index : LineIndex} {name : String} {n : Node}

/-- A node stands once on each line of its extent, and on no other. -/
theorem countP_at (h : index.nodes.get? name = some n) {position : Nat}
    (hlt : position < index.lineCount) :
    (index.at_ position).countP (·.1 == name) = if n.Spans (position + 1) then 1 else 0 := by
  have hswap : ∀ l : List (String × Node),
      (l.filter fun e => covers e.2 (position + 1)).countP (·.1 == name) =
        (l.filter (·.1 == name)).countP fun e => covers e.2 (position + 1) := fun l => by
    rw [List.countP_filter, List.countP_filter]
    exact List.countP_congr fun e _ => by rw [Bool.and_comm]
  rw [at_, if_pos hlt, hswap, SortedMap.filter_key h, List.countP_singleton]
  simp only [covers_iff]

/-- Among the nodes on some lines, a node is listed once for each of the lines that lie in its
extent. -/
theorem countP_flatMap_at (h : index.nodes.get? name = some n) {positions : List Nat}
    (hlt : ∀ i ∈ positions, i < index.lineCount) :
    (positions.flatMap index.at_).countP (·.1 == name) =
      positions.countP fun i => decide (n.Spans (i + 1)) := by
  induction positions with
  | nil => rfl
  | cons i rest ih =>
    rw [List.flatMap_cons, List.countP_append, countP_at h (hlt i List.mem_cons_self),
      ih fun j hj => hlt j (List.mem_cons_of_mem _ hj), List.countP_cons, Nat.add_comm]
    simp only [decide_eq_true_eq]

/-- Positions count from zero and lines from one. -/
theorem countP_range' (P : Nat → Prop) [DecidablePred P] (start size : Nat) :
    (List.range' start size).countP (fun i => decide (P (i + 1))) =
      ((Finset.Ioc start (start + size)).filter P).card := by
  have hshift : List.range' (start + 1) size = (List.range' start size).map (1 + ·) := by
    rw [List.map_add_range', Nat.add_comm]
  have hcount : (List.range' start size).countP (fun i => decide (P (i + 1))) =
      ((List.range' (start + 1) size).filter fun line => decide (P line)).length := by
    rw [← List.countP_eq_length_filter, hshift, List.countP_map]
    exact List.countP_congr fun i _ => by rw [Function.comp_apply, Nat.add_comm]
  rw [hcount, ← List.toFinset_card_of_nodup ((List.nodup_range' 1).filter _)]
  refine congrArg Finset.card (Finset.ext fun line => ?_)
  rw [List.mem_toFinset, List.mem_filter, List.mem_range'_1, Finset.mem_filter, Finset.mem_Ioc,
    decide_eq_true_iff]
  exact and_congr_left fun _ => by omega

/-- **On a run of lines a node stands as often as lines of its extent lie in the run and in the
text.** -/
theorem countP_along (h : index.nodes.get? name = some n) (start size : Nat) :
    (index.along start size).countP (·.1 == name) =
      ((Finset.Icc 1 index.lineCount).filter fun line => start < line ∧
        line ≤ start + size ∧ n.Spans line).card := by
  rw [along, countP_flatMap_at h fun i hi => ?_, countP_range']
  · refine congrArg Finset.card (Finset.ext fun line => ?_)
    simp only [Finset.mem_filter, Finset.mem_Ioc, Finset.mem_Icc]
    constructor
    · rintro ⟨⟨hlo, hhi⟩, hspans⟩
      exact ⟨⟨by omega, by omega⟩, hlo, by omega, hspans⟩
    · rintro ⟨⟨hone, hcount⟩, hlo, hhi, hspans⟩
      exact ⟨⟨hlo, by omega⟩, hspans⟩
  · have hrange := List.mem_range'_1.mp hi
    omega

end LineIndex

section Reports

variable {index : Side → LineIndex} {side : Side} {name : String} {n : Node}

/-- The reports of one edit: those of a run of changed lines, if the edit takes up lines in this
text only. -/
theorem countP_editReports (h : (index side).nodes.get? name = some n) (position : Side → Nat)
    (e : Edit) :
    (editReports index position e).countP (fun r => r.1 == side && r.2.1 == name) =
      ((Finset.Icc 1 (index side).lineCount).filter fun line =>
        e.kind = side.change ∧ position side < line ∧
          line ≤ position side + e.size ∧ n.Spans line).card := by
  obtain ⟨kind, size⟩ := e
  have hsame : ∀ l : List (String × Node),
      (l.map (Prod.mk side)).countP (fun r => r.1 == side && r.2.1 == name) =
        l.countP (·.1 == name) := fun l => by
    rw [List.countP_map]
    exact List.countP_congr fun e _ => by simp
  have hother : ∀ (side' : Side) (l : List (String × Node)), side' ≠ side →
      (l.map (Prod.mk side')).countP (fun r => r.1 == side && r.2.1 == name) = 0 :=
    fun side' l hne => by
    rw [List.countP_map, List.countP_eq_zero]
    simp [hne]
  have hnone : kind ≠ side.change → ((Finset.Icc 1 (index side).lineCount).filter fun line =>
      kind = side.change ∧ position side < line ∧ line ≤ position side + size ∧ n.Spans line).card =
        0 := fun hne => by
    rw [Finset.card_eq_zero, Finset.filter_eq_empty_iff]
    exact fun line _ hline => hne hline.1
  -- an edit reports on the side that it changes, and on no other
  cases kind with
  | equal => exact (hnone (by cases side <;> decide)).symm
  | delete =>
    cases side with
    | old =>
      refine (hsame _).trans ((LineIndex.countP_along h (position .old) size).trans ?_)
      simp only [Side.change, true_and]
    | new => exact (hother .old _ (by decide)).trans (hnone (by decide)).symm
  | insert =>
    cases side with
    | old => exact (hother .new _ (by decide)).trans (hnone (by decide)).symm
    | new =>
      refine (hsame _).trans ((LineIndex.countP_along h (position .new) size).trans ?_)
      simp only [Side.change, true_and]

/-- **A node is reported once for each changed line of its extent.** The induction is on the script;
its invariant is that the position in a text is the number of lines that the edits so far take up in
it. -/
theorem countP_reportsFrom (h : (index side).nodes.get? name = some n) (position : Side → Nat)
    (edits : List Edit) :
    (reportsFrom index position edits).countP (fun r => r.1 == side && r.2.1 == name) =
      ((Finset.Icc 1 (index side).lineCount).filter fun line =>
        position side < line ∧ Changes side edits (line - position side) ∧ n.Spans line).card := by
  induction edits generalizing position with
  | nil => simp [reportsFrom]
  | cons e rest ih =>
    rw [reportsFrom, List.countP_append, countP_editReports h, ih, ← Finset.card_union_of_disjoint,
      ← Finset.filter_or]
    · refine congrArg Finset.card (Finset.filter_congr fun line _ => ?_)
      rw [changes_cons, Nat.sub_sub]
      constructor
      · rintro (⟨hkind, hlo, hhi, hspans⟩ | ⟨hlt, hchanges, hspans⟩)
        · exact ⟨hlo, Or.inl ⟨hkind, by omega, by omega⟩, hspans⟩
        · exact ⟨by omega, Or.inr ⟨by omega, hchanges⟩, hspans⟩
      · rintro ⟨hlo, ⟨hkind, _, hhi⟩ | ⟨hlt, hchanges⟩, hspans⟩
        · exact Or.inl ⟨hkind, hlo, by omega, hspans⟩
        · exact Or.inr ⟨by omega, hchanges, hspans⟩
    · -- the lines of the edit come before those of the rest
      refine Finset.disjoint_filter.mpr fun line _ hfirst hrest => ?_
      have hwidth : e.width side = e.size := if_pos (Or.inr hfirst.1)
      omega

/-- What is reported was found in its text. -/
theorem get?_of_mem_reportsFrom {position : Side → Nat} {edits : List Edit}
    {r : Side × String × Node}
    (h : r ∈ reportsFrom index position edits) : (index r.1).nodes.get? r.2.1 = some r.2.2 := by
  -- a name in an index of lines is one of the nodes that the index was made from
  have halong : ∀ {side : Side} {start size : Nat},
      r ∈ ((index side).along start size).map (Prod.mk side) →
      (index r.1).nodes.get? r.2.1 = some r.2.2 := by
    intro side start size hr
    obtain ⟨e, he, rfl⟩ := List.mem_map.mp hr
    obtain ⟨i, _, hi⟩ := List.mem_flatMap.mp he
    rw [LineIndex.at_] at hi
    split at hi
    · exact SortedMap.get?_of_mem_toList (List.mem_of_mem_filter hi)
    · exact absurd hi List.not_mem_nil
  induction edits generalizing position with
  | nil => exact absurd h List.not_mem_nil
  | cons e rest ih =>
    rw [reportsFrom, List.mem_append] at h
    rcases h with h | h
    · unfold editReports at h
      split at h
      · exact absurd h List.not_mem_nil
      · exact halong h
      · exact halong h
    · exact ih h

end Reports

/-! ## Whole scripts -/

/-- The named nodes of the two sides of a change. -/
def Change.named (q : UnitQuery) (c : Change) : Side → SortedMap String Node
  | .old => q.extractFrom c.before
  | .new => q.extractFrom c.after

section Script

variable {d : FileDiff} {units : Side → SortedMap String Node} {side : Side}
    {name : String} {n : Node}

theorem touches_eq (d : FileDiff) (units : Side → SortedMap String Node) :
    d.touches (units .old) (units .new) = (d.reports units).map (·.2) :=
  touchesFrom_eq (fun side => ⟨units side, d.lines side⟩) (fun _ => 0) d.edits

/-- A node of a text is reported as often as the text has changed lines in its extent. -/
theorem countP_reports (h : (units side).get? name = some n) :
    (d.reports units).countP (fun r => r.1 == side && r.2.1 == name) =
      (d.changedLines side n).card := by
  let index : Side → LineIndex := fun side => ⟨units side, d.lines side⟩
  have hunit : (index side).nodes.get? name = some n := h
  rw [FileDiff.reports, countP_reportsFrom hunit, FileDiff.changedLines]
  refine congrArg Finset.card (Finset.filter_congr fun line hline => ?_)
  have hpos : 0 < line := (Finset.mem_Icc.mp hline).1
  rw [and_iff_right hpos, Nat.sub_zero]

/-- What is reported are the nodes with changed lines. -/
theorem mem_reports {r : Side × String × Node} :
    r ∈ d.reports units ↔ (units r.1).get? r.2.1 = some r.2.2 ∧
    (d.changedLines r.1 r.2.2).Nonempty := by
  obtain ⟨side, name, n⟩ := r
  constructor
  · intro h
    have hget : (units side).get? name = some n := get?_of_mem_reportsFrom h
    refine ⟨hget, Finset.card_pos.mp ?_⟩
    rw [← countP_reports hget]
    exact List.countP_pos_iff.mpr ⟨_, h, by simp⟩
  · rintro ⟨hget, hlines⟩
    have hpos := Finset.card_pos.mpr hlines
    rw [← countP_reports hget, List.countP_pos_iff] at hpos
    obtain ⟨⟨side', name', n'⟩, hmem, hsame⟩ := hpos
    simp only [Bool.and_eq_true, beq_iff_eq] at hsame
    obtain ⟨rfl, rfl⟩ := hsame
    -- there is one node of this name in this text
    obtain rfl : n = n' := Option.some.inj (hget.symm.trans (get?_of_mem_reportsFrom hmem))
    exact hmem

/-- The keys that a modified file adds to the touched ones. -/
theorem mem_touched_modification (q : UnitQuery) (c : Change) (p : Registry.Pass)
    (hdiff : c.diff = some d) {key : String} :
    key ∈ (p.modification q c).touched ↔
      key ∈ p.touched ∨ ∃ side name n, (c.named q side).get? name = some n ∧
      (d.changedLines side n).Nonempty ∧
        (CodeUnit.mk n.kind name c.target).key = key := by
  have hrename : (if c.isRename then
      { p with registry := p.registry.renameIn .byKey c.source c.target } else p).touched =
        p.touched := by
    split <;> rfl
  rw [Registry.Pass.modification, Registry.Pass.modificationIn, hdiff]
  show key ∈ (Registry.Pass.touchAll _ (d.touches (c.named q .old) (c.named q .new)) _).touched ↔ _
  -- the rename in front touches nothing, so the keys are those of the reports
  rw [Registry.Pass.touchAll_eq .byKey, Registry.Pass.mem_touched_foldlIn, hrename, or_comm,
    touches_eq]
  refine or_congr Iff.rfl ?_
  simp only [List.mem_map, Event.touch.injEq, exists_eq_right, exists_exists_and_eq_and]
  constructor
  · rintro ⟨⟨side, name, n⟩, hmem, rfl⟩
    obtain ⟨hget, hlines⟩ := mem_reports.mp hmem
    exact ⟨side, name, n, hget, hlines, rfl⟩
  · rintro ⟨side, name, n, hget, hlines, rfl⟩
    exact ⟨(side, name, n), mem_reports.mpr ⟨hget, hlines⟩, rfl⟩

end Script

/-- **A change touches the units on changed lines.** For any named nodes of the two texts and any
script, what is touched are the reports; each is of a node of its text; a node is reported as often
as it has changed lines, and never if it has no place or no start line. So a modified file adds just
the keys of the units with changed lines to the touched ones. -/
theorem touches_follow_changed_lines (d : FileDiff) (units : Side → SortedMap String Node) :
    d.touches (units .old) (units .new) = (d.reports units).map (·.2) ∧
    (∀ r ∈ d.reports units, (units r.1).get? r.2.1 = some r.2.2) ∧
    (∀ side name n, (units side).get? name = some n →
      (d.reports units).countP (fun r => r.1 == side && r.2.1 == name) =
        (d.changedLines side n).card) ∧
    (∀ side name n, (side, name, n) ∈ d.reports units → ∃ s, n.span = some s ∧ s.startLine ≠ 0) ∧
    ∀ (q : UnitQuery) (c : Change) (p : Registry.Pass) (key : String), c.diff = some d →
      (key ∈ (p.modification q c).touched ↔
        key ∈ p.touched ∨ ∃ side name n, (c.named q side).get? name = some n ∧
          (d.changedLines side n).Nonempty ∧ (CodeUnit.mk n.kind name c.target).key = key) := by
  refine ⟨touches_eq d units, fun r hr => (mem_reports.mp hr).1,
    fun side name n h => countP_reports h,
    fun side name n hr => ?_, fun q c p key hdiff => mem_touched_modification q c p hdiff⟩
  obtain ⟨line, hline⟩ := (mem_reports.mp hr).2
  obtain ⟨s, hs, hstart, -⟩ := (Finset.mem_filter.mp hline).2.2
  exact ⟨s, hs, hstart⟩

namespace Sample

/-- A function of which only a leaf on a later line says how far it reaches. -/
def trailing : Node :=
  ⟨0, "Function", "inner", [], ∅, some ⟨3, 0, 0, 0, 0, 0⟩,
    [⟨1, "Block", "", [], ∅, none, [⟨2, "Return", "", [], ∅, some ⟨4, 0, 0, 4, 0, 0⟩, []⟩]⟩]⟩

/-- A function around another one, before and after a change, and a function without a place. -/
def nested : Side → SortedMap String Node
  | .old => .ofList [("inner", trailing),
    ("outer", function "outer" 1 9), ("unplaced", { foo with span := none })]
  | .new => .ofList [("outer", function "outer" 2 9)]

end Sample

/-- Two lines in the middle are replaced by three: the inner function loses both of its lines, and
the extents of the outer one are cut at the ends of the texts. -/
theorem touches_follow_changed_lines_sample :
    let d : FileDiff := ⟨5, 6, [⟨.equal, 2⟩, ⟨.delete, 2⟩, ⟨.insert, 3⟩, ⟨.equal, 1⟩]⟩
    (Sample.nested .old).get? "inner" = some Sample.trailing ∧
      d.changedLines .old Sample.trailing = {3, 4} ∧
      (d.reports Sample.nested).countP (fun r => r.1 == Side.old && r.2.1 == "inner") = 2 ∧
      (d.reports Sample.nested).countP (fun r => r.1 == Side.new && r.2.1 == "outer") = 3 := by
  intro d
  have hinner : (Sample.nested .old).get? "inner" = some Sample.trailing := rfl
  have houter : (Sample.nested .new).get? "outer" = some (Sample.function "outer" 2 9) := rfl
  have hlines : d.changedLines .old Sample.trailing = {3, 4} := by decide +kernel
  obtain ⟨-, -, hcount, -⟩ := touches_follow_changed_lines d Sample.nested
  refine ⟨hinner, hlines, ?_, ?_⟩
  · rw [hcount .old "inner" _ hinner, hlines]
    rfl
  · rw [hcount .new "outer" _ houter]
    decide +kernel

end CoChange
