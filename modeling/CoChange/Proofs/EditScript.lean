import CoChange.Arithmetic
import CoChange.EditScript.Basic
import Mathlib.Data.List.Basic

/-!
# What an edit script says of its two texts

An edit takes up lines in one of the two texts or in both (`Edit.width`), so every edit has a place
in each text: behind the lines that the edits before it take up. A line is changed
(`EditScript.Changes`) if it lies in an edit that takes up lines in its text alone.

* **`changes_append`**: the changed lines of a script are those of its first part, and those of its
  second part behind them.
* **`Fit`**: hunks fit two texts if they stand in order in both, with gaps of the same length in
  both, the one behind the last hunk included.
* **`ofHunks_changes_hunk_lines`**: a script made of fitting hunks takes up both texts and changes
  just the lines of the hunks, in the new text also, of which the starts are not read.
-/

namespace CoChange

/-- The two texts of an edit script. -/
inductive Side where
  | old
  | new
  deriving DecidableEq, Repr

/-- The edits that take up lines in one text only. -/
def Side.change : Side → EditKind
  | .old => .delete
  | .new => .insert

/-- The number of lines that an edit takes up in a text. -/
def Edit.width (side : Side) (e : Edit) : Nat :=
  if e.kind = .equal ∨ e.kind = side.change then e.size else 0

/-- The number of lines of a text that a script was made for. -/
def FileDiff.lines (d : FileDiff) : Side → Nat
  | .old => d.oldLines
  | .new => d.newLines

def Hunk.before (h : Hunk) : Side → Nat
  | .old => h.oldBefore
  | .new => h.newBefore

def Hunk.lines (h : Hunk) : Side → Nat
  | .old => h.oldLines
  | .new => h.newLines

/-- Whether a line of a text, counting from one, lies in a hunk. -/
def Hunk.Covers (side : Side) (h : Hunk) (line : Nat) : Prop :=
  h.before side < line ∧ line ≤ h.before side + h.lines side

namespace EditScript

/-- The number of lines that a script takes up in a text. -/
def extent (side : Side) (edits : List Edit) : Nat := (edits.map (Edit.width side)).sum

/-- Whether a line of a text, counting from one, lies in an edit that takes up lines in this text
only. -/
def Changes (side : Side) (edits : List Edit) (line : Nat) : Prop :=
  ∃ before size after, edits = before ++ ⟨side.change, size⟩ :: after ∧
    extent side before < line ∧ line ≤ extent side before + size

variable {side : Side} {e : Edit} {edits first second : List Edit} {line : Nat}

/-! ## The places of edits -/

@[simp] theorem extent_nil : extent side [] = 0 := rfl

@[simp] theorem extent_cons : extent side (e :: edits) = e.width side + extent side edits := by
  rw [extent, List.map_cons, List.sum_cons, ← extent]

@[simp] theorem extent_append :
    extent side (first ++ second) = extent side first + extent side second := by
  rw [extent, List.map_append, List.sum_append, ← extent, ← extent]

@[simp] theorem not_changes_nil : ¬ Changes side [] line := by
  rintro ⟨before, size, after, h, _⟩
  exact absurd h (by simp)

/-- A changed line lies in the first edit, or behind it in the rest. -/
theorem changes_cons :
    Changes side (e :: edits) line ↔
      (e.kind = side.change ∧ 0 < line ∧ line ≤ e.size) ∨
        (e.width side < line ∧ Changes side edits (line - e.width side)) := by
  constructor
  · rintro ⟨_ | ⟨first, before⟩, size, after, heq, hlo, hhi⟩
    · obtain ⟨rfl, rfl⟩ := List.cons.inj heq
      rw [extent_nil] at hlo hhi
      exact Or.inl ⟨rfl, hlo, by rwa [Nat.zero_add] at hhi⟩
    · obtain ⟨rfl, rfl⟩ := List.cons.inj heq
      rw [extent_cons] at hlo hhi
      exact Or.inr ⟨by omega, before, size, after, rfl, by omega, by omega⟩
  · rintro (⟨hkind, hlo, hhi⟩ | ⟨hlt, before, size, after, rfl, hlo, hhi⟩)
    · -- the line is one of those that the first edit changes
      refine ⟨[], e.size, edits, ?_, hlo, ?_⟩
      · rw [← hkind, List.nil_append]
      · rw [extent_nil]
        omega
    · refine ⟨e :: before, size, after, rfl, ?_, ?_⟩
      · rw [extent_cons]
        omega
      · rw [extent_cons]
        omega

theorem Changes.le_extent (h : Changes side edits line) : 0 < line ∧ line ≤ extent side edits := by
  obtain ⟨before, size, after, rfl, hlo, hhi⟩ := h
  have hwidth : Edit.width side ⟨side.change, size⟩ = size := if_pos (Or.inr rfl)
  rw [extent_append, extent_cons, hwidth]
  omega

/-- **The changed lines of two scripts in a row.** The lines of the second script come behind those
that the first one takes up in the text. -/
theorem changes_append :
    Changes side (first ++ second) line ↔
      Changes side first line ∨
        (extent side first < line ∧ Changes side second (line - extent side first)) := by
  induction first generalizing line with
  | nil =>
    rw [List.nil_append, extent_nil, Nat.sub_zero, or_iff_right not_changes_nil, iff_and_self]
    exact fun h => h.le_extent.1
  | cons e first ih =>
    rw [List.cons_append, changes_cons, changes_cons, ih, extent_cons, Nat.sub_sub, or_assoc]
    refine or_congr Iff.rfl ?_
    constructor
    · rintro ⟨hlt, h | ⟨hlt', h⟩⟩
      · exact Or.inl ⟨hlt, h⟩
      · exact Or.inr ⟨by omega, h⟩
    · rintro (⟨hlt, h⟩ | ⟨hlt, h⟩)
      · exact ⟨hlt, Or.inl h⟩
      · exact ⟨by omega, Or.inr ⟨by omega, h⟩⟩

/-- Whether a line is changed is found out edit by edit. -/
instance decidableChanges (side : Side) :
    (edits : List Edit) → (line : Nat) → Decidable (Changes side edits line)
  | [], _ => isFalse not_changes_nil
  | e :: edits, line =>
    have : Decidable (Changes side edits (line - e.width side)) := decidableChanges side edits _
    decidable_of_iff _ changes_cons.symm

/-! ## Scripts made of hunks -/

/-- Hunks that fit two texts of the given lengths, from a position in each text on: up to each hunk,
and from the last hunk to the end, the texts have equally many lines. -/
inductive Fit (total : Side → Nat) : (Side → Nat) → List Hunk → Prop where
  | done {position} (gap : Nat) (h : ∀ side, total side = position side + gap) :
  Fit total position []
  | hunk {position h rest} (gap : Nat) (hgap : ∀ side, h.before side = position side + gap)
      (hrest : Fit total (fun side => h.before side + h.lines side) rest) :
      Fit total position (h :: rest)

/-- No edit of a run is empty, since an empty run has none. -/
theorem size_ne_zero_of_mem_run {kind : EditKind} {size : Nat} (h : e ∈ FileDiff.run kind size) :
    e.size ≠ 0 := by
  rw [FileDiff.run] at h
  split at h
  · exact absurd h List.not_mem_nil
  · rw [List.mem_singleton.mp h]
    assumption

/-- A run of edits of one kind takes up its size in the texts that the kind takes up lines in. -/
theorem extent_run (kind : EditKind) (size : Nat) :
    extent side (FileDiff.run kind size) = Edit.width side ⟨kind, size⟩ := by
  rw [FileDiff.run]
  split
  · rename_i h
    rw [h, Edit.width]
    exact (ite_self 0).symm
  · rw [extent_cons, extent_nil, Nat.add_zero]

/-- A run changes its own lines, and only those of the text that its kind changes. -/
theorem changes_run {kind : EditKind} {size : Nat} :
    Changes side (FileDiff.run kind size) line ↔ kind = side.change ∧ 0 < line ∧ line ≤ size := by
  rw [FileDiff.run]
  split
  · rename_i h
    rw [iff_false_left not_changes_nil]
    omega
  · rw [changes_cons, or_iff_left fun h => not_changes_nil h.2]

/-- The part of a script that a hunk makes: the lines before it are kept, its own are removed and
added. -/
def hunkEdits (gap : Nat) (h : Hunk) : List Edit :=
  FileDiff.run .equal gap ++ FileDiff.run .delete h.oldLines ++ FileDiff.run .insert h.newLines

theorem extent_hunkEdits (side : Side) (gap : Nat) (h : Hunk) :
    extent side (hunkEdits gap h) = gap + h.lines side := by
  rw [hunkEdits, extent_append, extent_append, extent_run, extent_run, extent_run]
  cases side <;> simp [Edit.width, Side.change, Hunk.lines]

/-- The edits of a hunk leave the lines in front of it alone and change the lines that the hunk has
in the text. -/
theorem changes_hunkEdits {gap : Nat} {h : Hunk} :
    Changes side (hunkEdits gap h) line ↔ gap < line ∧ line ≤ gap + h.lines side := by
  rw [hunkEdits, changes_append, changes_append, extent_append, changes_run, changes_run,
    changes_run, extent_run, extent_run]
  cases side with
  | old =>
    simp only [Edit.width, Side.change, Hunk.lines]
    simp
    omega
  | new =>
    simp only [Edit.width, Side.change, Hunk.lines]
    simp
    omega

/-- Up to the end of a hunk that keeps a gap, a script holds the part that the hunk makes. -/
theorem editsFrom_cons {oldLines cursor gap : Nat} {h : Hunk} {rest : List Hunk}
    (hgap : h.oldBefore = cursor + gap) :
    FileDiff.editsFrom oldLines cursor (h :: rest) =
      hunkEdits gap h ++ FileDiff.editsFrom oldLines (h.oldBefore + h.oldLines) rest := by
  have hcut : h.oldBefore - cursor = gap := by omega
  have hmax : max h.oldBefore cursor = h.oldBefore := by omega
  rw [FileDiff.editsFrom, hcut, hmax, hunkEdits]

section Fit

variable {total position : Side → Nat} {hunks : List Hunk}

/-- A script made of fitting hunks takes up the rest of both texts. -/
theorem Fit.extent_editsFrom (h : Fit total position hunks) (side : Side) :
    position side + extent side (FileDiff.editsFrom (total .old) (position .old) hunks) =
      total side := by
  induction h with
  | @done position gap hend =>
    have hrest : total .old - position .old = gap := by rw [hend, Nat.add_sub_cancel_left]
    rw [FileDiff.editsFrom, hrest, extent_run, hend side]
    rfl
  | @hunk position h rest gap hgap _ ih =>
    rw [editsFrom_cons (hgap .old), extent_append, extent_hunkEdits, ← Nat.add_assoc,
      ← Nat.add_assoc, ← hgap side]
    exact ih

/-- **A script made of fitting hunks changes just the lines of the hunks**, in either text. The
invariant is the position behind the last hunk, which the walk over the script reaches in the new
text as well. -/
theorem Fit.changes_editsFrom (h : Fit total position hunks) (side : Side) (line : Nat) :
    (position side < line ∧
        Changes side (FileDiff.editsFrom (total .old) (position .old) hunks)
          (line - position side)) ↔
      ∃ hunk ∈ hunks, hunk.Covers side line := by
  induction h generalizing line with
  | done gap hend =>
    rw [FileDiff.editsFrom, changes_run]
    cases side <;> simp [Side.change]
  | @hunk position h rest gap hgap hrest ih =>
    have hbefore := hgap side
    rw [editsFrom_cons (hgap .old), changes_append, changes_hunkEdits, extent_hunkEdits,
      List.exists_mem_cons_iff, ← ih line]
    -- behind the gap and the hunk the lines are counted from the end of the hunk on
    have hsub : line - position side - (gap + h.lines side) =
        line - (h.before side + h.lines side) := by omega
    rw [hsub]
    show _ ↔ (h.before side < line ∧ line ≤ h.before side + h.lines side) ∨
      (h.before side + h.lines side < line ∧ _)
    constructor
    · rintro ⟨hlt, ⟨hlo, hhi⟩ | ⟨hlo, hchanges⟩⟩
      · exact Or.inl ⟨by omega, by omega⟩
      · exact Or.inr ⟨by omega, hchanges⟩
    · rintro (⟨hlo, hhi⟩ | ⟨hlo, hchanges⟩)
      · exact ⟨by omega, Or.inl ⟨by omega, by omega⟩⟩
      · exact ⟨by omega, Or.inr ⟨by omega, hchanges⟩⟩

end Fit

/-- No edit of a script made of hunks is empty, whatever the hunks. -/
theorem size_ne_zero_of_mem_editsFrom {oldLines cursor : Nat} {hunks : List Hunk}
    (h : e ∈ FileDiff.editsFrom oldLines cursor hunks) : e.size ≠ 0 := by
  induction hunks generalizing cursor with
  | nil => exact size_ne_zero_of_mem_run h
  | cons hunk rest ih =>
    rw [FileDiff.editsFrom, List.mem_append, List.mem_append, List.mem_append] at h
    rcases h with ((h | h) | h) | h
    · exact size_ne_zero_of_mem_run h
    · exact size_ne_zero_of_mem_run h
    · exact size_ne_zero_of_mem_run h
    · exact ih h

/-- The starts of the hunks in the new text are not read. -/
theorem editsFrom_map_newStart (starts : Hunk → Nat) (oldLines cursor : Nat) (hunks : List Hunk) :
    FileDiff.editsFrom oldLines cursor (hunks.map fun h => { h with newStart := starts h }) =
      FileDiff.editsFrom oldLines cursor hunks := by
  induction hunks generalizing cursor with
  | nil => rfl
  | cons h rest ih =>
    rw [List.map_cons, FileDiff.editsFrom, FileDiff.editsFrom, ih]
    rfl

end EditScript

open EditScript

/-- **A script made of fitting hunks is exact.** It takes up all lines of both texts, holds no empty
edit, and changes just the lines of the hunks in either text. The starts of the hunks in the new
text do not enter into it. -/
theorem ofHunks_changes_hunk_lines (oldLines newLines : Nat) (hunks : List Hunk) :
    let d := FileDiff.ofHunks oldLines newLines hunks
    Fit d.lines (fun _ => 0) hunks →
      (∀ side, extent side d.edits = d.lines side) ∧
      (∀ e ∈ d.edits, e.size ≠ 0) ∧
      (∀ side line, Changes side d.edits line ↔ ∃ h ∈ hunks, h.Covers side line) ∧
      ∀ starts : Hunk → Nat,
        FileDiff.ofHunks oldLines newLines
          (hunks.map fun h => { h with newStart := starts h }) = d := by
  intro d hfit
  refine ⟨fun side => ?_, fun e he => size_ne_zero_of_mem_editsFrom he,
    fun side line => ?_, fun starts => ?_⟩
  · have hextent := hfit.extent_editsFrom side
    rwa [Nat.zero_add] at hextent
  · rw [← hfit.changes_editsFrom side line]
    show _ ↔ 0 < line ∧ Changes side d.edits line
    rw [iff_and_self]
    exact fun h => h.le_extent.1
  · exact congrArg (FileDiff.mk oldLines newLines) (editsFrom_map_newStart starts oldLines 0 hunks)

/-- An insertion at the top, a replacement, a removal right behind it and an insertion at the
end. -/
theorem ofHunks_changes_hunk_lines_sample :
    let hunks : List Hunk := [⟨0, 0, 1, 2⟩, ⟨2, 1, 4, 3⟩, ⟨3, 2, 6, 0⟩, ⟨5, 0, 8, 1⟩]
    let d := FileDiff.ofHunks 5 8 hunks
    Fit d.lines (fun _ => 0) hunks ∧ ∀ line, Changes .new d.edits line ↔
      ∃ h ∈ hunks, h.Covers .new line := by
  intro hunks d
  have hfit : Fit d.lines (fun _ => 0) hunks :=
    .hunk 0 (fun side => by cases side <;> rfl) <| .hunk 1 (fun side => by cases side <;> rfl) <|
      .hunk 0 (fun side => by cases side <;> rfl) <| .hunk 1 (fun side => by cases side <;> rfl) <|
        .done 0 (fun side => by cases side <;> rfl)
  exact ⟨hfit, (ofHunks_changes_hunk_lines 5 8 hunks hfit).2.2.1 .new⟩

end CoChange
