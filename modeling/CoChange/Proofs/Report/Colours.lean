import CoChange.Proofs.Text
import CoChange.Report.Text
import Mathlib.Data.List.Forall2

/-!
# Reports with and without colours

A report with colours and one without are written side by side: `Shows coloured plain` says that the
first text is the second one once its escape sequences are removed, whatever comes behind.

* **`Shows.append`**, **`shows_join`**, **`shows_paint`**: what texts are built from.
* **`shows_table`**: colours stand in the last column of a table only, and that one is never filled
  up. So whatever width an escape sequence is taken to have, the other columns are as wide as
  without colours.
* **`uncoloured_text`**: a report with colours is the one without, once its escape sequences are
  removed.
-/

namespace CoChange

namespace Text

/-! ## Escape sequences -/

/-- Characters of the codes of a colour. -/
def isCodeChar (c : Char) : Bool := c.isDigit || c = ';'

/-- The length of the escape sequence that a text begins with, or zero: the escape character, a
bracket, codes and an `m`. -/
def sequenceLength : List Char → Nat
  | '\x1b' :: '[' :: rest =>
    if (rest.dropWhile isCodeChar).head? = some 'm' then
      (rest.takeWhile isCodeChar).length + 3 else 0
  | _ => 0

/-- A text without its escape sequences; `skip` characters of one of them are left. -/
def uncolouredFrom : (skip : Nat) → List Char → List Char
  | _, [] => []
  | skip + 1, _ :: rest => uncolouredFrom skip rest
  | 0, c :: rest =>
    match sequenceLength (c :: rest) with
    | 0 => c :: uncolouredFrom 0 rest
    | length + 1 => uncolouredFrom length rest

/-- What is left of a text when its escape sequences are removed. -/
def uncoloured (s : String) : String := String.ofList (uncolouredFrom 0 s.toList)

def EscapeFree (s : String) : Prop := '\x1b' ∉ s.toList

instance (s : String) : Decidable (EscapeFree s) := inferInstanceAs (Decidable (¬ _))

variable {cs rest codes : List Char} {s t : String}

/-- In the middle of an escape sequence, the rest of it is dropped first. -/
theorem uncolouredFrom_skip (skip : Nat) (cs : List Char) :
    uncolouredFrom skip cs = uncolouredFrom 0 (cs.drop skip) := by
  induction skip generalizing cs with
  | zero => rfl
  | succ skip ih =>
    cases cs with
    | nil => simp only [uncolouredFrom, List.drop_nil]
    | cons c rest => rw [uncolouredFrom, ih, List.drop_succ_cons]

/-- No escape sequence begins with another character. -/
theorem sequenceLength_of_ne {c : Char} (h : c ≠ '\x1b') (rest : List Char) :
    sequenceLength (c :: rest) = 0 := by
  unfold sequenceLength
  split
  · rename_i heq
    exact absurd (List.cons.inj heq).1 h
  · rfl

/-- A text without escape characters stays as it is, whatever comes behind it. -/
theorem uncolouredFrom_append_of_free (h : '\x1b' ∉ cs) (rest : List Char) :
    uncolouredFrom 0 (cs ++ rest) = cs ++ uncolouredFrom 0 rest := by
  induction cs with
  | nil => rfl
  | cons c cs ih =>
    rw [List.mem_cons, not_or] at h
    rw [List.cons_append, uncolouredFrom, sequenceLength_of_ne (Ne.symm h.1), List.cons_append]
    exact congrArg (c :: ·) (ih h.2)

/-- **An escape sequence is removed.** The codes have no character that could end the sequence
early. -/
theorem uncolouredFrom_sequence (h : ∀ c ∈ codes, isCodeChar c = true) (rest : List Char) :
    uncolouredFrom 0 ('\x1b' :: '[' :: (codes ++ 'm' :: rest)) = uncolouredFrom 0 rest := by
  have hstops : Stops isCodeChar ('m' :: rest) := fun c hc => by
    obtain rfl := Option.some.inj hc
    rfl
  have hlength : sequenceLength ('\x1b' :: '[' :: (codes ++ 'm' :: rest)) = codes.length + 3 := by
    rw [sequenceLength, dropWhile_append_stops h hstops, takeWhile_append_stops h hstops]
    exact if_pos rfl
  rw [uncolouredFrom, hlength]
  show uncolouredFrom (codes.length + 2) ('[' :: (codes ++ 'm' :: rest)) = _
  rw [uncolouredFrom_skip, List.drop_succ_cons, List.drop_length_add_append]
  rfl

/-- A text in two parts is free of escapes if both of them are. -/
theorem escapeFree_append : EscapeFree (s ++ t) ↔ EscapeFree s ∧ EscapeFree t := by
  rw [EscapeFree, String.toList_append, List.mem_append, not_or]
  rfl

theorem escapeFree_ofList : EscapeFree (String.ofList cs) ↔ '\x1b' ∉ cs := by
  rw [EscapeFree, String.toList_ofList]

/-- Numbers are free of escapes. -/
theorem escapeFree_toString (n : Nat) : EscapeFree (toString n) := by
  rw [EscapeFree, Decimal.toList_toString]
  exact Decimal.not_mem_toDigits rfl n

/-- Numbers are written with digits, a point and a sign, or in letters. -/
theorem escapeFree_renderFixed (places : Nat) (x : Binary64) :
    EscapeFree (x.renderFixed places) := by
  unfold Binary64.renderFixed
  split
  · decide
  · decide
  · decide
  · rename_i negative m e hview
    -- digits, a sign and a point are no escape characters
    have hdigits (k n : Nat) : '\x1b' ∉ List.replicate k '0' ++ Nat.toDigits 10 n := by
      rw [List.mem_append, not_or]
      exact ⟨fun h => absurd (List.mem_replicate.mp h).2 (by decide),
        Decimal.not_mem_toDigits rfl n⟩
    have hsigned {body : List Char} (h : '\x1b' ∉ body) : '\x1b' ∉ if negative then
        '-' :: body else body := by
      split
      · exact List.not_mem_cons_of_ne_of_not_mem (by decide) h
      · exact h
    rw [escapeFree_ofList]
    refine hsigned ?_
    split
    · exact fun h => hdigits _ _ (List.mem_of_mem_take h)
    · rw [List.mem_append, not_or]
      refine ⟨fun h => hdigits _ _ (List.mem_of_mem_take h), ?_⟩
      exact List.not_mem_cons_of_ne_of_not_mem (by decide) fun h =>
        hdigits _ _ (List.mem_of_mem_drop h)

/-! ## Lines -/

/-- To take the end off a line adds no character. -/
theorem mem_of_mem_dropLineEnd {c : Char} {line : List Char} (h : c ∈ dropLineEnd line) :
    c ∈ line := by
  unfold dropLineEnd at h
  split at h
  · rename_i rest heq
    rw [← List.mem_reverse, heq]
    exact List.mem_cons_of_mem _ (List.mem_cons_of_mem _ (List.mem_reverse.mp h))
  · rename_i rest hcarriage heq
    rw [← List.mem_reverse, heq]
    exact List.mem_cons_of_mem _ (List.mem_reverse.mp h)
  · exact h

/-- What stands in a line stands in the text. -/
theorem escapeFree_of_mem_lines (h : EscapeFree s) : ∀ line ∈ lines s, EscapeFree line := by
  rw [lines, List.forall_mem_map]
  intro line hline
  rw [escapeFree_ofList]
  intro hmem
  refine h ?_
  have hflat := flatten_splitLinesFrom [] s.toList
  rw [List.reverse_nil, List.nil_append] at hflat
  rw [← hflat]
  exact List.mem_flatten.mpr ⟨line, hline, mem_of_mem_dropLineEnd hmem⟩

/-- A text without line feeds is one line, unless there is nothing in it. -/
theorem splitLinesFrom_of_no_newline {current : List Char} (hne : current ≠ [] ∨ cs ≠ [])
    (h : '\n' ∉ cs) :
    splitLinesFrom current cs = [current.reverse ++ cs] := by
  induction cs generalizing current with
  | nil =>
    have hcurrent := hne.resolve_right (not_not.mpr rfl)
    rw [splitLinesFrom, if_neg (mt List.isEmpty_iff.mp hcurrent), List.append_nil]
  | cons c rest ih =>
    rw [List.mem_cons, not_or] at h
    rw [splitLinesFrom, if_neg (Ne.symm h.1), ih (.inl (List.cons_ne_nil _ _)) h.2,
      List.reverse_cons, List.append_assoc]
    rfl

/-- A line without a line feed has no end to take off. -/
theorem dropLineEnd_of_no_newline {line : List Char} (h : '\n' ∉ line) :
    dropLineEnd line = line := by
  unfold dropLineEnd
  rw [← List.mem_reverse] at h
  split
  · rename_i rest heq
    exact absurd (heq ▸ List.mem_cons_self) h
  · rename_i rest hcarriage heq
    exact absurd (heq ▸ List.mem_cons_self) h
  · rfl

/-- A text without line feeds is one line. -/
theorem lines_of_no_newline (hne : s ≠ "") (h : '\n' ∉ s.toList) : lines s = [s] := by
  have hlist : s.toList ≠ [] := mt String.toList_eq_nil_iff.mp hne
  rw [lines, splitLines, splitLinesFrom_of_no_newline (.inr hlist) h, List.reverse_nil,
    List.nil_append, List.map_singleton, dropLineEnd_of_no_newline h, String.ofList_toList]

end Text

/-- What a report shows of the texts of a unit. -/
def CodeUnit.texts (u : CodeUnit) : List String := [u.name, u.file]

def Coupling.texts (c : Coupling) : List String :=
  [c.first.name, c.first.file, c.second.name, c.second.file]

/-- All texts of metrics that a report shows: the names and the files. -/
def Metrics.texts (m : Metrics) : List String :=
  m.hotness.flatMap (·.unit.texts) ++
    m.hotspots.flatMap (·.unit.texts) ++ m.couplings.flatMap (·.texts)

namespace Report

open Text (EscapeFree uncoloured uncolouredFrom escapeFree_append)

/-! ## Texts side by side -/

/-- A text is another one once its escape sequences are removed, whatever comes behind. -/
def Shows (coloured plain : String) : Prop :=
  ∀ rest, uncolouredFrom 0 (coloured.toList ++ rest) = plain.toList ++ uncolouredFrom 0 rest

variable {coloured coloured' plain plain' s : String}

/-- A text that shows another one is that text without its colours. -/
theorem Shows.uncoloured_eq (h : Shows coloured plain) : uncoloured coloured = plain := by
  have hall := h []
  rw [List.append_nil, uncolouredFrom, List.append_nil] at hall
  rw [uncoloured, hall, String.ofList_toList]

theorem shows_empty : Shows "" "" := fun _ => rfl

theorem shows_self (h : EscapeFree s) : Shows s s := Text.uncolouredFrom_append_of_free h

/-- What is shown part by part is shown as a whole. -/
theorem Shows.append (h : Shows coloured plain) (h' : Shows coloured' plain') :
    Shows (coloured ++ coloured') (plain ++ plain') := by
  intro rest
  rw [String.toList_append, String.toList_append, List.append_assoc, List.append_assoc, h, h']

/-- Texts that show others, one by one, show them when they are joined. -/
theorem shows_join {texts plains : List String} (h : List.Forall₂ Shows texts plains) :
    Shows (String.join texts) (String.join plains) := by
  induction h with
  | nil => exact shows_empty
  | cons h hrest ih =>
    rw [String.join_cons, String.join_cons]
    exact h.append ih

/-- The codes of a style are among what may stand in an escape. -/
theorem Style.isCodeChar_codes (style : Style) :
    ∀ c ∈ style.codes.toList, Text.isCodeChar c = true := by
  cases style <;> decide

/-- What is painted stands between the codes of the style and the code that ends it. -/
theorem toList_paint (style : Style) (s : String) : (paint true style s).toList =
    '\x1b' :: '[' :: (style.codes.toList ++ 'm' :: (s.toList ++ ['\x1b', '[', '0', 'm'])) := by
  simp [paint]

/-- **A painted text is the text.** The sequence in front and the one behind it are removed, and
there is none in the text itself. -/
theorem shows_paint (style : Style) (h : EscapeFree s) :
    Shows (paint true style s) (paint false style s) := by
  intro rest
  have hopen := Text.uncolouredFrom_sequence style.isCodeChar_codes
  have hzero : ∀ c ∈ ['0'], Text.isCodeChar c = true := by decide
  have hclose := Text.uncolouredFrom_sequence hzero rest
  have hbehind : (paint true style s).toList ++ rest =
      '\x1b' :: '[' ::
      (style.codes.toList ++ 'm' :: (s.toList ++ '\x1b' :: '[' :: (['0'] ++ 'm' :: rest))) := by
    simp [toList_paint]
  rw [hbehind, hopen, Text.uncolouredFrom_append_of_free h, hclose]
  rfl

/-! ## Tables -/

theorem escapeFree_blanks (n : Nat) : EscapeFree (blanks n) := by
  rw [blanks, Text.escapeFree_ofList]
  exact fun h => absurd (List.mem_replicate.mp h).2 (by decide)

/-- Padding adds no escapes. -/
theorem escapeFree_padded (width : Nat) (h : EscapeFree s) : EscapeFree (padded width s) := by
  rw [padded, escapeFree_append, escapeFree_append, escapeFree_append]
  exact ⟨⟨⟨by decide, h⟩, escapeFree_blanks _⟩, by decide⟩

/-- What is not filled up has the same blanks around it, however wide it is. -/
theorem Shows.padded_zero (h : Shows coloured plain) :
    Shows (padded 0 coloured) (padded 0 plain) := by
  rw [padded, padded, Nat.zero_sub, Nat.zero_sub]
  exact (((shows_self (by decide)).append h).append (shows_self (escapeFree_blanks 0))).append
    (shows_self (by decide))

/-- The lines of a cell are those of another one. -/
def LinesShow (coloured plain : String) : Prop :=
  List.Forall₂ Shows (Text.lines coloured) (Text.lines plain)

theorem linesShow_self (h : EscapeFree s) : LinesShow s s :=
  List.forall₂_same.mpr fun line hline => shows_self (Text.escapeFree_of_mem_lines h line hline)

/-- A painted text of one line is one line, which shows the line without paint. -/
theorem linesShow_paint (style : Style) (hfree : EscapeFree s) (hne : s ≠ "")
    (hline : '\n' ∉ s.toList) :
    LinesShow (paint true style s) (paint false style s) := by
  have hpainted : '\n' ∉ (paint true style s).toList := by
    have hcodes : '\n' ∉ style.codes.toList :=
      fun h => absurd (style.isCodeChar_codes _ h) (by decide)
    simp [toList_paint, hcodes, hline]
  have hpaint_ne : paint true style s ≠ "" := by
    rw [Ne, ← String.toList_inj, toList_paint]
    exact List.cons_ne_nil _ _
  have hplain : Text.lines (paint false style s) = [s] := Text.lines_of_no_newline hne hline
  rw [LinesShow, Text.lines_of_no_newline hpaint_ne hpainted, hplain]
  exact .cons (shows_paint style hfree) .nil

/-- The rows of a table side by side: only what stands in the last one of their columns can be
painted. -/
inductive RowShows (n : Nat) : Row → Row → Prop where
  | intro (front : List String) {last plain : String} (hlength : front.length = n)
    (hfree : ∀ s ∈ front, EscapeFree s) (hlast : LinesShow last plain) :
    RowShows n (front ++ [last]) (front ++ [plain])

variable {n : Nat} {row plainRow headers : Row} {rows plainRows : List Row}

/-- Rows that show the same have the same number of cells. -/
theorem RowShows.length_eq (h : RowShows n row plainRow) :
    row.length = n + 1 ∧ plainRow.length = n + 1 := by
  obtain ⟨front, rfl, -, -⟩ := h
  exact ⟨List.length_append, List.length_append⟩

/-- All cells but the last one are the same in both rows, and have no escape character. -/
theorem RowShows.cell_eq (h : RowShows n row plainRow) {i : Nat} (hi : i < n) :
    cell row i = cell plainRow i ∧ EscapeFree (cell plainRow i) := by
  obtain ⟨front, rfl, hfree, -⟩ := h
  have hcell (last : String) : cell (front ++ [last]) i = front[i] := by
    rw [cell, List.getD_eq_getElem?_getD, List.getElem?_append_left hi, List.getElem?_eq_getElem hi,
      Option.getD_some]
  rw [hcell, hcell]
  exact ⟨rfl, hfree _ (List.getElem_mem hi)⟩

/-- The last cells of the two rows show each other line by line. -/
theorem RowShows.cell_last (h : RowShows n row plainRow) :
    LinesShow (cell row n) (cell plainRow n) := by
  obtain ⟨front, rfl, -, hlast⟩ := h
  have hcell (last : String) : cell (front ++ [last]) front.length = last := by
    rw [cell, List.getD_eq_getElem?_getD, List.getElem?_concat_length, Option.getD_some]
  rwa [hcell, hcell]

/-- They have the same height, since colours add no lines. -/
theorem RowShows.rowHeight_eq (h : RowShows n row plainRow) :
    rowHeight row = rowHeight plainRow := by
  obtain ⟨front, -, -, hlast⟩ := h
  rw [rowHeight, rowHeight, List.foldl_append, List.foldl_append, List.foldl_cons, List.foldl_cons,
    List.foldl_nil, List.foldl_nil, hlast.length_eq]

/-- Both tables have as many columns as their rows have cells. -/
theorem columnCount_eq (hne : rows ≠ []) (h : List.Forall₂ (RowShows n) rows plainRows) :
    columnCount rows = n + 1 ∧ columnCount plainRows = n + 1 := by
  have hrest {rows plainRows : List Row} (h : List.Forall₂ (RowShows n) rows plainRows) :
      rows.foldl (fun k r => max k r.length) (n + 1) = n + 1 ∧
      plainRows.foldl (fun k r => max k r.length) (n + 1) = n + 1 := by
    induction h with
    | nil => exact ⟨rfl, rfl⟩
    | cons h hrest ih =>
      rwa [List.foldl_cons, List.foldl_cons, h.length_eq.1, h.length_eq.2, Nat.max_self]
  cases h with
  | nil => exact absurd rfl hne
  | cons h hmore =>
    rw [columnCount, columnCount, List.foldl_cons, List.foldl_cons, h.length_eq.1, h.length_eq.2,
      Nat.zero_max]
    exact hrest hmore

/-- The width of a column. -/
def columnWidth (rows : List Row) (i : Nat) : Nat :=
  rows.foldl (fun w r => max w (cellWidth (cell r i))) 0

/-- The widths of the columns are those of all but the last one, and that of the last one. -/
theorem columnWidths_eq (h : columnCount rows = n + 1) :
    columnWidths rows = (List.range n).map (columnWidth rows) ++ [columnWidth rows n] := by
  rw [columnWidths, h, List.range_succ, List.map_append, List.map_singleton]
  rfl

/-- **All columns but the last one are as wide as without colours.** Their cells are the same in
both tables, one by one. -/
theorem columnWidth_eq (h : List.Forall₂ (RowShows n) rows plainRows) {i : Nat} (hi : i < n) :
    columnWidth rows i = columnWidth plainRows i := by
  have hcells : rows.map (cell · i) = plainRows.map (cell · i) := by
    rw [← List.forall₂_eq_eq_eq, List.forall₂_map_left_iff, List.forall₂_map_right_iff]
    exact h.imp fun row plainRow hrow => (hrow.cell_eq hi).1
  have hwidth (rows : List Row) :
      columnWidth rows i = (rows.map (cell · i)).foldl (fun w s => max w (cellWidth s)) 0 := by
    rw [columnWidth, List.foldl_map]
  rw [hwidth, hwidth, hcells]

/-- The columns of both tables have the same widths, but for the last one. -/
theorem exists_columnWidths (hne : rows ≠ []) (h : List.Forall₂ (RowShows n) rows plainRows) :
    ∃ widths last plain, widths.length = n ∧ columnWidths rows = widths ++ [last] ∧
      columnWidths plainRows = widths ++ [plain] := by
  obtain ⟨hcount, hplain⟩ := columnCount_eq hne h
  have hsame : (List.range n).map (columnWidth rows) = (List.range n).map (columnWidth plainRows) :=
    List.map_congr_left fun i hi => columnWidth_eq h (List.mem_range.mp hi)
  have hwidths := columnWidths_eq hplain
  rw [← hsame] at hwidths
  exact ⟨_, _, _, by rw [List.length_map, List.length_range], columnWidths_eq hcount, hwidths⟩

/-- A line of a row is the line of its first cell, filled up, and the line of the rest. -/
theorem rowLine_cons {widths : List Nat} (h : widths ≠ []) (row : Row) (k i width : Nat) :
    rowLine row k i (width :: widths) =
      padded width ((Text.lines (cell row i)).getD k "") ++ rowLine row k (i + 1) widths := by
  obtain ⟨w, rest, rfl⟩ := List.exists_cons_of_ne_nil h
  rw [rowLine]
  exact List.cons_ne_nil _ _

/-- Lines that show others do so one by one, and where there is none both are empty. -/
theorem shows_getD {lines plains : List String} (h : List.Forall₂ Shows lines plains) (k : Nat) :
    Shows (lines.getD k "") (plains.getD k "") := by
  induction h generalizing k with
  | nil => exact shows_empty
  | cons h hrest ih =>
    cases k with
    | zero => exact h
    | succ k => exact ih k

/-- No line of a text without escape characters has one. -/
theorem escapeFree_getD_lines (h : EscapeFree s) (k : Nat) :
    EscapeFree ((Text.lines s).getD k "") := by
  rw [List.getD_eq_getElem?_getD]
  cases hline : (Text.lines s)[k]? with
  | none => decide
  | some line => exact Text.escapeFree_of_mem_lines h line (List.mem_of_getElem? hline)

/-- A line of a row, from any column on. The last column may have any width, because it is not
filled up. -/
theorem RowShows.rowLine (h : RowShows n row plainRow) (k : Nat) (widths : List Nat)
    (last plain i : Nat) (hi : i + widths.length = n) :
    Shows (Report.rowLine row k i (widths ++ [last]))
      (Report.rowLine plainRow k i (widths ++ [plain])) := by
  induction widths generalizing i with
  | nil =>
    obtain rfl : i = n := hi
    exact (shows_getD h.cell_last k).padded_zero
  | cons width rest ih =>
    rw [List.length_cons] at hi
    obtain ⟨hsame, hfree⟩ := h.cell_eq (show i < n by omega)
    have hcell := shows_self (escapeFree_padded width (escapeFree_getD_lines hfree k))
    rw [List.cons_append, List.cons_append, rowLine_cons (by simp), rowLine_cons (by simp), hsame]
    exact hcell.append (ih (i + 1) (by omega))

/-- The lines of a row are written side by side, one for each line of its highest cell. -/
theorem RowShows.rowLines (h : RowShows n row plainRow) {widths : List Nat}
    (hwidths : widths.length = n) (last plain : Nat) :
    List.Forall₂ Shows (Report.rowLines (widths ++ [last]) row)
      (Report.rowLines (widths ++ [plain]) plainRow) := by
  rw [Report.rowLines, Report.rowLines, h.rowHeight_eq, List.forall₂_map_left_iff,
    List.forall₂_map_right_iff, List.forall₂_same]
  exact fun k _ => h.rowLine k widths last plain 0 (by rw [Nat.zero_add, hwidths])

/-- The lines of a table. -/
def tableText (rows : List Row) : String :=
  String.join ((rows.flatMap (rowLines (columnWidths rows))).map fun line => "  " ++ line ++ "\n")

/-- A table with paint in its last column shows the one without. -/
theorem shows_tableText (hne : rows ≠ []) (h : List.Forall₂ (RowShows n) rows plainRows) :
    Shows (tableText rows) (tableText plainRows) := by
  obtain ⟨widths, last, plain, hwidths, hrows, hplain⟩ := exists_columnWidths hne h
  have hlines : List.Forall₂ Shows (rows.flatMap (rowLines (widths ++ [last])))
      (plainRows.flatMap (rowLines (widths ++ [plain]))) :=
    List.rel_flatMap h fun row plainRow hrow => hrow.rowLines hwidths last plain
  rw [tableText, tableText, hrows, hplain]
  refine shows_join ?_
  rw [List.forall₂_map_left_iff, List.forall₂_map_right_iff]
  exact hlines.imp fun line plain hline =>
    ((shows_self (by decide)).append hline).append (shows_self (by decide))

/-- A table with a row is the text of its rows, with that of the headers in front if there are
any. -/
theorem table_cons (headers row : Row) (rest : List Row) :
    table headers (row :: rest) =
      tableText (if headers.isEmpty then row :: rest else headers :: row :: rest) := rfl

/-- **A table with painted cells in its last column is the table without colours.** Its headers and
its rows have the same cells in all columns but the last one, whose width is not used. -/
theorem shows_table (hheaders : RowShows n headers headers ∨ headers = [])
    (h : List.Forall₂ (RowShows n) rows plainRows) :
    Shows (table headers rows) (table headers plainRows) := by
  cases h with
  | nil => exact shows_empty
  | cons hrow hrest =>
    rcases hheaders with hheaders | rfl
    · have hfilled : headers.isEmpty = false := by
        have hlength := hheaders.length_eq.1
        exact List.isEmpty_eq_false_iff.mpr (List.ne_nil_of_length_eq_add_one hlength)
      have hall := shows_tableText (List.cons_ne_nil _ _) (.cons hheaders (.cons hrow hrest))
      rw [table_cons, table_cons, hfilled, if_neg Bool.false_ne_true, if_neg Bool.false_ne_true]
      exact hall
    · exact shows_tableText (List.cons_ne_nil _ _) (.cons hrow hrest)

/-! ## Sections -/

/-- A coloured heading shows the heading. -/
theorem shows_heading (limit : Nat) (h : EscapeFree s) :
    Shows (heading ⟨limit, true⟩ s) (heading ⟨limit, false⟩ s) :=
  (shows_paint .heading h).append (shows_self (by decide))

/-- A section shows the rows that are asked for, and how many there are besides. -/
theorem shows_section (title : String) (htitle : EscapeFree title)
    (hheaders : RowShows n headers headers)
    (h : List.Forall₂ (RowShows n) rows plainRows) (limit : Nat) :
    Shows (section_ ⟨limit, true⟩ title headers rows)
      (section_ ⟨limit, false⟩ title headers plainRows) := by
  have hnewline : Shows "\n" "\n" := shows_self (by decide)
  have htable := shows_table (.inl hheaders) (List.forall₂_take limit h)
  have hmore (k : Nat) : EscapeFree ("  ... and " ++ toString k ++ " more") :=
    escapeFree_append.mpr ⟨escapeFree_append.mpr ⟨by decide, Text.escapeFree_toString k⟩, by decide⟩
  have hlength := h.length_eq
  -- both have as many rows, so both are left out or cut short at one place
  have hempty : rows.isEmpty = plainRows.isEmpty := by
    cases h <;> rfl
  unfold section_
  rw [hempty, hlength]
  split
  · exact shows_empty
  · refine ((hnewline.append (shows_heading limit htitle)).append htable).append ?_
    split
    · exact (shows_paint .faint (hmore _)).append hnewline
    · exact shows_empty

/-! ## Rows -/

theorem escapeFree_percent (x : Binary64) : EscapeFree (percent x) :=
  escapeFree_append.mpr ⟨Text.escapeFree_renderFixed 0 _, by decide⟩

/-- A row that has no colours. -/
theorem rowShows_self (front : List String) (last : String) (h : ∀ s ∈ front, EscapeFree s)
    (hlast : EscapeFree last) :
    RowShows front.length (front ++ [last]) (front ++ [last]) :=
  .intro front rfl h (linesShow_self hlast)

/-- Rows that show other texts than these in colours only. -/
theorem forall₂_rowShows {α : Type} {f g : α → Row} {texts : α → List String} {l : List α}
    (h : ∀ s ∈ l.flatMap texts, EscapeFree s)
    (hrow : ∀ x, (∀ s ∈ texts x, EscapeFree s) → RowShows n (f x) (g x)) :
    List.Forall₂ (RowShows n) (l.map f) (l.map g) := by
  rw [List.forall₂_map_left_iff, List.forall₂_map_right_iff, List.forall₂_same]
  exact fun x hx => hrow x fun s hs => h s (List.mem_flatMap_of_mem hx hs)

/-- A row of hotness has no paint, so it shows itself. -/
theorem rowShows_hotness {x : Hotness} (h : ∀ s ∈ x.unit.texts, EscapeFree s) :
    RowShows 4 (hotnessRow x) (hotnessRow x) := by
  simp only [CodeUnit.texts, List.forall_mem_cons] at h
  refine rowShows_self [_, _, _, _] _ ?_ (Text.escapeFree_toString x.peers)
  simp only [List.forall_mem_cons]
  exact ⟨h.1, h.2.1, Text.escapeFree_toString _,
    Text.escapeFree_renderFixed 2 _, List.forall_mem_nil _⟩

/-- The label of a risk is one line without escape sequences, painted or not. -/
theorem linesShow_riskLabel (limit : Nat) (r : Risk) :
    LinesShow (riskLabel ⟨limit, true⟩ r) (riskLabel ⟨limit, false⟩ r) := by
  cases r with
  | low => exact linesShow_self (s := Risk.low.label) (by decide)
  | medium => exact linesShow_paint .warning (by decide) (by decide) (by decide)
  | high => exact linesShow_paint .alarm (by decide) (by decide) (by decide)

/-- Of a hotspot, only the risk is painted, in the last cell. -/
theorem rowShows_hotspot (limit : Nat) {x : Hotspot} (h : ∀ s ∈ x.unit.texts, EscapeFree s) :
    RowShows 3 (hotspotRow ⟨limit, true⟩ x) (hotspotRow ⟨limit, false⟩ x) := by
  simp only [CodeUnit.texts, List.forall_mem_cons] at h
  refine .intro [_, _, _] rfl ?_ (linesShow_riskLabel limit x.risk)
  simp only [List.forall_mem_cons]
  exact ⟨h.1, h.2.1, Text.escapeFree_toString _, List.forall_mem_nil _⟩

/-- The name of a unit is shown without escapes, if its parts are free of them. -/
theorem escapeFree_display {u : UnitName} (hname : EscapeFree u.name) (hfile : EscapeFree u.file) :
    EscapeFree (UnitName.display u) := by
  rw [UnitName.display, escapeFree_append, escapeFree_append, escapeFree_append]
  exact ⟨⟨⟨hname, by decide⟩, hfile⟩, by decide⟩

/-- A row of coupling has no paint, so it shows itself. -/
theorem rowShows_coupling {c : Coupling} (h : ∀ s ∈ c.texts, EscapeFree s) :
    RowShows 3 (couplingRow c) (couplingRow c) := by
  simp only [Coupling.texts, List.forall_mem_cons] at h
  obtain ⟨hname, hfile, hname', hfile', -⟩ := h
  refine rowShows_self [_, _, _] _ ?_ (escapeFree_percent c.strength)
  simp only [List.forall_mem_cons]
  exact ⟨escapeFree_display hname hfile,
    escapeFree_display hname' hfile', Text.escapeFree_toString _,
    List.forall_mem_nil _⟩

/-- The number of hot units is one line without escape sequences, painted or not. -/
theorem rowShows_hotUnits (t : Totals) :
    RowShows 1
      ["Hot Nodes", if 0 < t.hotUnits then
        paint true .notable (toString t.hotUnits) else toString t.hotUnits]
      ["Hot Nodes", if 0 < t.hotUnits then
        paint false .notable (toString t.hotUnits) else toString t.hotUnits] := by
  have hfree := Text.escapeFree_toString t.hotUnits
  have hline : '\n' ∉ (toString t.hotUnits).toList := by
    rw [Decimal.toList_toString]
    exact Decimal.not_mem_toDigits rfl _
  refine .intro ["Hot Nodes"] rfl (by decide) ?_
  split
  · exact linesShow_paint .notable hfree (Decimal.toString_ne_empty _) hline
  · exact linesShow_self hfree

/-- Of the summary, the one row that may be painted is that of the hot nodes, in its last cell. -/
theorem forall₂_rowShows_summary (limit : Nat) (t : Totals) :
    List.Forall₂ (RowShows 1) (summaryRows ⟨limit, true⟩ t) (summaryRows ⟨limit, false⟩ t) := by
  have hself {name value : String} (hname : EscapeFree name) (hvalue : EscapeFree value) :
      RowShows 1 [name, value] [name, value] :=
    rowShows_self [name] value (List.forall_mem_singleton.mpr hname) hvalue
  exact .cons (hself (by decide) (Text.escapeFree_toString _)) <|
    .cons (hself (by decide) (Text.escapeFree_toString _)) <|
    .cons (hself (by decide) (Text.escapeFree_renderFixed 1 _)) <|
    .cons (hself (by decide) (Text.escapeFree_toString _)) <|
    .cons (hself (by decide) (escapeFree_percent _)) <|
    .cons (rowShows_hotUnits t) .nil

/-! ## Reports -/

/-- **Colours change nothing else.** If no name and no file in metrics has an escape character, what
is left of a report with colours when its escape sequences are removed is the report without
colours, with any number of rows in its sections. -/
theorem uncoloured_text (m : Metrics) (h : ∀ s ∈ m.texts, EscapeFree s) (limit : Nat) :
    uncoloured (text ⟨limit, true⟩ m) = text ⟨limit, false⟩ m := by
  rw [Metrics.texts, List.forall_mem_append, List.forall_mem_append] at h
  obtain ⟨⟨hhotness, hhotspots⟩, hcouplings⟩ := h
  have htitle : EscapeFree ("Shotness Analysis (" ++ toString m.totals.units ++ " nodes)") :=
    escapeFree_append.mpr ⟨escapeFree_append.mpr ⟨by decide, Text.escapeFree_toString _⟩, by decide⟩
  have hhead := ((shows_heading limit htitle).append (shows_self (s := "\n") (by decide))).append
    (shows_heading limit (s := "Summary") (by decide))
  have hsummary := shows_table (.inr rfl) (forall₂_rowShows_summary limit m.totals)
  have hhottest := shows_section "Hottest Functions" (by decide)
    (rowShows_self ["Name", "File", "Changes", "Score"] "Coupled" (by decide) (by decide))
    (forall₂_rowShows hhotness fun _ => rowShows_hotness) limit
  have hrisks := shows_section "Risk Assessment" (by decide)
    (rowShows_self ["Name", "File", "Changes"] "Risk" (by decide) (by decide))
    (forall₂_rowShows hhotspots fun _ => rowShows_hotspot limit) limit
  have hstrongest := shows_section "Strongest Couplings" (by decide)
    (rowShows_self ["Unit", "Peer", "Co-changes"] "Strength" (by decide) (by decide))
    (forall₂_rowShows hcouplings fun _ => rowShows_coupling) limit
  exact ((((hhead.append hsummary).append hhottest).append hrisks).append hstrongest).uncoloured_eq

namespace Sample

/-- Metrics of two units at risk, one of them with a wide name. -/
def risky : Metrics where
  hotness :=
  [⟨⟨"Function", "解析", "a.rs"⟩, 24, 1, .ofNat 1⟩, ⟨⟨"Function", "run", "b.rs"⟩, 12, 1, .zero false⟩]
  couplings := [⟨⟨"解析", "a.rs"⟩, ⟨"run", "b.rs"⟩, 6, .zero false⟩]
  hotspots := [⟨⟨"Function", "解析", "a.rs"⟩, 24, .high⟩, ⟨⟨"Function", "run", "b.rs"⟩, 12, .medium⟩]
  totals := ⟨2, 36, 1, .ofNat 18, .zero false, 2⟩

end Sample

/-- A report with painted labels and one row in each section is the same without colours. -/
theorem uncoloured_text_sample :
    (∀ s ∈ Sample.risky.texts, EscapeFree s) ∧
    (Sample.risky.hotspots.map (hotspotRow ⟨1, true⟩)).map (·.getLast?) =
      [some "\x1b[1;31mHIGH\x1b[0m", some "\x1b[33mMEDIUM\x1b[0m"] ∧
    section_ ⟨1, false⟩ "Risk Assessment" ["Name", "File", "Changes", "Risk"]
      (Sample.risky.hotspots.map (hotspotRow ⟨1, false⟩)) =
      "\nRisk Assessment\n   Name  File  Changes  Risk \n" ++
      "   解析  a.rs  24       HIGH \n  ... and 1 more\n" ∧
    uncoloured (text ⟨1, true⟩ Sample.risky) = text ⟨1, false⟩ Sample.risky := by
  have hfree : ∀ s ∈ Sample.risky.texts, EscapeFree s := by decide +kernel
  exact ⟨hfree, by decide +kernel, by decide +kernel, uncoloured_text Sample.risky hfree 1⟩

end Report

end CoChange
